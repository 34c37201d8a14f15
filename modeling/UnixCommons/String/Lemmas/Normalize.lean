import UnixCommons.String.UnicodeNormalizer

/-!
# 正規化の補題

`first_combiner` は、最後の始めの文字の直後にあり、その前は整列した列である。
-/

namespace UnixCommons.String.UnicodeNormalizer

open Lib

variable {f : Nat → Nat} {s s' : Normalizing} {text d starters combiners input : List Nat}
    {decomposer : Nat → Option (List Nat)}

theorem isStarter_iff {wch : Nat} : isStarter f wch = true ↔ getCombiningClass f wch = 0 := beq_iff_eq

theorem not_isStarter_iff {wch : Nat} : isStarter f wch = false ↔ getCombiningClass f wch ≠ 0 := beq_eq_false_iff_ne

/-! ## 分解 -/

/-- 始めの文字のない列か、始めの文字の列の後に多くとも一つの結合文字が続く列か、一つの始めの文字の後に結合文字の列が続く列。 -/
def WellShaped (f : Nat → Nat) (d : List Nat) : Prop :=
  (∀ x ∈ d, isStarter f x = false) ∨
    ∃ starters combiners, d = starters ++ combiners ∧ starters ≠ [] ∧ (∀ x ∈ starters, isStarter f x = true) ∧
      (∀ x ∈ combiners, isStarter f x = false) ∧ (combiners.length ≤ 1 ∨ starters.length = 1)

def BeginsWithCombiner (f : Nat → Nat) (decomposer : Nat → Option (List Nat)) (input : List Nat) : Prop :=
  ∃ before wch after first rest, input = before ++ wch :: after ∧ (∀ x ∈ before, decomposer x = some []) ∧
    decomposer wch = some (first :: rest) ∧ isStarter f first = false

theorem getD_of_append {l before after : List Nat} {i x : Nat} (hl : l = before ++ x :: after)
    (hi : i = before.length) : l.getD i 0 = x := by
  rw [hl, hi, List.getD_append_right _ _ _ _ (Nat.le_refl _), Nat.sub_self]
  rfl

theorem firstCombiner_eq (output : List Nat) (hne : starters ≠ []) (hstarters : ∀ x ∈ starters, isStarter f x = true)
    (hcombiners : ∀ x ∈ combiners, isStarter f x = false) (hshape : combiners.length ≤ 1 ∨ starters.length = 1) :
    (if isStarter f ((output ++ (starters ++ combiners)).getD (output.length + (starters ++ combiners).length - 1) 0) then
        output.length + (starters ++ combiners).length
      else if isStarter f ((output ++ (starters ++ combiners)).getD
        (output.length + (starters ++ combiners).length - 2) 0) then
        output.length + (starters ++ combiners).length - 1
      else output.length + 1) = output.length + starters.length := by
  obtain ⟨starters, z, rfl⟩ := (List.eq_nil_or_concat' starters).resolve_left hne
  have hz : isStarter f z = true := hstarters z (by simp)
  rcases List.eq_nil_or_concat' combiners with rfl | ⟨combiners, y, rfl⟩
  · -- 始めの文字で終わる。
    have hlast : (output ++ (starters ++ [z] ++ [])).getD (output.length + (starters ++ [z] ++ []).length - 1) 0 = z :=
      @getD_of_append _ (output ++ starters) [] _ _ (by simp) (by simp)
    rw [hlast, if_pos hz, List.append_nil]
  · have hy : isStarter f y = false := hcombiners y (by simp)
    have hlast : (output ++ (starters ++ [z] ++ (combiners ++ [y]))).getD
        (output.length + (starters ++ [z] ++ (combiners ++ [y])).length - 1) 0 = y :=
      @getD_of_append _ (output ++ starters ++ z :: combiners) [] _ _ (by simp) (by simp; omega)
    rw [hlast, if_neg (Bool.eq_false_iff.mp hy)]
    rcases List.eq_nil_or_concat' combiners with rfl | ⟨combiners, x, rfl⟩
    · -- 結合文字は一つである。
      have hsecond : (output ++ (starters ++ [z] ++ ([] ++ [y]))).getD
          (output.length + (starters ++ [z] ++ ([] ++ [y])).length - 2) 0 = z :=
        @getD_of_append _ (output ++ starters) [y] _ _ (by simp) (by simp; omega)
      rw [hsecond, if_pos hz]
      simp
    · -- 結合文字が二つ以上であれば、始めの文字は一つである。
      have hx : isStarter f x = false := hcombiners x (by simp)
      have hsecond : (output ++ (starters ++ [z] ++ (combiners ++ [x] ++ [y]))).getD
          (output.length + (starters ++ [z] ++ (combiners ++ [x] ++ [y])).length - 2) 0 = x :=
        @getD_of_append _ (output ++ starters ++ z :: combiners) [y] _ _ (by simp) (by simp; omega)
      rw [hsecond, if_neg (Bool.eq_false_iff.mp hx), hshape.resolve_left (by simp)]

theorem normalizeStep_starters (hne : starters ≠ []) (hstarters : ∀ x ∈ starters, isStarter f x = true)
    (hcombiners : ∀ x ∈ combiners, isStarter f x = false) (hshape : combiners.length ≤ 1 ∨ starters.length = 1) :
    normalizeStep f s (starters ++ combiners) = some ⟨s.sorted f ++ starters, combiners, false⟩ := by
  have hfirst := firstCombiner_eq (s.sorted f) hne hstarters hcombiners hshape
  obtain ⟨first, rest, rfl⟩ := List.exists_cons_of_ne_nil hne
  rw [List.cons_append] at hfirst ⊢
  rw [normalizeStep, if_pos (hstarters first (List.mem_cons_self ..))]
  dsimp only
  rw [hfirst, ← List.cons_append, ← List.append_assoc, ← List.length_append, List.take_left, List.drop_left]

theorem normalizeStep_cases (hshape : WellShaped f d) :
    (d = [] ∧ normalizeStep f s d = some s) ∨
      (∃ starters combiners, d = starters ++ combiners ∧ starters ≠ [] ∧ (∀ x ∈ starters, isStarter f x = true) ∧
        (∀ x ∈ combiners, isStarter f x = false) ∧ normalizeStep f s d = some ⟨s.sorted f ++ starters, combiners, false⟩) ∨
      (d ≠ [] ∧ (∀ x ∈ d, isStarter f x = false) ∧
        normalizeStep f s d = if s.firstSymbolFlag then none else some { s with combiners := s.combiners ++ d }) := by
  rcases hshape with hcombiners | ⟨starters, combiners, rfl, hne, hstarters, hcombiners, hshape⟩
  · cases d with
    | nil => exact .inl ⟨rfl, rfl⟩
    | cons first rest =>
        have hfirst := hcombiners first (List.mem_cons_self ..)
        refine .inr (.inr ⟨List.cons_ne_nil _ _, hcombiners, ?_⟩)
        rw [normalizeStep, if_neg (Bool.eq_false_iff.mp hfirst)]
  · exact .inr (.inl ⟨starters, combiners, rfl, hne, hstarters, hcombiners,
      normalizeStep_starters hne hstarters hcombiners hshape⟩)

/-! ## 書いた文字 -/

structure Normalizing.Holds (f : Nat → Nat) (s : Normalizing) (text : List Nat) : Prop where
  body : ∃ body, text = body ++ s.combiners ∧ s.settled = reorder (getCombiningClass f) body ∧
    ∀ x ∈ body.getLast?, getCombiningClass f x = 0
  combiners : ∀ x ∈ s.combiners, getCombiningClass f x ≠ 0
  flag : s.firstSymbolFlag = true ↔ text = []

theorem Normalizing.Holds.begin (f : Nat → Nat) : Normalizing.begin.Holds f [] where
  body := ⟨[], rfl, rfl, fun _ hx => by cases hx⟩
  combiners _ hx := by cases hx
  flag := iff_of_true rfl rfl

theorem Normalizing.Holds.sorted_eq (h : s.Holds f text) : s.sorted f = reorder (getCombiningClass f) text := by
  obtain ⟨body, rfl, hsettled, hlast⟩ := h.body
  have hclass : ∀ x ∈ s.combiners, f x = getCombiningClass f x := by
    intro x hx
    have hne := h.combiners x hx
    rw [getCombiningClass] at hne ⊢
    split_ifs at hne ⊢
    · exact absurd rfl hne
    · rfl
  have hsort : stableSort (canonicalOrder f) s.combiners = reorder (getCombiningClass f) s.combiners := by
    rw [reorder_nonstarters h.combiners]
    refine stableSort_congr fun a ha b hb => ?_
    rw [canonicalOrder, hclass a ha, hclass b hb]
  rw [reorder_append fun x hx _ _ => .inl (hlast x hx), ← hsort, ← hsettled, Normalizing.sorted]
  split_ifs with hne
  · rfl
  · rw [not_ne_iff.mp hne, stableSort, List.insertionSort_nil, List.append_nil]

theorem Normalizing.Holds.step (h : s.Holds f text) (hshape : WellShaped f d)
    (hstep : normalizeStep f s d = some s') : s'.Holds f (text ++ d) := by
  rcases @normalizeStep_cases f s d hshape with ⟨rfl, heq⟩ |
    ⟨starters, combiners, rfl, hne, hstarters, hcombiners, heq⟩ | ⟨hne, hcombiners, heq⟩
  · obtain rfl := Option.some.inj (heq.symm.trans hstep)
    rwa [List.append_nil]
  · obtain rfl := Option.some.inj (heq.symm.trans hstep)
    have hzero : ∀ x ∈ starters, getCombiningClass f x = 0 := fun x hx => isStarter_iff.mp (hstarters x hx)
    refine ⟨⟨text ++ starters, (List.append_assoc _ _ _).symm, ?_, fun x hx => ?_⟩, fun x hx =>
      not_isStarter_iff.mp (hcombiners x hx), ?_⟩
    · rw [reorder_append fun _ _ x hx => .inr (hzero x (List.mem_of_mem_head? hx)), reorder_starters hzero, h.sorted_eq]
    · rw [List.getLast?_append_of_ne_nil _ hne] at hx
      exact hzero x (List.mem_of_getLast? hx)
    · simp [hne]
  · rw [heq] at hstep
    split_ifs at hstep with hflag
    obtain rfl := Option.some.inj hstep
    obtain ⟨body, hbody, hsettled, hlast⟩ := h.body
    refine ⟨⟨body, by rw [hbody, List.append_assoc], hsettled, hlast⟩, List.forall_mem_append.mpr
      ⟨h.combiners, fun x hx => ?_⟩, ?_⟩
    · exact not_isStarter_iff.mp (hcombiners x hx)
    · simp [hflag, hne]

theorem Normalizing.Holds.step_none (h : s.Holds f text) (hshape : WellShaped f d) :
    normalizeStep f s d = none ↔ text = [] ∧ ∃ first rest, d = first :: rest ∧ isStarter f first = false := by
  rcases @normalizeStep_cases f s d hshape with ⟨rfl, heq⟩ |
    ⟨starters, combiners, rfl, hne, hstarters, hcombiners, heq⟩ | ⟨hne, hcombiners, heq⟩
  · rw [heq]
    simp
  · obtain ⟨first, rest, rfl⟩ := List.exists_cons_of_ne_nil hne
    rw [heq]
    have hfirst := hstarters first (List.mem_cons_self ..)
    simp [hfirst]
  · obtain ⟨first, rest, rfl⟩ := List.exists_cons_of_ne_nil hne
    have hfirst := hcombiners first (List.mem_cons_self ..)
    rw [heq, ← h.flag]
    simp [hfirst]

variable (hshape : ∀ wch d, decomposer wch = some d → WellShaped f d)

include hshape

theorem Normalizing.Holds.run (h : s.Holds f text)
    (hrun : (input.foldlM (fun s wch => do normalizeStep f s (← decomposer wch)) s) = some s') :
    ∃ ds, List.Forall₂ (decomposer · = some ·) input ds ∧ s'.Holds f (text ++ ds.flatten) := by
  induction input generalizing s text with
  | nil =>
      obtain rfl := Option.some.inj hrun
      exact ⟨[], .nil, by rwa [List.flatten_nil, List.append_nil]⟩
  | cons wch input ih =>
      rw [List.foldlM_cons] at hrun
      obtain ⟨u, hu, hrun⟩ := Option.bind_eq_some_iff.mp hrun
      obtain ⟨d, hd, hstep⟩ := Option.bind_eq_some_iff.mp hu
      obtain ⟨ds, hds, hheld⟩ := ih (h.step (hshape wch d hd) hstep) hrun
      exact ⟨d :: ds, .cons hd hds, by rwa [List.flatten_cons, ← List.append_assoc]⟩

theorem Normalizing.Holds.run_none (h : s.Holds f text) :
    (input.foldlM (fun s wch => do normalizeStep f s (← decomposer wch)) s) = none ↔
      (∃ wch ∈ input, decomposer wch = none) ∨ (text = [] ∧ BeginsWithCombiner f decomposer input) := by
  induction input generalizing s text with
  | nil =>
      refine iff_of_false (fun heq => by cases heq) ?_
      rintro (⟨wch, hwch, -⟩ | ⟨-, before, wch, after, first, rest, hinput, -⟩)
      · cases hwch
      · exact List.append_ne_nil_of_right_ne_nil before (List.cons_ne_nil wch after) hinput.symm
  | cons wch input ih =>
      rw [List.foldlM_cons]
      cases hd : decomposer wch with
      | none => exact iff_of_true rfl (.inl ⟨wch, List.mem_cons_self .., hd⟩)
      | some d =>
          have hnone := h.step_none (hshape wch d hd)
          cases hstep : normalizeStep f s d with
          | none =>
              obtain ⟨htext, first, rest, rfl, hfirst⟩ := hnone.mp hstep
              refine iff_of_true ?_ (.inr ⟨htext, [], wch, input, first, rest, rfl, fun _ hx => (by cases hx), hd, hfirst⟩)
              show normalizeStep f s (first :: rest) >>= _ = none
              rw [hstep]
              rfl
          | some u =>
              have hiff := ih (h.step (hshape wch d hd) hstep)
              have hfold : ((some d >>= normalizeStep f s) >>= fun s => input.foldlM
                  (fun s wch => do normalizeStep f s (← decomposer wch)) s) =
                  input.foldlM (fun s wch => do normalizeStep f s (← decomposer wch)) u := by
                show normalizeStep f s d >>= _ = _
                rw [hstep]
                rfl
              rw [hfold, hiff]
              constructor
              · rintro (⟨x, hx, hxd⟩ | ⟨htext, before, x, after, first, rest, rfl, hbefore, hrest⟩)
                · exact .inl ⟨x, List.mem_cons_of_mem _ hx, hxd⟩
                · obtain ⟨rfl, rfl⟩ := List.append_eq_nil_iff.mp htext
                  exact .inr ⟨rfl, wch :: before, x, after, first, rest, rfl, List.forall_mem_cons.mpr ⟨hd, hbefore⟩, hrest⟩
              · rintro (⟨x, hx, hxd⟩ | ⟨rfl, before, x, after, first, rest, hinput, hbefore, hx, hfirst⟩)
                · rcases List.mem_cons.mp hx with rfl | hx
                  · rw [hd] at hxd
                    cases hxd
                  · exact .inl ⟨x, hx, hxd⟩
                · cases before with
                  | nil =>
                      -- 分解が結合文字で始まれば、歩みは止まったはずである。
                      obtain ⟨rfl, rfl⟩ := List.cons.inj hinput
                      obtain rfl := Option.some.inj (hd.symm.trans hx)
                      cases hstep.symm.trans (hnone.mpr ⟨rfl, first, rest, rfl, hfirst⟩)
                  | cons y before =>
                      obtain ⟨rfl, rfl⟩ := List.cons.inj hinput
                      obtain ⟨hy, hbefore⟩ := List.forall_mem_cons.mp hbefore
                      obtain rfl := Option.some.inj (hd.symm.trans hy)
                      exact .inr ⟨rfl, before, x, after, first, rest, rfl, hbefore, hx, hfirst⟩

end UnixCommons.String.UnicodeNormalizer
