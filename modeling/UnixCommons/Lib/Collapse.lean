import Mathlib.Data.List.TakeWhile

/-!
# 続いた項の並びをまとめる

性質 `own` を持つ項の、途切れずに続く極大の並びを、一つの並び `repl` に替える。他の項は、そのバイトの並び `octets` のまま残る。
-/

namespace Lib.Collapse

variable {α β : Type} {own : α → Bool} {octets : α → List β} {repl : List β} {inRun : Bool} {l before run rest : List α}

/-- `inRun` は、すぐ前の項が性質を持つことを表す。 -/
def collapse (own : α → Bool) (octets : α → List β) (repl : List β) : Bool → List α → List β
  | _, [] => []
  | inRun, c :: l =>
      if own c then (if inRun then [] else repl) ++ collapse own octets repl true l
      else octets c ++ collapse own octets repl false l

def runs (own : α → Bool) : Bool → List α → Nat
  | _, [] => 0
  | inRun, c :: l => if own c then (if inRun then 0 else 1) + runs own true l else runs own false l

def kept (own : α → Bool) (octets : α → List β) (l : List α) : Nat := ((l.filter (!own ·)).flatMap octets).length

@[simp] theorem collapse_nil (own : α → Bool) (octets : α → List β) (repl : List β) (inRun : Bool) :
    collapse own octets repl inRun [] = [] := rfl

theorem collapse_append (h : ∀ c ∈ before, own c = false) (rest : List α) :
    collapse own octets repl false (before ++ rest) = before.flatMap octets ++ collapse own octets repl false rest := by
  induction before with
  | nil => rfl
  | cons c before ih =>
      obtain ⟨hc, hbefore⟩ := List.forall_mem_cons.mp h
      rw [List.cons_append, collapse, hc, if_neg Bool.false_ne_true, ih hbefore, List.flatMap_cons, List.append_assoc]

theorem collapse_of_forall (h : ∀ c ∈ l, own c = false) : collapse own octets repl false l = l.flatMap octets := by
  have happend : collapse own octets repl false (l ++ []) = l.flatMap octets ++
      collapse own octets repl false [] := collapse_append h []
  rwa [List.append_nil, collapse_nil, List.append_nil] at happend

theorem collapse_inRun (h : ∀ c ∈ run, own c = true) (hrest : ∀ c ∈ rest.head?, own c = false) :
    collapse own octets repl true (run ++ rest) = collapse own octets repl false rest := by
  induction run with
  | nil =>
      cases rest with
      | nil => rfl
      | cons c rest =>
          have hc : own c = false := hrest c rfl
          rw [List.nil_append, collapse, collapse, hc, if_neg Bool.false_ne_true, if_neg Bool.false_ne_true]
  | cons c run ih =>
      obtain ⟨hc, hrun⟩ := List.forall_mem_cons.mp h
      rw [List.cons_append, collapse, hc, if_pos rfl, if_pos rfl, List.nil_append, ih hrun]

theorem collapse_run {c : α} (hc : own c = true) (h : ∀ c ∈ run, own c = true) (hrest : ∀ c ∈ rest.head?, own c = false) :
    collapse own octets repl false (c :: run ++ rest) = repl ++ collapse own octets repl false rest := by
  rw [List.cons_append, collapse, hc, if_pos rfl, if_neg Bool.false_ne_true, collapse_inRun h hrest]

theorem run_cases (own : α → Bool) (l : List α) :
    (∀ c ∈ l, own c = false) ∨ ∃ before c run rest, l = before ++ (c :: run ++ rest) ∧
    (∀ x ∈ before, own x = false) ∧ own c = true ∧
      (∀ x ∈ run, own x = true) ∧ ∀ x ∈ rest.head?, own x = false := by
  by_cases h : ∀ c ∈ l, own c = false
  · exact .inl h
  · have hbefore : ∀ x ∈ l.takeWhile (!own ·), own x = false := fun x hx => by simpa using List.mem_takeWhile_imp hx
    cases hdrop : l.dropWhile (!own ·) with
    | nil =>
        refine absurd (fun c hc => ?_) h
        simpa using List.dropWhile_eq_nil_iff.mp hdrop c hc
    | cons c l' =>
        have hhead := List.head_dropWhile_not (!own ·) (l := l) (by rw [hdrop]; exact List.cons_ne_nil _ _)
        simp only [hdrop, List.head_cons, Bool.not_eq_eq_eq_not, Bool.not_false] at hhead
        refine .inr ⟨l.takeWhile (!own ·), c, l'.takeWhile own, l'.dropWhile own, ?_, hbefore,
          hhead, fun x hx => List.mem_takeWhile_imp hx, fun x hx => ?_⟩
        · rw [List.cons_append, List.takeWhile_append_dropWhile, ← hdrop, List.takeWhile_append_dropWhile]
        · have hne : l'.dropWhile own ≠ [] := by
            rintro hnil
            rw [hnil] at hx
            cases hx
          have hnot := List.head_dropWhile_not own hne
          rw [List.head?_eq_some_head hne] at hx
          obtain rfl := Option.some.inj hx
          exact hnot

theorem forall_mem_collapse {P : β → Prop} (hrepl : ∀ b ∈ repl, P b) (hl : ∀ c ∈ l, own c = false → ∀ b ∈ octets c, P b) :
    ∀ b ∈ collapse own octets repl inRun l, P b := by
  induction l generalizing inRun with
  | nil => exact fun b hb => nomatch hb
  | cons c l ih =>
      obtain ⟨hc, hl⟩ := List.forall_mem_cons.mp hl
      rw [collapse]
      cases hown : own c with
      | true =>
          refine List.forall_mem_append.mpr ⟨?_, ih hl⟩
          cases inRun with
          | true => exact fun b hb => nomatch hb
          | false => exact hrepl
      | false => exact List.forall_mem_append.mpr ⟨hc hown, ih hl⟩

theorem dropWhile_run {c : α} (hc : own c = true) (h : ∀ c ∈ run, own c = true)
    (hrest : ∀ c ∈ rest.head?, own c = false) : (c :: run ++ rest).dropWhile own = rest := by
  rw [List.dropWhile_append_of_pos (List.forall_mem_cons.mpr ⟨hc, h⟩)]
  cases rest with
  | nil => rfl
  | cons x rest => exact List.dropWhile_cons_of_neg (by simp [hrest x rfl])

theorem length_collapse (own : α → Bool) (octets : α → List β) (repl : List β) (inRun : Bool) (l : List α) :
    (collapse own octets repl inRun l).length = kept own octets l + runs own inRun l * repl.length := by
  induction l generalizing inRun with
  | nil => simp [kept, runs]
  | cons c l ih =>
      rw [collapse, runs]
      cases hc : own c with
      | true =>
          rw [if_pos rfl, if_pos rfl, List.length_append, ih true, kept, kept, List.filter_cons_of_neg (by simp [hc])]
          cases inRun with
          | true => simp
          | false =>
              simp [Nat.add_mul]
              omega
      | false =>
          rw [if_neg Bool.false_ne_true, if_neg Bool.false_ne_true, List.length_append, ih false, kept, kept,
            List.filter_cons_of_pos (by simp [hc]), List.flatMap_cons, List.length_append]
          omega

theorem runs_replicate {c : α} (hc : own c = true) (n : Nat) : runs own false (List.replicate (n + 1) c) = 1 := by
  have hrest : ∀ n, runs own true (List.replicate n c) = 0 := by
    intro n
    induction n with
    | zero => rfl
    | succ n ih => rw [List.replicate_succ, runs, if_pos hc, if_pos rfl, ih]
  rw [List.replicate_succ, runs, if_pos hc, if_neg Bool.false_ne_true, hrest]

end Lib.Collapse
