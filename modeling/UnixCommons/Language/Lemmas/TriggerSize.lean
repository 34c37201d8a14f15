import Mathlib.Algebra.Order.BigOperators.Group.List
import UnixCommons.Language.Lemmas.NormalizeTwice

/-!
# トリガーの大きさの補題

`divide` が求める大きさは、組み立てて書く文字の数より小さくない。
-/

namespace UnixCommons.Language.NormalizeTrigger

open Lib Prune

variable {s : Simplifier} {T text : Bytes} {d d' : Division} {exact first : Bool} {parts : List Part} {fuel : Nat}

/-! ## 簡単にした文字列の長さ -/

theorem length_skipSpaces_le (text : Bytes) : (skipSpaces text).length ≤ text.length :=
  (List.dropWhile_suffix _).length_le.trans (List.tail_sublist text).length_le

theorem length_shrinkLoop_le (fuel : Nat) (text : Bytes) : (shrinkLoop fuel text).length ≤ text.length := by
  induction fuel generalizing text with
  | zero => exact Nat.zero_le _
  | succ fuel ih =>
      have hsplit :=
        congrArg List.length (List.takeWhile_append_dropWhile (p := fun c : UInt8 => decide (c ≠ space)) (l := text))
      rw [List.length_append] at hsplit
      rw [shrinkLoop]
      split_ifs with hnil hskip
      · omega
      · omega
      · have hrest := ih (skipSpaces (text.dropWhile fun c => decide (c ≠ space)))
        have hlt := skipSpaces_length_lt hnil
        rw [List.length_append, List.length_cons]
        omega

theorem length_shrink_le (text : Bytes) : (shrink text).length ≤ text.length := by
  rw [shrink]
  split_ifs with hspace hnil hnil
  · exact Nat.zero_le _
  · exact (length_shrinkLoop_le _ _).trans (length_skipSpaces_le text)
  · exact Nat.zero_le _
  · exact length_shrinkLoop_le _ _

def expansion : Nat := 11 * 2 ^ 18 + 3

theorem Simplifier.Bounded.simplify (hs : s.Bounded) {name : String} {str : Bytes}
    (h : simplify s T name str = .ok text) : text.length ≤ 11 * 2 ^ 18 * str.length := by
  rw [NormalizeTrigger.simplify, simplifyCommon] at h
  cases hchange : s.caseChange str with
  | none =>
      rw [hchange] at h
      cases h
  | some res =>
      have hres := hs.caseChange str res hchange
      rw [hchange] at h
      cases hspaces : s.putSpaces with
      | none =>
          rw [hspaces] at h
          change (if res = [] then pure res else pure (shrink res)) = Except.ok text at h
          split_ifs at h
          · obtain rfl := Except.ok.inj h
            omega
          · obtain rfl := Except.ok.inj h
            have hshrink := length_shrink_le res
            omega
      | some putSpaces =>
          rw [hspaces] at h
          have hput := hs.putSpaces putSpaces hspaces res
          by_cases hnil : res = []
          · simp only [hnil, if_true] at h
            obtain rfl := Except.ok.inj h
            exact Nat.zero_le _
          · simp only [hnil, if_false] at h
            change (if putSpaces res = [] then pure (putSpaces res) else pure (shrink (putSpaces res))) = Except.ok text at h
            split_ifs at h
            · obtain rfl := Except.ok.inj h
              omega
            · obtain rfl := Except.ok.inj h
              have hshrink := length_shrink_le (putSpaces res)
              omega

/-! ## 予約する大きさ -/

def spare (exact : Bool) : Nat := if exact then 1 else 3

def needed (exact : Bool) (parts : List Part) : Nat := ((parts.map Prod.fst).map fun t => t.length + spare exact).sum

@[simp] theorem needed_nil (exact : Bool) : needed exact [] = 0 := rfl

@[simp] theorem needed_cons (exact : Bool) (p : Part) (parts : List Part) :
    needed exact (p :: parts) = p.1.length + spare exact + needed exact parts := by simp [needed]

@[simp] theorem needed_append (exact : Bool) (parts parts' : List Part) :
    needed exact (parts ++ parts') = needed exact parts + needed exact parts' := by simp [needed]

theorem length_le_needed (exact : Bool) (parts : List Part) : parts.length ≤ needed exact parts := by
  induction parts with
  | nil => exact le_rfl
  | cons p parts ih =>
      rw [needed_cons, List.length_cons, spare]
      split <;> omega

theorem needed_of_sublist {parts' : List Part}
    (h : (parts.map Prod.fst).Sublist (parts'.map Prod.fst)) : needed exact parts ≤ needed exact parts' :=
  (h.map _).sum_le_sum fun _ _ => Nat.zero_le _

theorem needed_of_perm {parts' : List Part} (h : parts.Perm parts') :
    needed exact parts = needed exact parts' := ((h.map _).map _).sum_nat

theorem needed_narrow_le (exact : Bool) (parts : List Part) : needed exact (narrow parts) ≤ needed exact parts := by
  rw [needed_of_perm (narrow_perm parts)]
  exact needed_of_sublist (sublist_prune below _ parts)

/-- 数と大きさは、部分の並びの物を 32 ビットで数えた物である。 -/
structure Counted (exact : Bool) (d : Division) : Prop where
  count : d.count = UInt32.ofNat d.parts.length
  size : d.size = UInt32.ofNat ((if exact then 1 else 0) + needed exact d.parts)

theorem Counted.push (h : Counted exact d) (text : Bytes) (quotes : Bool) :
    Counted exact (d.push text quotes (spare exact)) := by
  constructor
  · change d.count + 1 = UInt32.ofNat (d.parts ++ [(text, quotes)]).length
    rw [h.count, List.length_append, UInt32.ofNat_add]
    rfl
  · change d.size + UInt32.ofNat (text.length + spare exact) = UInt32.ofNat (_ + needed exact (d.parts ++ [(text, quotes)]))
    rw [h.size, needed_append, needed_cons, needed_nil, ← UInt32.ofNat_add]
    exact congrArg UInt32.ofNat (by dsimp only; omega)

/-- 部分の並びを加えて、数え方を保ち、大きさは `budget` しか増えない。 -/
structure Grows (exact : Bool) (budget : Nat) (d d' : Division) : Prop where
  counted : Counted exact d → Counted exact d'
  needed : needed exact d'.parts ≤ needed exact d.parts + budget

theorem Grows.refl (exact : Bool) (budget : Nat) (d : Division) : Grows exact budget d d := ⟨id, Nat.le_add_right _ _⟩

theorem Grows.trans {m n : Nat} {d'' : Division} (h : Grows exact m d d')
    (h' : Grows exact n d' d'') : Grows exact (m + n) d d'' :=
  ⟨fun hd => h'.counted (h.counted hd), by have := h.needed; have := h'.needed; omega⟩

theorem Grows.mono {m n : Nat} (h : Grows exact m d d') (hle : m ≤ n) : Grows exact n d d' :=
  ⟨h.counted, by have := h.needed; omega⟩

theorem grows_push (exact : Bool) (d : Division) (text : Bytes) (quotes : Bool) :
    Grows exact (text.length + spare exact) d (d.push text quotes (spare exact)) :=
  ⟨fun h => h.push text quotes, by rw [Division.push, needed_append, needed_cons, needed_nil]; dsimp only; omega⟩

theorem grows_foldl_push (ws : List Bytes) (d : Division) :
    Grows true (ws.map fun w => w.length + 1).sum d (ws.foldl (fun d word => d.push word false 1) d) := by
  induction ws generalizing d with
  | nil => exact .refl _ _ _
  | cons w ws ih =>
      rw [List.map_cons, List.sum_cons]
      exact (grows_push true d w false).trans (ih _)

theorem length_splitWords_le (word text : Bytes) :
    ((splitWords word text).map fun w => w.length + 1).sum ≤ word.length + text.length + 1 := by
  induction word, text using splitWords.induct with
  | case1 word => simp [splitWords]
  | case2 word => simp [splitWords]
  | case3 word c hc => simp [splitWords, hc]
  | case4 word c cur ih =>
      rw [splitWords, if_pos rfl, List.map_cons, List.sum_cons]
      simp only [List.length_cons, List.length_nil] at ih ⊢
      omega
  | case5 word c c' cur hc ih =>
      rw [splitWords, if_neg hc]
      simp only [List.length_append, List.length_cons, List.length_nil] at ih ⊢
      omega

theorem grows_addPart (hs : s.Bounded) {quotes : Bool} (h : addPart s T text quotes exact d = .ok d') :
    Grows exact (expansion * text.length) d d' := by
  rw [addPart] at h
  by_cases htext : text = []
  · rw [if_pos htext] at h
    obtain rfl := Except.ok.inj h
    exact .refl _ _ _
  rw [if_neg htext] at h
  obtain ⟨tmp, hsimplify, h⟩ := bind_eq_ok.mp h
  have hpos := List.length_pos_of_ne_nil htext
  have hlen := hs.simplify hsimplify
  have hroom : tmp.length + 3 ≤ expansion * text.length := by
    rw [expansion, Nat.add_mul]
    omega
  split_ifs at h with hnil hexact
  · obtain rfl := Except.ok.inj h
    exact .refl _ _ _
  · obtain rfl := Except.ok.inj h
    have hsplit := length_splitWords_le [] tmp
    rw [hexact]
    refine (grows_foldl_push (splitWords [] tmp) d).mono (hsplit.trans ?_)
    rw [List.length_nil]
    omega
  · obtain rfl := Except.ok.inj h
    have hfalse : exact = false := eq_false_of_ne_true hexact
    rw [hfalse]
    exact (grows_push false d tmp quotes).mono hroom

/-! ## `divide` のループ -/

theorem length_findSpaceOrQuote {cur rest : Bytes}
    (h : findSpaceOrQuote exact cur = some (text, rest)) : text.length + rest.length = cur.length := by
  induction cur generalizing text with
  | nil =>
      obtain ⟨rfl, rfl⟩ := Prod.mk.inj (Option.some.inj h)
      rfl
  | cons c cur ih =>
      rw [findSpaceOrQuote] at h
      split_ifs at h
      · obtain ⟨rfl, rfl⟩ := Prod.mk.inj (Option.some.inj h)
        simp
      · obtain ⟨rfl, rfl⟩ := Prod.mk.inj (Option.some.inj h)
        simp
      · obtain ⟨⟨text', rest'⟩, hfind, heq⟩ := Option.map_eq_some_iff.mp h
        obtain ⟨rfl, rfl⟩ := Prod.mk.inj heq
        have hlen : text'.length + rest'.length = cur.length := ih hfind
        change text'.length + 1 + rest'.length = cur.length + 1
        omega

theorem of_readRest {quotes : Bool} {rest : Bytes}
    (h : (addPart s T text quotes false d >>= fun d => readRest s T fuel rest d) = .ok d') :
    ∃ d₁, addPart s T text quotes false d = .ok d₁ ∧ (d' = d₁ ∨ divideLoop s T false fuel (next rest) d₁ = .ok d') := by
  obtain ⟨d₁, hadd, h⟩ := bind_eq_ok.mp h
  rw [readRest] at h
  refine ⟨d₁, hadd, ?_⟩
  cases hnext : next rest with
  | nil =>
      rw [hnext] at h
      exact .inl (Except.ok.inj h).symm
  | cons c cur =>
      rw [hnext] at h
      exact .inr h

theorem divideLoop_step {c : UInt8} {cur : Bytes} (h : divideLoop s T exact (fuel + 1) (c :: cur) d = .ok d') :
    d' = d ∨ ∃ text quotes rest d₁, text.length + rest.length ≤ (c :: cur).length ∧
      addPart s T text quotes exact d = .ok d₁ ∧
      (d' = d₁ ∨ divideLoop s T exact fuel (next rest) d₁ = .ok d') := by
  cases exact with
  | true =>
      by_cases hright : c = right
      · rw [divideLoop, if_pos ⟨rfl, hright⟩] at h
        by_cases hnext : next cur = []
        · rw [if_neg (by simp [hnext])] at h
          exact .inl (Except.ok.inj h).symm
        · rw [if_pos hnext] at h
          cases h
      · rw [divideLoop_exact hright] at h
        cases hfind : findSpaceOrQuote true (if c = quote then cur else c :: cur) with
        | none =>
            rw [hfind] at h
            cases h
        | some r =>
            have hlen := length_findSpaceOrQuote hfind
            rw [hfind] at h
            dsimp only at h
            obtain ⟨d₁, hadd, h⟩ := bind_eq_ok.mp h
            rw [exactRest] at h
            refine .inr ⟨_, _, r.2, d₁, ?_, hadd, .inr ?_⟩
            · split_ifs at hlen ⊢ with hquote
              · rw [List.length_cons, List.length_cons]
                omega
              · exact hlen.le
            · cases hnext : next r.2 with
              | nil =>
                  rw [hnext] at h
                  cases h
              | cons c' cur' =>
                  rw [hnext] at h
                  exact h
  | false =>
      rw [divideLoop] at h
      by_cases hquote : c = quote
      · simp only [hquote, Bool.false_eq_true, false_and, if_false, decide_true, Bool.not_false, Bool.and_self, if_true] at h
        rcases hfind : findQuote cur with _ | ⟨text, _ | ⟨c', rest⟩⟩
        · rw [hfind] at h
          cases h
        · rw [hfind] at h
          cases h
        · obtain ⟨rfl, -, -⟩ := of_findQuote hfind
          rw [hfind] at h
          obtain ⟨d₁, hadd, hd⟩ := of_readRest h
          refine .inr ⟨text, true, rest, d₁, ?_, hadd, hd⟩
          rw [List.length_cons, List.length_append, List.length_cons]
          omega
      · simp only [hquote, Bool.false_eq_true, false_and, if_false, decide_false, Bool.not_false, Bool.and_false] at h
        rcases hfind : findSpaceOrQuote false (c :: cur) with _ | ⟨text, rest⟩
        · rw [hfind] at h
          cases h
        · rw [hfind] at h
          obtain ⟨d₁, hadd, hd⟩ := of_readRest h
          exact .inr ⟨text, false, rest, d₁, (length_findSpaceOrQuote hfind).le, hadd, hd⟩

theorem grows_divideLoop (hs : s.Bounded) {cur : Bytes}
    (h : divideLoop s T exact fuel cur d = .ok d') : Grows exact (expansion * cur.length) d d' := by
  induction fuel generalizing cur d with
  | zero =>
      obtain rfl := Except.ok.inj h
      exact .refl _ _ _
  | succ fuel ih =>
      cases cur with
      | nil =>
          obtain rfl := Except.ok.inj h
          exact .refl _ _ _
      | cons c cur =>
          rcases divideLoop_step h with rfl | ⟨text, quotes, rest, d₁, hlen, hadd, hd⟩
          · exact .refl _ _ _
          · have hfirst := grows_addPart hs hadd
            have hle := next_length_le rest
            rcases hd with rfl | hloop
            · exact hfirst.mono (Nat.mul_le_mul_left _ (by omega))
            · refine (hfirst.trans (ih hloop)).mono ?_
              rw [← Nat.mul_add]
              exact Nat.mul_le_mul_left _ (by omega)

theorem divide_size (hs : s.Bounded) {split : Split} (h : divide s T = .ok (split, d)) :
    split.parts = d.parts ∧ (d.count = 0 ↔ d.parts = []) ∧ (split.exact = true → d.size.toNat = 1 + needed true d.parts) ∧
      (split.exact = false → d.size.toNat = needed false d.parts) := by
  have hsmall : ∀ exact, Counted exact d → needed exact d.parts ≤ expansion * 1024 → (d.count = 0 ↔ d.parts = []) ∧
      d.size.toNat = (if exact then 1 else 0) + needed exact d.parts := by
    intro exact hcounted hle
    have hparts := length_le_needed exact d.parts
    have hwidth : UInt32.size = 4294967296 := rfl
    rw [expansion] at hle
    refine ⟨⟨fun hzero => ?_, fun hnil => by rw [hcounted.count, hnil]; rfl⟩, ?_⟩
    · have hcount := congrArg UInt32.toNat (hcounted.count.symm.trans hzero)
      rw [UInt32.toNat_ofNat_of_lt' (by omega)] at hcount
      exact List.length_eq_zero_iff.mp hcount
    · rw [hcounted.size, UInt32.toNat_ofNat_of_lt']
      split <;> omega
  obtain ⟨hT, ⟨-, rfl, rfl⟩ | ⟨c, cur, hnext, -, hloop, rfl⟩ | ⟨cur, hcur, hloop, rfl⟩⟩ := divide_cases h
  · exact ⟨rfl, ⟨fun _ => rfl, fun _ => rfl⟩, fun h => (nomatch h), fun _ => rfl⟩
  · have hgrows := grows_divideLoop hs hloop
    have hle := next_length_le T
    rw [hnext] at hle
    obtain ⟨hzero, hsize⟩ := hsmall false (hgrows.counted ⟨rfl, rfl⟩) (hgrows.needed.trans (by
      rw [needed_nil, Nat.zero_add]
      exact Nat.mul_le_mul_left _ (hle.trans hT)))
    exact ⟨rfl, hzero, fun h => (nomatch h), fun _ => by rw [hsize, if_neg Bool.false_ne_true, Nat.zero_add]⟩
  · have hgrows := grows_divideLoop hs hloop
    obtain ⟨hzero, hsize⟩ := hsmall true (hgrows.counted ⟨rfl, rfl⟩) (hgrows.needed.trans (by
      rw [needed_nil, Nat.zero_add]
      exact Nat.mul_le_mul_left _ (hcur.trans hT)))
    exact ⟨rfl, hzero, fun _ => by rw [hsize, if_pos rfl], fun h => nomatch h⟩

/-! ## 組み立て -/

variable {a : Area UInt8} {itor : Part} {r : StoredTrigger}

theorem extends_writeOpening (exact first : Bool) (itor : Part) (a : Area UInt8) :
    a.Extends (writeOpening exact first itor a) := by
  unfold writeOpening
  split_ifs
  · exact Area.extends_append _ _
  · exact .refl _
  · exact (Area.extends_append _ _).trans (Area.extends_append _ _)
  · exact Area.extends_append _ _

theorem extends_writeClosing (exact : Bool) (itor : Part) (a : Area UInt8) : a.Extends (writeClosing exact itor a) := by
  unfold writeClosing
  split_ifs
  · exact Area.extends_append _ _
  · exact .refl _

theorem extends_combineStringLoop (exact first : Bool) (parts : List Part) (a : Area UInt8) :
    a.Extends (combineStringLoop exact first parts a) := by
  induction parts generalizing first a with
  | nil => exact .refl _
  | cons itor parts ih =>
      have hopening := extends_writeOpening exact first itor a
      have hpart := Area.extends_append (writeOpening exact first itor a) itor.1
      exact ((hopening.trans hpart).trans (extends_writeClosing _ _ _)).trans (ih false _)

theorem combineStoredLoop_trigger (exact first : Bool) (parts : List Part) (r : StoredTrigger) :
    (combineStoredLoop exact first parts r).trigger = combineStringLoop exact first parts r.trigger := by
  induction parts generalizing first r with
  | nil => rfl
  | cons itor parts ih => rw [combineStoredLoop, combineStringLoop, ih]

theorem combineStoredLoop_exact (exact first : Bool) (parts : List Part) (r : StoredTrigger) :
    (combineStoredLoop exact first parts r).exact = r.exact := by
  induction parts generalizing first r with
  | nil => rfl
  | cons itor parts ih => rw [combineStoredLoop, ih]

theorem combineStored_trigger (split : Split) (r : StoredTrigger) :
    (combineStored split r).trigger = combineString split r.trigger := by
  unfold combineStored combineString
  cases split.exact <;> simp [combineStoredLoop_trigger]

def printRest (exact first : Bool) (parts : List Part) : Bytes :=
  if first = false ∧ parts ≠ [] then space :: printParts exact parts else printParts exact parts

theorem printRest_cons (exact first : Bool) (itor : Part) (parts : List Part) :
    printRest exact first (itor :: parts) = (if first then [] else [space]) ++
      printPart exact itor ++ printRest exact false parts := by
  cases parts <;> cases first <;> simp [printRest, printParts]

theorem combineStringLoop_text (exact first : Bool) (parts : List Part) (a : Area UInt8) :
    (combineStringLoop exact first parts a).text = a.text ++ printRest exact first parts := by
  induction parts generalizing first a with
  | nil => simp [combineStringLoop, printRest, printParts]
  | cons itor parts ih =>
      rw [combineStringLoop, ih, printRest_cons]
      cases first <;> cases hq : needsQuotes exact itor <;> simp [printPart, writeOpening, writeClosing, hq]

theorem combineString_text (split : Split) (ha : a.text = []) : (combineString split a).text = combine split := by
  unfold combineString combine
  cases split.exact <;> simp [combineStringLoop_text, printRest, ha]

theorem length_printPart_le (exact : Bool) (itor : Part) :
    (printPart exact itor).length + 1 ≤ itor.1.length + spare exact := by
  cases exact with
  | true => simp [printPart, needsQuotes, spare]
  | false => cases hq : needsQuotes false itor <;> simp [printPart, spare, hq]

theorem length_printRest_le (exact first : Bool) (parts : List Part) (hne : first = true → parts ≠ []) :
    (printRest exact first parts).length + (if first then 1 else 0) ≤ needed exact parts := by
  induction parts generalizing first with
  | nil =>
      cases first with
      | false => exact Nat.zero_le _
      | true => exact absurd rfl (hne rfl)
  | cons itor parts ih =>
      have hrest := ih false fun h => nomatch h
      have hpart := length_printPart_le exact itor
      rw [printRest_cons, needed_cons, List.length_append, List.length_append]
      cases first <;> simp at hrest ⊢ <;> omega

theorem length_combine_le {split : Split} (hne : split.exact = true → split.parts ≠ []) :
    (combine split).length ≤ (if split.exact then 1 else 0) + needed split.exact split.parts := by
  by_cases hparts : split.parts = []
  · have hexact : split.exact = false := eq_false_of_ne_true fun h => hne h hparts
    rw [combine, hexact, hparts]
    exact Nat.zero_le _
  · have hrest := length_printRest_le split.exact true split.parts fun _ => hparts
    rw [printRest, if_neg (by simp)] at hrest
    unfold combine
    cases hexact : split.exact <;> rw [hexact] at hrest <;> simp at hrest ⊢ <;> omega

/-! ## 部分の位置 -/

def Views (trigger : Area UInt8) (stored : List StoredPart) (exact : Bool) (parts : List Part) : Prop :=
  stored.map (StoredPart.view trigger) = parts.map fun p => some ⟨p.1, needsQuotes exact p || p.2⟩

theorem Views.mono {stored : List StoredPart} {a' : Area UInt8} (h : Views a stored exact parts)
    (ha : a.Extends a') (hfit : a'.text.length ≤ a.capacity) : Views a' stored exact parts := by
  unfold Views at h ⊢
  rw [← h]
  refine List.map_congr_left fun p hp => ?_
  have hview : StoredPart.view a p ∈ stored.map (StoredPart.view a) := List.mem_map_of_mem hp
  rw [h] at hview
  obtain ⟨q, -, hq⟩ := List.mem_map.mp hview
  rw [StoredPart.view] at hq ⊢
  obtain ⟨t, hread, -⟩ := Option.map_eq_some_iff.mp hq.symm
  rw [StoredPart.view, hread, ha.read hfit hread]

theorem views_combineStoredLoop {before : List Part} (h : Views r.trigger r.parts exact before)
    (hfit : (combineStoredLoop exact first parts r).trigger.text.length ≤ r.trigger.capacity) :
    Views (combineStoredLoop exact first parts r).trigger
      (combineStoredLoop exact first parts r).parts exact (before ++ parts) := by
  induction parts generalizing first r before with
  | nil => rwa [List.append_nil]
  | cons itor parts ih =>
      have hopening := extends_writeOpening exact first itor r.trigger
      have hpart := Area.extends_append (writeOpening exact first itor r.trigger) itor.1
      have hclosing := extends_writeClosing exact itor ((writeOpening exact first itor r.trigger).append itor.1)
      have hrest := extends_combineStringLoop exact false parts
        (writeClosing exact itor ((writeOpening exact first itor r.trigger).append itor.1))
      rw [combineStoredLoop_trigger, combineStringLoop] at hfit
      have hfit₁ := hopening.fits ((hpart.trans hclosing).trans hrest) hfit
      have hfit₂ := hpart.fits (hclosing.trans hrest) hfit₁
      have hread := hclosing.read (hrest.text.length_le.trans hfit₂)
          (Area.read_append ((hclosing.trans hrest).text.length_le.trans hfit₁))
      have hold : Views (writeClosing exact itor
          ((writeOpening exact first itor r.trigger).append itor.1)) r.parts exact before :=
        h.mono ((hopening.trans hpart).trans hclosing) (hrest.text.length_le.trans hfit)
      have hsplit : before ++ itor :: parts = before ++ [itor] ++ parts := List.append_cons _ _ _
      rw [combineStoredLoop, hsplit]
      refine ih ?_ ?_
      · unfold Views at hold ⊢
        rw [List.map_append, List.map_append, hold, List.map_singleton, List.map_singleton, StoredPart.view, hread]
        rfl
      · rw [combineStoredLoop_trigger]
        exact hclosing.fits hrest hfit₂

theorem mapM_eq_some {α β : Type} {f : α → Option β} {l : List α} {l' : List β}
    (h : l.map f = l'.map some) : l.mapM f = some l' := by
  induction l generalizing l' with
  | nil =>
      rw [List.map_eq_nil_iff.mp h.symm]
      rfl
  | cons x l ih =>
      cases l' with
      | nil => cases h
      | cons y l' =>
          obtain ⟨hx, hl⟩ := List.cons.inj h
          rw [List.mapM_cons, hx, ih hl]
          rfl

theorem extends_combineString (split : Split) (a : Area UInt8) : a.Extends (combineString split a) := by
  unfold combineString
  cases split.exact with
  | true =>
      exact ((Area.extends_append a [left]).trans
        (extends_combineStringLoop true true split.parts _)).trans (Area.extends_append _ _)
  | false => exact extends_combineStringLoop false true split.parts a

theorem lengths_combineString (split : Split) (ha : a.text = []) (hlengths : a.lengths = []) :
    ∀ n ∈ (combineString split a).lengths, n ≤ (combine split).length := by
  intro n hn
  rw [← combineString_text split ha]
  refine ((extends_combineString split a).lengths n hn).resolve_left fun h => ?_
  rw [hlengths] at h
  cases h

theorem views_combineStored {split : Split} (hparts : r.parts = [])
    (hfit : (combineStored split r).trigger.text.length ≤ r.trigger.capacity) :
    Views (combineStored split r).trigger (combineStored split r).parts split.exact split.parts := by
  unfold combineStored at hfit ⊢
  cases hexact : split.exact with
  | false =>
      rw [hexact] at hfit
      have hstart : Views r.trigger r.parts false [] := by rw [hparts]; rfl
      exact views_combineStoredLoop hstart hfit
  | true =>
      rw [hexact] at hfit
      have hleft := Area.extends_append r.trigger [left]
      have hloop := extends_combineStringLoop true true split.parts (r.trigger.append [left])
      have hright := Area.extends_append (combineStringLoop true true split.parts (r.trigger.append [left])) [right]
      have hloop_eq := combineStoredLoop_trigger true true split.parts ⟨r.trigger.append [left], r.exact, r.parts⟩
      simp only [if_true] at hfit ⊢
      rw [hloop_eq] at hfit
      have hfit₁ := hleft.fits (hloop.trans hright) hfit
      have hstart : Views (r.trigger.append [left]) r.parts true [] := by rw [hparts]; rfl
      have hviews := @views_combineStoredLoop true true split.parts ⟨r.trigger.append [left], r.exact, r.parts⟩ [] hstart
        (by rw [hloop_eq]; exact hright.text.length_le.trans hfit₁)
      rw [hloop_eq] at hviews ⊢
      exact hviews.mono hright (hloop.fits hright hfit₁)

theorem view_combineStored {split : Split} (htext : r.trigger.text = [])
    (hexact : r.exact = split.exact) (hparts : r.parts = [])
    (hfit : (combine split).length ≤ r.trigger.capacity) : (combineStored split r).view = some (combineTrigger split) := by
  have hwritten : (combineStored split r).trigger.text = combine split := by
    rw [combineStored_trigger, combineString_text split htext]
  have hsame : (combineStored split r).exact = split.exact := by
    rw [← hexact]
    unfold combineStored
    cases split.exact <;> exact combineStoredLoop_exact _ _ _ _
  have hviews := views_combineStored hparts (hwritten ▸ hfit)
  unfold Views at hviews
  have hread : (combineStored split r).parts.map (StoredPart.view (combineStored split r).trigger) =
      (combineTrigger split).parts.map some := by
    rw [hviews, combineTrigger, List.map_map]
    rfl
  rw [StoredTrigger.view, mapM_eq_some hread, hwritten, hsame]
  rfl

end UnixCommons.Language.NormalizeTrigger
