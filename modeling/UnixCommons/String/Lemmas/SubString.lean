import UnixCommons.String.SubString
import UnixCommons.Lib.Spec
import Mathlib.Data.List.TakeWhile
import Mathlib.Data.List.GetD

/-! # 部分文字列の検索の補題 -/

namespace UnixCommons.String.SubString

open Lib UTF8Handler

variable {s t : Bytes} {ch : UInt8} {x pos length fuel : Nat} {test : Nat → Except Fault Bool} {p : Nat → Bool}

theorem forwardLoop_eq (h : ∀ x < length, test x = .ok (p x)) (hfuel : length < pos + fuel) :
    forwardLoop test length fuel pos = .ok ((lowest (fun x => pos ≤ x ∧ p x) length).getD npos) := by
  have hnone : ∀ k, length ≤ k → lowest (fun x => k ≤ x ∧ p x) length = none := by
    intro k hk
    rw [lowest_eq_none_iff]
    intro y hy
    simp only [decide_eq_false_iff_not, not_and]
    omega
  induction fuel generalizing pos with
  | zero =>
      rw [hnone pos (by omega)]
      rfl
  | succ fuel ih =>
      rw [forwardLoop]
      by_cases hlt : pos < length
      · rw [if_pos hlt, h pos hlt, ok_bind]
        by_cases hp : p pos = true
        · have hfound : lowest (fun x => pos ≤ x ∧ p x) length = some pos := by
            rw [lowest_eq_some_iff]
            refine ⟨by simp [hp], hlt, fun y hy => ?_⟩
            simp only [decide_eq_false_iff_not, not_and]
            omega
          rw [if_pos hp, hfound]
          rfl
        · have hnext : lowest (fun x => pos + 1 ≤ x ∧ p x) length = lowest (fun x => pos ≤ x ∧ p x) length := by
            refine lowest_congr fun y _ => decide_eq_decide.mpr ?_
            constructor
            · exact fun hy => ⟨by omega, hy.2⟩
            · rintro ⟨hle, hy⟩
              have hne : pos ≠ y := by
                rintro rfl
                exact hp hy
              exact ⟨by omega, hy⟩
          rw [if_neg hp, ih (by omega), hnext]
      · rw [if_neg hlt, hnone pos (by omega)]
        rfl

theorem backwardLoop_eq (h : ∀ x ≤ pos, test x = .ok (p x)) : backwardLoop test pos = .ok
    ((highest p (pos + 1)).getD npos) := by
  induction pos with
  | zero =>
      rw [backwardLoop, h 0 le_rfl, ok_bind, highest]
      by_cases hp : p 0 = true
      · rw [if_pos hp, if_pos hp]
        rfl
      · rw [if_neg hp, if_neg hp]
        rfl
  | succ pos ih =>
      rw [backwardLoop, h (pos + 1) le_rfl, ok_bind, highest]
      by_cases hp : p (pos + 1) = true
      · rw [if_pos hp, if_pos hp]
        rfl
      · rw [if_neg hp, if_neg hp]
        exact ih fun x hx => h x (by omega)

/-! ## 文字の操作 -/

theorem charAt_eq (h : x < s.length) : charAt s x = .ok (s.getD x 0) := if_pos h

theorem traitsFind_isSome (t : Bytes) (ch : UInt8) :
    ∃ r, traitsFind t 0 t.length ch = .ok r ∧ r.isSome = t.contains ch := by
  refine ⟨_, if_pos (by omega), ?_⟩
  rw [Nat.zero_add, Bool.eq_iff_iff, Option.isSome_iff_ne_none, Ne, lowest_eq_none_iff]
  simp only [Nat.zero_le, true_and, decide_eq_false_iff_not, not_forall, not_not, List.contains_iff_mem, exists_prop]
  constructor
  · rintro ⟨y, hy, rfl⟩
    rw [List.getD_eq_getElem _ _ hy]
    exact List.getElem_mem hy
  · intro hmem
    obtain ⟨y, hy, heq⟩ := List.getElem_of_mem hmem
    exact ⟨y, hy, by rw [List.getD_eq_getElem _ _ hy, heq]⟩

theorem isOneOf_eq (h : x < s.length) : isOneOf s t x = .ok (charIn s t x) := by
  obtain ⟨r, hr, hsome⟩ := traitsFind_isSome t (s.getD x 0)
  rw [isOneOf, charAt_eq h, ok_bind, hr, ok_bind, hsome]
  rfl

theorem isNotOneOf_eq (h : x < s.length) : isNotOneOf s t x = .ok (!charIn s t x) := by
  rw [isNotOneOf, isOneOf_eq h, ok_bind]
  rfl

theorem charIn_singleton (s : Bytes) (ch : UInt8) (x : Nat) : charIn s [ch] x = decide (s.getD x 0 = ch) := by simp [charIn]

/-! ## 前へ進む検索 -/

theorem findFirstOf_eq (s t : Bytes) (pos : Nat) : findFirstOf s t pos = .ok (stdValue .findFirstOf s t pos) :=
  forwardLoop_eq (fun _ hx => isOneOf_eq hx) (by omega)

theorem findFirstNotOf_eq (s t : Bytes) (pos : Nat) : findFirstNotOf s t pos = .ok (stdValue .findFirstNotOf s t pos) := by
  rw [findFirstNotOf, forwardLoop_eq (fun _ hx => isNotOneOf_eq hx) (by omega)]
  simp [stdValue]

theorem findFirstNotOfChar_eq (s : Bytes) (ch : UInt8) (pos : Nat) :
    findFirstNotOfChar s ch pos = .ok (stdValue .findFirstNotOf s [ch] pos) := by
  have htest : ∀ x < s.length, (do return (← charAt s x) ≠ ch : Except Fault Bool) = .ok (!charIn s [ch] x) := by
    intro x hx
    rw [charAt_eq hx, ok_bind, charIn_singleton, ← decide_not]
    rfl
  rw [findFirstNotOfChar, forwardLoop_eq htest (by omega)]
  simp [stdValue]

theorem findChar_eq (s : Bytes) (ch : UInt8) (pos : Nat) : findChar s ch pos = .ok (stdValue .findFirstOf s [ch] pos) := by
  have hvalue : stdValue .findFirstOf s [ch] pos = (lowest (fun x => pos ≤ x ∧ s.getD x 0 = ch) s.length).getD npos := by
    simp only [stdValue, charIn_singleton, decide_eq_true_eq]
  rw [hvalue, findChar]
  by_cases hlt : pos < s.length
  · rw [if_pos hlt, traitsFind, if_pos (by omega), Nat.add_sub_cancel' hlt.le]
    dsimp only [pure, Except.pure]
    rw [ok_bind]
    cases lowest (fun x => pos ≤ x ∧ s.getD x 0 = ch) s.length <;> rfl
  · have hnone : lowest (fun x => pos ≤ x ∧ s.getD x 0 = ch) s.length = none := by
      rw [lowest_eq_none_iff]
      intro y hy
      simp only [decide_eq_false_iff_not, not_and]
      omega
    rw [if_neg hlt, hnone]
    rfl

/-! ## 一文字の文字列 -/

theorem occursAt_singleton (s : Bytes) (ch : UInt8) (x : Nat) : occursAt s [ch] x = decide
    (x < s.length ∧ charIn s [ch] x) := by
  rw [charIn_singleton, occursAt]
  refine decide_eq_decide.mpr ?_
  rw [List.length_singleton, decide_eq_true_eq]
  refine and_congr_right fun hlt => ?_
  rw [List.getD_eq_getElem _ _ hlt, List.drop_eq_getElem_cons hlt, List.take_succ_cons, List.take_zero, List.cons_eq_cons]
  exact and_iff_left rfl

theorem stdValue_find_singleton (s : Bytes) (ch : UInt8) (pos : Nat) : stdValue .find s
    [ch] pos = stdValue .findFirstOf s [ch] pos := by
  simp only [stdValue]
  rw [lowest_of_le (Nat.le_succ s.length)]
  · congr 1
    refine lowest_congr fun y hy => decide_eq_decide.mpr ?_
    rw [occursAt_singleton, decide_eq_true_eq, and_iff_right hy]
  · intro y hle hlt
    rw [occursAt_singleton, decide_eq_false_iff_not, decide_eq_true_eq]
    omega

theorem stdValue_rfind_singleton (s : Bytes) (ch : UInt8) (pos : Nat) : stdValue .rfind s
    [ch] pos = stdValue .findLastOf s [ch] pos := by
  simp only [stdValue]
  rw [highest_of_le (Nat.le_succ s.length)]
  · congr 1
    refine highest_congr fun y hy => decide_eq_decide.mpr ?_
    rw [occursAt_singleton, decide_eq_true_eq, and_iff_right hy]
  · intro y hle hlt
    rw [occursAt_singleton, decide_eq_false_iff_not, decide_eq_true_eq]
    omega

/-! ## 後ろへ戻る検索 -/

theorem highest_clamp (hlen : length ≠ 0) (p : Nat → Bool) :
    highest (fun x => x ≤ pos ∧ p x) length = highest p (min (length - 1) pos + 1) := by
  rw [highest_of_le (by omega : min (length - 1) pos + 1 ≤ length)]
  · refine highest_congr fun y hy => ?_
    have hle : y ≤ pos := by omega
    simp [hle]
  · intro y hle hlt
    simp only [decide_eq_false_iff_not, not_and]
    omega

theorem rfindChar_eq (s : Bytes) (ch : UInt8) (pos : Nat) : rfindChar s ch pos = .ok (stdValue .findLastOf s [ch] pos) := by
  rw [rfindChar]
  by_cases hlen : s.length = 0
  · rw [if_neg (by simpa using hlen), List.length_eq_zero_iff.mp hlen]
    rfl
  · have htest : ∀ x ≤ min (s.length - 1) pos, (do return (← charAt s x) = ch : Except Fault Bool) =
        .ok (charIn s [ch] x) := by
      intro x hx
      rw [charAt_eq (by omega), ok_bind, charIn_singleton]
      rfl
    rw [if_pos hlen, backwardLoop_eq htest, stdValue, highest_clamp hlen]

theorem findLast_eq (htest : ∀ x < s.length, test x = .ok (p x)) (h : t ≠ [] ∨ s = []) :
    findLast test s t pos = .ok ((highest (fun x => x ≤ pos ∧ p x) s.length).getD npos) := by
  rw [findLast]
  by_cases hlen : s.length = 0
  · rw [if_neg (by simp [hlen]), List.length_eq_zero_iff.mp hlen]
    rfl
  · have ht : t.length ≠ 0 := by
      intro ht
      exact h.elim (fun hne => hne (List.length_eq_zero_iff.mp ht)) (fun hs => hlen (by rw [hs]; rfl))
    have hpos : (if pos ≥ s.length then s.length - 1 else pos) = min (s.length - 1) pos := by
      split_ifs <;> omega
    rw [if_pos ⟨hlen, ht⟩, hpos, backwardLoop_eq fun x hx => htest x (by omega), highest_clamp hlen]

theorem findLastOf_eq (s t : Bytes) (pos : Nat) : findLastOf s t pos = .ok (stdValue .findLastOf s t pos) := by
  by_cases ht : t = []
  · have hnone : highest (fun x => x ≤ pos ∧ charIn s [] x) s.length = none := by
      rw [highest_eq_none_iff]
      intro y _
      simp [charIn]
    rw [ht, stdValue, hnone, findLastOf, findLast, if_neg (by simp)]
    rfl
  · exact findLast_eq (fun _ hx => isOneOf_eq hx) (.inl ht)

theorem findLastNotOf_eq (h : t ≠ [] ∨ s = []) : findLastNotOf s t pos = .ok (stdValue .findLastNotOf s t pos) := by
  rw [findLastNotOf, findLast_eq (fun _ hx => isNotOneOf_eq hx) h]
  simp [stdValue]

/-! ## `rfind` -/

theorem occursAt_of_le (h : x + t.length ≤ s.length) : occursAt s t x = decide
    ((s.drop x).take t.length = t) := by simp [occursAt, h]

theorem occursAt_of_gt (h : s.length < x + t.length) : occursAt s t x = false := by
  rw [occursAt, decide_eq_false_iff_not]
  omega

theorem rfind_eq (s t : Bytes) (pos : Nat) : rfind s t pos = .ok (stdValue .rfind s t pos) := by
  rw [rfind, stdValue]
  by_cases hlong : t.length > s.length
  · have hnone : highest (fun x => x ≤ pos ∧ occursAt s t x) (s.length + 1) = none := by
      rw [highest_eq_none_iff]
      intro y _
      simp [occursAt_of_gt (by omega : s.length < y + t.length)]
    rw [if_pos hlong, hnone]
    rfl
  rw [if_neg hlong]
  dsimp only
  by_cases ht : t.length = 0
  · have hmin : (if pos > s.length then s.length else pos) = min pos s.length := by
      split_ifs <;> omega
    have hfound : highest (fun x => x ≤ pos ∧ occursAt s t x) (s.length + 1) = some (min pos s.length) := by
      rw [highest_eq_some_iff]
      refine ⟨?_, by omega, fun y h₁ h₂ => ?_⟩
      · rw [occursAt_of_le (by omega), List.length_eq_zero_iff.mp ht]
        simp
      · simp only [decide_eq_false_iff_not, not_and]
        omega
    rw [if_pos ht, hmin, hfound]
    rfl
  · have hmin : (if (if pos > s.length then s.length else pos) > s.length - t.length then s.length - t.length
        else if pos > s.length then s.length else pos) = min pos (s.length - t.length) := by
      split_ifs <;> omega
    have htest : ∀ x ≤ min pos (s.length - t.length), traitsEqual s x t = .ok (occursAt s t x) := by
      intro x hx
      rw [traitsEqual, if_pos (by omega), occursAt_of_le (by omega)]
      rfl
    rw [if_neg ht, hmin, backwardLoop_eq htest, highest_of_le (by omega : min pos (s.length - t.length) + 1 ≤ s.length + 1)]
    · congr 2
      refine highest_congr fun y hy => ?_
      have hle : y ≤ pos := by omega
      simp [hle]
    · intro y hle hlt
      by_cases hy : y ≤ pos
      · simp [occursAt_of_gt (by omega : s.length < y + t.length)]
      · simp [hy]

/-! ## `find` -/

theorem stdValue_find_nil (s : Bytes) (pos : Nat) : stdValue .find s [] pos = if pos ≤ s.length then pos else npos := by
  have hoccurs : ∀ x, occursAt s [] x = decide (x ≤ s.length) := by simp [occursAt]
  rw [stdValue]
  split_ifs with hle
  · have hfound : lowest (fun x => pos ≤ x ∧ occursAt s [] x) (s.length + 1) = some pos := by
      rw [lowest_eq_some_iff]
      refine ⟨by simp [hoccurs, hle], by omega, fun y hy => ?_⟩
      simp only [decide_eq_false_iff_not, not_and]
      omega
    rw [hfound]
    rfl
  · have hnone : lowest (fun x => pos ≤ x ∧ occursAt s [] x) (s.length + 1) = none := by
      rw [lowest_eq_none_iff]
      intro y hy
      simp only [decide_eq_false_iff_not, not_and]
      omega
    rw [hnone]
    rfl

theorem stdValue_find_short (h : s.length < pos + t.length) : stdValue .find s t pos = npos := by
  have hnone : lowest (fun x => pos ≤ x ∧ occursAt s t x) (s.length + 1) = none := by
    rw [lowest_eq_none_iff]
    intro y _
    by_cases hy : pos ≤ y
    · simp [occursAt_of_gt (by omega : s.length < y + t.length)]
    · simp [hy]
  rw [stdValue, hnone]
  rfl

theorem stdSearch_eq (ht : t ≠ []) (hpos : pos ≤ s.length) :
    stdSearch s pos t = .ok ((lowest (fun x => pos ≤ x ∧ occursAt s t x) (s.length + 1)).getD s.length) := by
  have hlen := List.length_pos_of_ne_nil ht
  rw [stdSearch, if_pos hpos, lowest_of_le (Nat.le_succ s.length)]
  · congr 2
    refine lowest_congr fun y hy => decide_eq_decide.mpr (and_congr_right fun _ => ?_)
    by_cases hle : y + t.length ≤ s.length
    · rw [occursAt_of_le hle, decide_eq_true_eq]
    · rw [occursAt_of_gt (by omega)]
      refine ⟨fun heq => ?_, fun h => by cases h⟩
      have := congrArg List.length heq
      rw [List.length_take, List.length_drop] at this
      omega
  · intro y hle hlt
    simp [occursAt_of_gt (by omega : s.length < y + t.length)]

theorem getAvailableLength_of_le (hs : s.length < 2 ^ 63) (h : pos ≤ s.length) :
    getAvailableLength s.length pos s.length = s.length - pos := by
  unfold getAvailableLength
  omega

theorem getAvailableLength_of_gt (hs : s.length < 2 ^ 63) (hpos : pos < 2 ^ 64)
    (h : s.length < pos) : getAvailableLength s.length pos s.length = s.length := by
  unfold getAvailableLength
  omega

theorem find_nil_iff (hs : s.length < 2 ^ 63) : find s [] pos = .ok (stdValue .find s [] pos) ↔
    s.length < pos ∨ (pos = 0 ∧ s ≠ []) := by
  have hne : s ≠ [] ↔ 0 < s.length := List.length_pos_iff.symm
  rw [stdValue_find_nil, find, if_pos List.length_nil, hne]
  unfold npos
  by_cases hge : pos ≥ s.length
  · rw [if_pos hge]
    split_ifs with hle
    · simp only [pure, Except.pure, Except.ok.injEq]
      omega
    · simp only [pure, Except.pure, true_iff]
      omega
  · rw [if_neg hge, if_pos (by omega)]
    simp only [pure, Except.pure, Except.ok.injEq]
    omega

theorem find_iff (hs : s.length < 2 ^ 63) (hpos : pos < 2 ^ 64) : find s t pos = .ok
    (stdValue .find s t pos) ↔ FindAgrees s t pos := by
  unfold FindAgrees
  split_ifs with ht
  · subst ht
    exact find_nil_iff hs
  have hlen := List.length_pos_of_ne_nil ht
  rw [find, if_neg (by omega)]
  dsimp only
  by_cases hle : pos ≤ s.length
  · rw [getAvailableLength_of_le hs hle]
    refine iff_of_true ?_ (.inl hle)
    by_cases hshort : t.length > s.length - pos
    · rw [if_pos hshort, stdValue_find_short (by omega)]
      rfl
    · rw [if_neg hshort, stdSearch_eq ht hle, ok_bind, stdValue]
      cases hfound : lowest (fun x => pos ≤ x ∧ occursAt s t x) (s.length + 1) with
      | none =>
          rw [Option.getD_none, if_neg (by simp)]
          rfl
      | some x =>
          obtain ⟨hx, -, -⟩ := lowest_eq_some_iff.mp hfound
          have hne : x ≠ s.length := by
            rintro rfl
            rw [occursAt_of_gt (by omega)] at hx
            simp at hx
          rw [Option.getD_some, if_pos hne]
          rfl
  · rw [getAvailableLength_of_gt hs hpos (by omega)]
    by_cases hshort : t.length > s.length
    · rw [if_pos hshort, stdValue_find_short (by omega)]
      exact iff_of_true rfl (.inr hshort)
    · rw [if_neg hshort, stdSearch, if_neg hle]
      refine iff_of_false (fun h => ?_) (by omega)
      cases h

/-! ## 文字列を受ける版 -/

theorem findLastNotOf_iff (hs : s.length < 2 ^ 63) :
    findLastNotOf s t pos = .ok (stdValue .findLastNotOf s t pos) ↔ t ≠ [] ∨ s = [] := by
  refine ⟨fun hrun => ?_, findLastNotOf_eq⟩
  by_contra hnot
  obtain ⟨ht, hne⟩ := not_or.mp hnot
  have hlen := List.length_pos_of_ne_nil hne
  have hfound : highest (fun x => x ≤ pos ∧ ¬ charIn s [] x) s.length = some (min (s.length - 1) pos) := by
    rw [highest_eq_some_iff]
    refine ⟨by simp [charIn], by omega, fun y h₁ h₂ => ?_⟩
    simp only [decide_eq_false_iff_not, not_and]
    omega
  rw [not_not.mp ht, stdValue, hfound, findLastNotOf, findLast, if_neg (by simp)] at hrun
  simp only [pure, Except.pure, Except.ok.injEq, Option.getD_some] at hrun
  unfold npos at hrun
  omega

theorem search_iff (f : Function) (hs : s.length < 2 ^ 63) (hpos : pos < 2 ^ 64) :
    search f s t pos = .ok (stdValue f s t pos) ↔ SearchAgrees f s t pos := by
  cases f with
  | find => exact find_iff hs hpos
  | rfind => exact iff_of_true (rfind_eq s t pos) trivial
  | findFirstOf => exact iff_of_true (findFirstOf_eq s t pos) trivial
  | findFirstNotOf => exact iff_of_true (findFirstNotOf_eq s t pos) trivial
  | findLastOf => exact iff_of_true (findLastOf_eq s t pos) trivial
  | findLastNotOf => exact findLastNotOf_iff hs

theorem searchChar_eq (f : Function) (hf : f ≠ .findLastNotOf) : searchChar f s ch pos = .ok (stdValue f s [ch] pos) := by
  cases f with
  | find => rw [stdValue_find_singleton]; exact findChar_eq s ch pos
  | rfind => rw [stdValue_rfind_singleton]; exact rfindChar_eq s ch pos
  | findFirstOf => exact findChar_eq s ch pos
  | findFirstNotOf => exact findFirstNotOfChar_eq s ch pos
  | findLastOf => exact rfindChar_eq s ch pos
  | findLastNotOf => exact absurd rfl hf

/-! ## ポインタ -/

theorem ofPointer_eq (h : 0 ∈ t) : ofPointer t = .ok (t.takeWhile (· ≠ 0)) := by
  rw [ofPointer, traitsLength, if_pos h]
  dsimp only [pure, Except.pure]
  rw [ok_bind]
  exact congrArg Except.ok (List.prefix_iff_eq_take.mp (List.takeWhile_prefix _)).symm

theorem ofPointer_error (h : 0 ∉ t) : ofPointer t = .error .outside := by
  rw [ofPointer, traitsLength, if_neg h]
  rfl

theorem ofPointer_cstring (t : CString) : ofPointer (t.bytes ++ [0]) = .ok t.bytes := by
  have hall : ∀ b ∈ t.bytes, decide (b ≠ 0) = true := by
    intro b hb
    refine decide_eq_true ?_
    rintro rfl
    exact t.nonzero hb
  rw [ofPointer_eq (by simp), List.takeWhile_append_of_pos hall]
  simp

/-! ## 比較 -/

theorem orderSign_cons (a b : UInt8) (s t : Bytes) :
    orderSign (a :: s) (b :: t) = if a ≠ b then if a < b then -1 else 1 else orderSign s t := by
  unfold orderSign
  simp only [List.cons_lt_cons_iff, List.cons.injEq]
  by_cases hab : a = b
  · subst hab
    simp
  · simp [hab]

theorem compare_cons (a b : UInt8) (s t : Bytes) :
    compare (a :: s) (b :: t) = if a ≠ b then .ok (if a < b then -1 else 1) else compare s t := by
  have hmin : min (a :: s).length (b :: t).length = min s.length t.length + 1 := by simp
  rw [compare, hmin]
  simp only [traitsCompare, readChar, pure_bind]
  by_cases hab : a = b
  · simp [hab, compare]
  · by_cases hlt : a < b
    · simp [hab, hlt]
      rfl
    · simp [hab, hlt]
      rfl

theorem compare_eq (s t : Bytes) : compare s t = .ok (orderSign s t) := by
  induction s generalizing t with
  | nil => cases t <;> rfl
  | cons a s ih =>
      cases t with
      | nil => rfl
      | cons b t =>
          rw [compare_cons, orderSign_cons, ih]
          by_cases hab : a = b <;> simp [hab]

theorem orderSign_swap (s t : Bytes) : orderSign t s = -orderSign s t := by
  induction s generalizing t with
  | nil => cases t <;> rfl
  | cons a s ih =>
      cases t with
      | nil => rfl
      | cons b t =>
          rw [orderSign_cons, orderSign_cons, ih]
          by_cases hab : a = b
          · simp [hab]
          · have hba : b ≠ a := fun h => hab h.symm
            by_cases hlt : a < b
            · simp [hab, hba, hlt, UInt8.lt_asymm hlt]
            · simp [hab, hba, hlt, UInt8.lt_of_le_of_ne (UInt8.not_lt.mp hlt) hba]

theorem orderSign_prefix (h : t <+: s) (hne : t ≠ s) : orderSign s t = 1 := by
  obtain ⟨r, rfl⟩ := h
  induction t with
  | nil =>
      cases r with
      | nil => exact absurd rfl hne
      | cons => rfl
  | cons b t ih =>
      rw [List.cons_append, orderSign_cons, if_neg (not_not_intro rfl)]
      exact ih fun h => hne (congrArg (b :: ·) h)

theorem comparePointer_eq (s p : Bytes) (hp : 0 ∉ p) :
    comparePointer s (p ++ [0]) = .ok (if p <+: s ∧ p ≠ s then -1 else orderSign s p) := by
  induction s generalizing p with
  | nil =>
      cases p with
      | nil => rfl
      | cons b p =>
          have hb : b ≠ 0 := fun h => hp (by simp [h])
          simp [comparePointer, readChar, hb, orderSign]
          rfl
  | cons a s ih =>
      cases p with
      | nil =>
          simp [comparePointer, readChar]
          rfl
      | cons b p =>
          have hb : b ≠ 0 := fun h => hp (by simp [h])
          have htail := ih p fun h => hp (List.mem_cons_of_mem b h)
          rw [List.cons_append, comparePointer, readChar]
          simp only [pure_bind, if_neg hb, htail, orderSign_cons]
          by_cases hab : a = b
          · subst hab
            simp
          · have hba : b ≠ a := fun h => hab h.symm
            simp [hab, hba]
            rfl

end UnixCommons.String.SubString
