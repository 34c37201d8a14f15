import UnixCommons.Language.NormalizeTrigger
import UnixCommons.Lib.Prune
import UnixCommons.String.Lemmas.SubString

/-! # 句の補題 -/

namespace UnixCommons.Language.NormalizeTrigger

open Lib Prune String.SubString

variable {a b c small big : Bytes} {x : Part} {l : List Part} {n : Nat}

/-! ## 語 -/

theorem words_append (a b : Bytes) : words (a ++ space :: b) = words a ++ words b := List.splitOn_append_cons_self a b

theorem words_injective (h : words a = words b) : a = b := by
  have hjoin := congrArg (List.intercalate [space]) h
  rwa [words, words, List.intercalate_splitOn, List.intercalate_splitOn] at hjoin

theorem words_ne_nil (a : Bytes) : words a ≠ [] := List.splitOn_ne_nil space a

theorem sum_words (a : Bytes) : ((words a).map fun w => w.length + 1).sum = a.length + 1 := by
  induction a with
  | nil => rfl
  | cons c a ih =>
      rw [words, List.splitOn_cons_eq_if_modifyHead, ← words]
      split_ifs
      · rw [List.map_cons, List.sum_cons, ih, List.length_cons, List.length_nil]
        omega
      · cases hw : words a with
        | nil => exact absurd hw (words_ne_nil a)
        | cons w ws =>
            rw [hw, List.map_cons, List.sum_cons] at ih
            rw [List.modifyHead_cons, List.map_cons, List.sum_cons, List.length_cons, List.length_cons]
            omega

/-! ## 半順序 -/

theorem Phrase.refl (a : Bytes) : Phrase a a := List.infix_refl _

theorem Phrase.trans (hab : Phrase a b) (hbc : Phrase b c) : Phrase a c := List.IsInfix.trans hab hbc

theorem Phrase.eq_or_lt (h : Phrase a b) : a = b ∨ a.length < b.length := by
  obtain ⟨u, v, heq⟩ := h
  have hsum := sum_words b
  rw [← heq, List.map_append, List.map_append, List.sum_append, List.sum_append, sum_words] at hsum
  cases u with
  | nil =>
      cases v with
      | nil => exact .inl (words_injective (by simpa using heq))
      | cons w v =>
          rw [List.map_nil, List.sum_nil, List.map_cons, List.sum_cons] at hsum
          exact .inr (by omega)
  | cons w u =>
      rw [List.map_cons, List.sum_cons] at hsum
      exact .inr (by omega)

theorem Phrase.antisymm (hab : Phrase a b) (hba : Phrase b a) : a = b := by
  rcases hab.eq_or_lt with rfl | hlt
  · rfl
  · rcases hba.eq_or_lt with rfl | hlt'
    · rfl
    · omega

theorem phrase_of_bounds {pre post : Bytes} (hpre : pre = [] ∨ ∃ p, pre = p ++ [space])
    (hpost : post = [] ∨ ∃ q, post = space :: q) : Phrase a (pre ++ a ++ post) := by
  have hleft : words (pre ++ a) = (if pre = [] then [] else words pre.dropLast) ++ words a := by
    rcases hpre with rfl | ⟨p, rfl⟩
    · rfl
    · rw [if_neg (by simp), List.dropLast_concat, List.append_assoc]
      exact words_append p a
  rcases hpost with rfl | ⟨q, rfl⟩
  · rw [List.append_nil, Phrase, hleft]
    exact (List.suffix_append _ _).isInfix
  · rw [Phrase, words_append, hleft]
    exact List.infix_append _ _ _

theorem exists_pos_of_isSubstr (h : isSubstr small big = true) :
    ∃ pos, occursAt big small pos = true ∧ (pos = 0 ∨ big.getD (pos - 1) 0 = space) ∧
      (pos + small.length = big.length ∨ big.getD (pos + small.length) 0 = space) := by
  rw [isSubstr] at h
  cases hpos : lowest (occursAt big small) (big.length + 1) with
  | none =>
      rw [hpos] at h
      cases h
  | some pos =>
      rw [hpos] at h
      refine ⟨pos, (lowest_eq_some_iff.mp hpos).1, ?_⟩
      by_cases hleft : pos ≠ 0 ∧ big.getD (pos - 1) 0 ≠ space
      · simp only [if_pos hleft] at h
        cases h
      · simp only [if_neg hleft, decide_eq_true_eq] at h
        exact ⟨by tauto, by tauto⟩

theorem isSubstr_phrase (h : isSubstr small big = true) : Phrase small big := by
  obtain ⟨pos, hocc, hleft, hright⟩ := exists_pos_of_isSubstr h
  obtain ⟨hle, htake⟩ : pos + small.length ≤ big.length ∧ (big.drop pos).take small.length =
    small := by simpa [occursAt] using hocc
  have hsplit : big = big.take pos ++ small ++ big.drop (pos + small.length) := by
    conv_lhs => rw [← List.take_append_drop pos big, ← List.take_append_drop small.length (big.drop pos)]
    rw [htake, List.drop_drop, List.append_assoc]
  rw [hsplit]
  refine phrase_of_bounds ?_ ?_
  · rcases Nat.eq_zero_or_pos pos with rfl | hpos
    · exact .inl rfl
    · refine .inr ⟨big.take (pos - 1), ?_⟩
      have hspace := hleft.resolve_left (by omega)
      rw [List.getD_eq_getElem _ _ (by omega)] at hspace
      rw [← hspace, List.take_append_getElem, Nat.sub_add_cancel hpos]
  · rcases Nat.lt_or_ge (pos + small.length) big.length with hlt | hge
    · have hspace := hright.resolve_left (by omega)
      rw [List.getD_eq_getElem _ _ hlt] at hspace
      exact .inr ⟨_, by rw [List.drop_eq_getElem_cons hlt, hspace]⟩
    · exact .inl (List.drop_eq_nil_of_le hge)

/-! ## `narrow` -/

def below (a b : Bytes) : Bool := a.length < b.length && isSubstr a b

theorem below_iff : below a b = true ↔ a ≠ b ∧ isSubstr a b = true := by
  rw [below, Bool.and_eq_true, decide_eq_true_eq]
  refine and_congr_left fun hsub => ⟨fun hlt heq => ?_, fun hne => ?_⟩
  · rw [heq] at hlt
    exact lt_irrefl _ hlt
  · exact (isSubstr_phrase hsub).eq_or_lt.resolve_left hne

theorem below_phrase (h : below a b = true) : Phrase a b := isSubstr_phrase (below_iff.mp h).2

theorem below_irrefl (a : Bytes) : below a a = false := eq_false_of_ne_true fun h => (below_iff.mp h).1 rfl

theorem below_of_length (h : b.length ≤ a.length) : below a b = false := by simp [below, h]

theorem below_eq_isSubstr (h : a.length < b.length) : below a b = isSubstr a b := by simp [below, h]

theorem narrowOne_eq (x : Part) (l : List Part) : narrowOne x l = scan below x l := by
  induction l generalizing x with
  | nil => rfl
  | cons y l ih =>
      rw [narrowOne, scan, ih, ih]
      rcases Nat.lt_trichotomy x.1.length y.1.length with hlt | heq | hgt
      · have hne : y.1 ≠ x.1 := fun h => by simp [h] at hlt
        rw [if_neg (by omega), if_neg (by omega), if_neg hne, below_of_length hlt.le, below_eq_isSubstr hlt]
        simp
      · by_cases hsame : x.1 = y.1
        · rw [if_pos heq, if_pos hsame, if_pos hsame.symm]
          cases hy : y.2 <;> simp
        · rw [if_pos heq, if_neg hsame, if_neg (Ne.symm hsame), below_of_length heq.le, below_of_length heq.ge]
          simp
      · have hne : y.1 ≠ x.1 := fun h => by simp [h] at hgt
        rw [if_neg (by omega), if_pos hgt, if_neg hne, below_of_length hgt.le, below_eq_isSubstr hgt]
        simp

theorem narrowLoop_eq (n : Nat) (l : List Part) : narrowLoop n l = prune below n l := by
  induction n generalizing l with
  | zero => rfl
  | succ n ih =>
      cases l with
      | nil => rfl
      | cons x l =>
          rw [narrowLoop, prune, narrowOne_eq]
          rcases scan below x l with ⟨_ | _, y, l'⟩
          · exact congrArg (y :: ·) (ih l')
          · exact ih l'

theorem narrow_perm (l : List Part) : (narrow l).Perm (prune below l.length l) := by
  rw [narrow, narrowLoop_eq]
  exact List.perm_insertionSort _ _

/-! ## 順序 -/

theorem partLe_iff {x y : Part} : partLe x y ↔ toLex (x.1.map UInt8.toNat, x.2) ≤ toLex (y.1.map UInt8.toNat, y.2) := Iff.rfl

instance : Std.Total partLe := ⟨fun _ _ => le_total _ _⟩

instance : IsTrans Part partLe := ⟨fun _ _ _ => le_trans⟩

theorem partLe_antisymm {x y : Part} (hxy : partLe x y) (hyx : partLe y x) : x = y := by
  have heq := toLex.injective (le_antisymm hxy hyx)
  obtain ⟨htext, hflag⟩ := Prod.mk.inj heq
  exact Prod.ext (List.map_injective_iff.mpr (fun _ _ h => UInt8.toNat_inj.mp h) htext) hflag

theorem sorted_narrow (l : List Part) : (narrow l).Pairwise partLe := List.pairwise_insertionSort _ _

theorem narrow_eq_of_perm {l l' : List Part} (h : (narrow l).Perm (narrow l')) : narrow l = narrow l' :=
  List.Perm.eq_of_pairwise (fun _ _ _ _ => partLe_antisymm) (sorted_narrow l) (sorted_narrow l') h

end UnixCommons.Language.NormalizeTrigger
