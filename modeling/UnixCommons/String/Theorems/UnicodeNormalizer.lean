import UnixCommons.String.Lemmas.Normalize
import UnixCommons.String.Lemmas.UnicodeNormalizer

/-!
# 文字列の正規化と合成の定理

`normalize` は、分解を並べた列の、結合文字の続く範囲をそれぞれ安定に整列する。
-/

namespace UnixCommons.String.UnicodeNormalizer

open Lib

variable {t : Tables} {text : List Nat} {length : Nat → Nat}

/-! ## 正規化 -/

/-- 分解が整った形であれば、`normalize` は正準の順序の列を書き、禁じられた文字か、始めの文字のない始まりに限り、0 を返す。 -/
theorem normalize_canonical_order (getNonZeroCombiningClass : Nat → Nat)
    (decomposer : Nat → Option (List Nat)) (input : List Nat)
    (hshape : ∀ wch d, decomposer wch = some d → WellShaped getNonZeroCombiningClass d) :
    (∀ out, normalize getNonZeroCombiningClass decomposer input = some out →
      ∃ ds, List.Forall₂ (decomposer · = some ·) input ds ∧
      Reordered (getCombiningClass getNonZeroCombiningClass) ds.flatten out) ∧
    (normalize getNonZeroCombiningClass decomposer input = none ↔
      (∃ wch ∈ input, decomposer wch = none) ∨ BeginsWithCombiner getNonZeroCombiningClass decomposer input) := by
  have hbegin := Normalizing.Holds.begin getNonZeroCombiningClass
  constructor
  · intro out hout
    obtain ⟨s, hrun, hout⟩ := Option.bind_eq_some_iff.mp hout
    obtain ⟨ds, hds, hheld⟩ := hbegin.run hshape hrun
    refine ⟨ds, hds, ?_⟩
    rw [← Option.some.inj hout, hheld.sorted_eq]
    exact reordered_reorder _ _
  · have hnone := @Normalizing.Holds.run_none _ _ _ input _ hshape hbegin
    rw [eq_self, true_and] at hnone
    rw [← hnone, normalize]
    cases input.foldlM (fun s wch => do normalizeStep getNonZeroCombiningClass s (← decomposer wch)) Normalizing.begin with
    | none => exact iff_of_true rfl rfl
    | some s => exact iff_of_false (fun h => by cases h) (fun h => by cases h)

def sampleClass (wch : Nat) : Nat := if wch = 0x300 then 230 else if wch = 0x323 then 220 else 0

def sampleDecomposer (wch : Nat) : Option (List Nat) :=
  if wch = 0xC0 then some [0x41, 0x300] else if wch = 0xAD then some [] else if wch = 0xFFFE then none else some [wch]

theorem sampleDecomposer_shape (wch : Nat) (d : List Nat) (h : sampleDecomposer wch = some d) :
    WellShaped sampleClass d := by
  rw [sampleDecomposer] at h
  split_ifs at h
  · obtain rfl := Option.some.inj h
    exact .inr ⟨[0x41], [0x300], rfl, by decide, by decide, by decide, .inl (by decide)⟩
  · obtain rfl := Option.some.inj h
    exact .inl (by decide)
  · obtain rfl := Option.some.inj h
    cases hclass : isStarter sampleClass wch with
    | true => exact .inr ⟨[wch], [], rfl, by simp, by simpa using hclass, by simp, .inl (by simp)⟩
    | false => exact .inl (by simpa using hclass)

theorem normalize_canonical_order_sample :
    normalize sampleClass sampleDecomposer [0xC0, 0xAD, 0x323, 0x42] = some [0x41, 0x323, 0x300, 0x42] ∧
      (∀ out, normalize sampleClass sampleDecomposer [0xC0, 0xAD, 0x323, 0x42] = some out →
        ∃ ds, List.Forall₂ (sampleDecomposer · = some ·) [0xC0, 0xAD, 0x323, 0x42] ds ∧
          Reordered (getCombiningClass sampleClass) ds.flatten out) ∧
      normalize sampleClass sampleDecomposer [0xAD, 0x300, 0x41] = none ∧
      (normalize sampleClass sampleDecomposer [0xAD, 0x300, 0x41] = none ↔
        (∃ wch ∈ [0xAD, 0x300, 0x41], sampleDecomposer wch = none) ∨
        BeginsWithCombiner sampleClass sampleDecomposer [0xAD, 0x300, 0x41]) :=
  ⟨by decide, (normalize_canonical_order _ _ _ sampleDecomposer_shape).1, by decide,
    (normalize_canonical_order _ _ _ sampleDecomposer_shape).2⟩

/-! ## 合成 -/

/-- 書く位置は読む位置を追い越さず、書いた列が算法の列であるのは、分かれる文字に会わない時に限る。`length` は、分けた長さである。 -/
theorem compose_string_iff (hlaw : t.composer.Lawful length) (horder : t.composer.CanonicallyOrdered text) :
    (composeString t text).output ≤ (composeString t text).first ∧
      ((composeString t text).written = t.composer.compose text ↔ t.composer.NeverMeets t.Diverges [] text) := by
  refine ⟨(composeString t text).behind, ?_⟩
  rw [composeString_spec]
  exact transduce_iff hlaw horder

/-- `A` と重アクセント、二つの母音記号の対を持つ表。 -/
def sampleTables : Tables where
  combiningClass c := if c = 0x300 then 230 else 0
  compositeHash i :=
    if i = hash 0x41 0x300 then ⟨0xC0, 0x41, 0x300⟩
    else if i = hash 0xB47 0xB3E then ⟨0xB4B, 0xB47, 0xB3E⟩
    else emptyRecord

def sampleLength (c : Nat) : Nat :=
  if c ≥ 0xAC00 ∧ c < 0xD7A4 then (if (c - 0xAC00) % 28 = 0 then 2 else 3) else if c = 0xC0 ∨ c = 0xB4B then 2 else 1

theorem sampleLength_syllable {c : Nat} (h : c ≥ 0xAC00 ∧ c < 0xD7A4) :
    sampleLength c = if (c - 0xAC00) % 28 = 0 then 2 else 3 := if_pos h

theorem sampleLength_jamo {c : Nat} (h : c ≥ 0x1100 ∧ c < 0x1200) : sampleLength c = 1 := by
  rw [sampleLength, if_neg (by omega), if_neg (by omega)]

theorem sample_composite {x c value : Nat} (h : sampleTables.composer.composite x c = some value) :
    (IsLV x c ∧ value = syllableLV x c) ∨ (IsSyllableLV x ∧ c > tBase ∧ c < tBase + tCount ∧ value = x + (c - tBase)) ∨
      (x = 0x41 ∧ c = 0x300 ∧ value = 0xC0) ∨ (x = 0xB47 ∧ c = 0xB3E ∧ value = 0xB4B) := by
  have hrecords : ∀ i, sampleTables.compositeHash i = ⟨0xC0, 0x41, 0x300⟩ ∨
      sampleTables.compositeHash i = ⟨0xB4B, 0xB47, 0xB3E⟩ ∨
      sampleTables.compositeHash i = emptyRecord := by
    intro i
    simp only [sampleTables]
    split
    · exact .inl rfl
    · split
      · exact .inr (.inl rfl)
      · exact .inr (.inr rfl)
  simp only [Tables.composer] at h
  split at h
  · exact .inl ⟨‹_›, (Option.some.inj h).symm⟩
  · split at h
    · rename_i hs
      exact .inr (.inl ⟨hs.1, hs.2.1, hs.2.2, (Option.some.inj h).symm⟩)
    · split at h
      · rename_i hrecord
        obtain ⟨hne, hstarter, hcombiner⟩ := hrecord
        have hvalue := Option.some.inj h
        rcases hrecords (hash x c) with hr | hr | hr
        · rw [hr] at hstarter hcombiner hvalue
          exact .inr (.inr (.inl ⟨hstarter.symm, hcombiner.symm, hvalue.symm⟩))
        · rw [hr] at hstarter hcombiner hvalue
          exact .inr (.inr (.inr ⟨hstarter.symm, hcombiner.symm, hvalue.symm⟩))
        · exact absurd hr hne
      · cases h

theorem sample_lawful : sampleTables.composer.Lawful sampleLength := by
  constructor
  · intro x c value h
    have hclass : ∀ y, y ≠ 0x300 → sampleTables.composer.combiningClass y = 0 := fun y hy => if_neg hy
    rcases sample_composite h with ⟨hlv, hv⟩ | ⟨hs, hgt, hlt, hv⟩ | ⟨rfl, rfl, rfl⟩ | ⟨rfl, rfl, rfl⟩
    · simp only [IsLV, lBase, lCount, vBase, vCount] at hlv
      rw [hv]
      refine ⟨hclass _ (by omega), hclass _ ?_⟩
      simp only [syllableLV, sBase, lBase, vCount, vBase, tCount]
      omega
    · have hle := hs.1
      simp only [sBase] at hle
      rw [hv]
      exact ⟨hclass _ (by omega), hclass _ (by omega)⟩
    · exact ⟨rfl, rfl⟩
    · exact ⟨rfl, rfl⟩
  · intro x c value h
    rcases sample_composite h with ⟨hlv, hv⟩ | ⟨hs, hgt, hlt, hv⟩ | ⟨rfl, rfl, rfl⟩ | ⟨rfl, rfl, rfl⟩
    · simp only [IsLV, lBase, lCount, vBase, vCount] at hlv
      simp only [syllableLV, sBase, lBase, vBase, vCount, tCount] at hv
      have hx : sampleLength x = 1 := sampleLength_jamo (by omega)
      have hc : sampleLength c = 1 := sampleLength_jamo (by omega)
      rw [hx, hc, sampleLength_syllable (by omega), if_pos (by omega)]
    · simp only [IsSyllableLV, sBase, sCount, nCount, lCount, vCount, tCount] at hs
      simp only [tBase, tCount] at hgt hlt hv
      have hx : sampleLength x = 2 := by rw [sampleLength_syllable (by omega), if_pos hs.2.2]
      have hc : sampleLength c = 1 := sampleLength_jamo (by omega)
      rw [hx, hc, sampleLength_syllable (by omega), if_neg (by omega)]
    · rfl
    · rfl
  · intro c
    simp only [sampleLength]
    split
    · split <;> omega
    · split <;> omega

theorem compose_string_iff_sample :
    (composeString sampleTables [0x41, 0x300, 0x1100, 0x1161, 0x11A8]).written = [0xC0, 0xAC01] ∧
      (composeString sampleTables [0x41, 0x300, 0x1100, 0x1161, 0x11A8]).written =
        sampleTables.composer.compose [0x41, 0x300, 0x1100, 0x1161, 0x11A8] := by
  refine ⟨by decide, (compose_string_iff sample_lawful ?_).2.mpr ?_⟩
  · simp [Composer.CanonicallyOrdered, Tables.composer, sampleTables]
  · decide

/-- 残された文字を越えた合成、音節の後の `T_BASE`、二つの 0。 -/
theorem compose_string_diverges :
    (composeString sampleTables [0xB47, 0x300, 0xB3E]).written = [0xB4B, 0x300] ∧
      sampleTables.composer.compose [0xB47, 0x300, 0xB3E] = [0xB47, 0x300, 0xB3E] ∧
      (composeString sampleTables [0xAC00, 0x11A7]).written = [0xAC00] ∧
      sampleTables.composer.compose [0xAC00, 0x11A7] = [0xAC00, 0x11A7] ∧
      (composeString sampleTables [0, 0]).written = [0] ∧ sampleTables.composer.compose [0, 0] = [0, 0] := by
  decide

/-! ## ハングル -/

/-- 字母のない列の分解は、空の表で合成すれば元の列に戻る。U+0000 が始めの文字を挟まずに二度現れる列に限り、戻らない。 -/
theorem hangul_compose_decompose_iff (combiningClass : Nat → Nat) (text : List Nat)
    (hclass : HangulStarters combiningClass) (hjamo : ∀ c ∈ text, ¬ IsJamo c) :
    (composeString (emptyTables combiningClass) (text.flatMap hangulDecompose)).written = text ↔
    ¬ RepeatsZero combiningClass text := by
  rw [composeString_spec]
  cases text with
  | nil =>
      refine iff_of_true rfl ?_
      rintro ⟨before, after, heq, -⟩
      exact List.append_ne_nil_of_right_ne_nil before (List.cons_ne_nil 0 after) heq.symm
  | cons c text =>
      rw [transduce_hangulDecompose hclass hjamo, List.cons_inj_right,
        withoutRepeats_eq_iff (hclass 0 (.inl rfl)), repeatsZero_cons]

theorem sampleClass_hangulStarters : HangulStarters sampleClass := by
  intro c hc
  rw [sampleClass, if_neg, if_neg]
  · rintro rfl
    revert hc
    decide
  · rintro rfl
    revert hc
    decide

theorem hangul_compose_decompose_syllables :
    (composeString (emptyTables sampleClass) ([0, 0xAC00, 0x300, 0xAC01, 0xAC1C, 0xD7A3, 0].flatMap
    hangulDecompose)).written =
        [0, 0xAC00, 0x300, 0xAC01, 0xAC1C, 0xD7A3, 0] ∧
      ((composeString (emptyTables sampleClass)
        ([0, 0xAC00, 0x300, 0xAC01, 0xAC1C, 0xD7A3, 0].flatMap hangulDecompose)).written =
          [0, 0xAC00, 0x300, 0xAC01, 0xAC1C, 0xD7A3, 0] ↔
          ¬ RepeatsZero sampleClass [0, 0xAC00, 0x300, 0xAC01, 0xAC1C, 0xD7A3, 0]) :=
  ⟨by decide, hangul_compose_decompose_iff _ _ sampleClass_hangulStarters (by decide)⟩

/-- 空の場所は、二つの U+0000 の対に当たる。 -/
theorem hangul_compose_decompose_zero : ¬ ∀ text : List Nat, (∀ c ∈ text, ¬ IsJamo c) →
    (composeString (emptyTables sampleClass) (text.flatMap hangulDecompose)).written = text := by
  intro h
  have heq := h [0, 0] (by decide)
  revert heq
  decide

end UnixCommons.String.UnicodeNormalizer
