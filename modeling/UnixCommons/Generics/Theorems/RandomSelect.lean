import UnixCommons.Generics.RandomSelect

/-!
# 重みによる選択の定理

選択が重みに比例するのは、引かれた値が和までの全ての値に及ぶ時であり、それは和だけで決まる。
-/

namespace UnixCommons.Generics.RandomSelect

section

variable {α : Type} {bits : Nat} {weightFun : α → Nat} {range : List α} {raw : Nat}

theorem rndWeight_eq (hfits : total weightFun range < 2 ^ bits) (hpos : 0 < total weightFun range)
    (hle : total weightFun range ≤ 2 ^ 31)
    (hraw : raw < rawRange) : rndWeight bits weightFun range raw = 1 + safeRand (total weightFun range) raw := by
  have hlt := safeRand_lt hpos hle hraw
  have hmod : total weightFun range % uint32Range = total weightFun range :=
    Nat.mod_eq_of_lt (Nat.lt_of_le_of_lt hle (by decide))
  have hspan : (total weightFun range + uint32Range - 1 + 1) % uint32Range = total weightFun range := by
    rw [Nat.sub_add_cancel (by omega), Nat.add_mod_right, hmod]
  rw [rndWeight, cumulativeWeight_eq hfits, hmod, safeRandBetween, hspan, Nat.mod_eq_of_lt, Nat.mod_eq_of_lt]
  · unfold uint32Range
    omega
  · unfold uint32Range
    omega

theorem mem_drawn (hfits : total weightFun range < 2 ^ bits) (hpos : 0 < total weightFun range)
    (hle : total weightFun range ≤ 2 ^ 31)
    {r : Nat} : r ∈ drawn bits weightFun range ↔ ∃ raw < rawRange, 1 + safeRand (total weightFun range) raw = r := by
  rw [drawn, Finset.mem_image]
  constructor
  · rintro ⟨raw, hraw, rfl⟩
    have hlt := Finset.mem_range.mp hraw
    exact ⟨raw, hlt, (rndWeight_eq hfits hpos hle hlt).symm⟩
  · rintro ⟨raw, hraw, rfl⟩
    exact ⟨raw, Finset.mem_range.mpr hraw, rndWeight_eq hfits hpos hle hraw⟩

theorem Proportional.total_le (hfits : total weightFun range < 2 ^ bits)
    (h : Proportional bits weightFun range) : total weightFun range ≤ 2 ^ 31 := by
  rw [← h.card_drawn hfits]
  exact Finset.card_image_le.trans (Finset.card_range rawRange).le

theorem Proportional.exists_raw (hfits : total weightFun range < 2 ^ bits) (hpos : 0 < total weightFun range)
    (h : Proportional bits weightFun range) {j : Nat} (hj : j < total weightFun range) :
    ∃ raw < rawRange, safeRand (total weightFun range) raw = j := by
  have hle := h.total_le hfits
  have hsubset : drawn bits weightFun range ⊆ Finset.Icc 1 (total weightFun range) := by
    intro r hr
    obtain ⟨raw, hraw, rfl⟩ := (mem_drawn hfits hpos hle).mp hr
    have hlt := safeRand_lt hpos hle hraw
    exact Finset.mem_Icc.mpr (by omega)
  have heq : drawn bits weightFun range = Finset.Icc 1 (total weightFun range) := by
    refine Finset.eq_of_subset_of_card_le hsubset ?_
    rw [h.card_drawn hfits, Nat.card_Icc]
    omega
  have hmem : 1 + j ∈ drawn bits weightFun range := by
    rw [heq]
    exact Finset.mem_Icc.mpr (by omega)
  obtain ⟨raw, hraw, hsafe⟩ := (mem_drawn hfits hpos hle).mp hmem
  exact ⟨raw, hraw, by omega⟩

theorem Proportional.randomSelect_lt (h : Proportional bits weightFun range) {raw : Nat}
    (hraw : raw < rawRange) : randomSelect bits weightFun range raw < range.length :=
  h.inside _ (Finset.mem_image_of_mem _ (Finset.mem_range.mpr hraw))

theorem Proportional.exists_randomSelect (h : Proportional bits weightFun range) {i : Nat} (hi : i < range.length)
    (hweight : 0 < weightFun range[i]) : ∃ raw < rawRange, randomSelect bits weightFun range raw = i := by
  rw [← h.count i hi] at hweight
  obtain ⟨r, hr⟩ := Finset.card_pos.mp hweight
  obtain ⟨hdrawn, hselect⟩ := Finset.mem_filter.mp hr
  obtain ⟨raw, hraw, rfl⟩ := Finset.mem_image.mp hdrawn
  exact ⟨raw, Finset.mem_range.mp hraw, hselect⟩

/-- 選択が重みに比例するのは、和が `2 ^ 31` までで、丸めが値を飛ばす二つの和でない時、しかもその時に限る。 -/
theorem random_select_iff (hpos : 0 < total weightFun range)
    (hfits : total weightFun range < 2 ^ bits) : Proportional bits weightFun range ↔
      total weightFun range ≤ 2 ^ 31 ∧ total weightFun range ≠ 2 ^ 31 - 18 ∧ total weightFun range ≠ 2 ^ 31 - 20 := by
  constructor
  · intro h
    have hskipped : ¬ (total weightFun range = 2 ^ 31 - 18 ∨ total weightFun range = 2 ^ 31 - 20) := by
      intro hbad
      obtain ⟨raw, -, hraw⟩ := h.exists_raw hfits hpos (j := 2 ^ 30) (by omega)
      exact safeRand_skips hbad hraw
    exact ⟨h.total_le hfits, not_or.mp hskipped⟩
  · rintro ⟨hle, h18, h20⟩
    refine .of_drawn hfits (Finset.ext fun r => ?_)
    rw [mem_drawn hfits hpos hle, Finset.mem_Icc]
    constructor
    · rintro ⟨raw, hraw, rfl⟩
      have hlt := safeRand_lt hpos hle hraw
      omega
    · rintro ⟨hlow, hhigh⟩
      obtain ⟨raw, hraw, hsafe⟩ := exists_safeRand hle h18 h20 (j := r - 1) (by omega)
      exact ⟨raw, hraw, by omega⟩

end

theorem random_select_iff_three : Proportional 32 id [1, 0, 2] :=
  (random_select_iff (by decide) (by decide)).mpr (by decide)

/-- 重みが `2 ^ 32` の要素だけの範囲では、和が `uint32_t` で 0 になり、値は一つしか引かれない。 -/
theorem random_select_truncates :
    ¬ ∀ (bits : Nat) (range : List Nat), 0 < total id range → total id range < 2 ^ bits →
      Proportional bits id range := by
  intro h
  have hle := (h 64 [2 ^ 32] (by decide) (by decide)).total_le (by decide)
  exact absurd hle (by decide)

end UnixCommons.Generics.RandomSelect
