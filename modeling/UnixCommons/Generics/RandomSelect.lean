import Mathlib.Algebra.Order.BigOperators.Group.Finset
import Mathlib.Data.Finset.Card
import Mathlib.Order.Interval.Finset.Nat
import UnixCommons.Lib.Rounding

/-!
# 重みによる選択

`Rand.hpp` の `safe_rand` と、`RandomSelect.hpp` の `random_select` の写し。繰り返し子は、範囲の中の位置である。
-/

namespace UnixCommons.Generics.RandomSelect

open Lib

/-! ## `safe_rand` -/

def uint32Range : Nat := 2 ^ 32

/-- 引数のない `safe_rand` の値の数。`generator.rand() >> 1` である。 -/
def rawRange : Nat := 2 ^ 31

/-- 上限を取る `safe_rand`。`double` の積は五十三ビットに丸められ、`2147483648.0` で割った商は正確である。 -/
def safeRand (maxBoundary raw : Nat) : Nat := roundBits 53 (maxBoundary * raw) / 2147483648

def safeRandBetween (minBoundary maxBoundary raw : Nat) : Nat :=
  (minBoundary + safeRand ((maxBoundary + uint32Range - minBoundary + 1) % uint32Range) raw) % uint32Range

/-! ## `random_select` -/

section

variable {α : Type} (bits : Nat) (weightFun : α → Nat)

def sumTypeAdd (a b : Nat) : Nat := (a + b) % 2 ^ bits

def cumulativeWeight (range : List α) : Nat :=
  range.foldl (fun cumulative item => sumTypeAdd bits cumulative (weightFun item)) 0

/-- 引いた値 `rnd_weight` で選ぶループ。見つからなければ、範囲の終わりである。 -/
def selectLoop (rndWeight : Nat) : Nat → List α → Nat
  | _, [] => 0
  | cumWeight, item :: range =>
      if rndWeight ≤ sumTypeAdd bits cumWeight (weightFun item) then 0
      else selectLoop rndWeight (sumTypeAdd bits cumWeight (weightFun item)) range + 1

/-- `rnd_weight`。和は `uint32_t` に変えられ、引いた値は `SumType` に変えられる。 -/
def rndWeight (range : List α) (raw : Nat) : Nat :=
  safeRandBetween 1 (cumulativeWeight bits weightFun range % uint32Range) raw % 2 ^ bits

/-- `random_select`。`raw` は、引数のない `safe_rand` の値である。 -/
def randomSelect (range : List α) (raw : Nat) : Nat := selectLoop bits weightFun
    (rndWeight bits weightFun range raw) 0 range

/-- `rnd_weight` の取りうる値。 -/
def drawn (range : List α) : Finset Nat := (Finset.range rawRange).image (rndWeight bits weightFun range)

/-- どの要素も、ちょうど重みの数だけの値で選ばれ、範囲の終わりは選ばれない。 -/
structure Proportional (range : List α) : Prop where
  count : ∀ i (hi : i < range.length),
    ((drawn bits weightFun range).filter fun r => selectLoop bits weightFun r 0 range = i).card = weightFun range[i]
  inside : ∀ r ∈ drawn bits weightFun range, selectLoop bits weightFun r 0 range < range.length

end

/-! ## 選ぶループ -/

section

variable {α : Type} {bits : Nat} {weightFun : α → Nat} {range : List α} {cum r i : Nat}

def total (weightFun : α → Nat) (range : List α) : Nat := (range.map weightFun).sum

@[simp]
theorem total_nil : total weightFun [] = 0 := rfl

@[simp]
theorem total_cons {item : α} : total weightFun (item :: range) = weightFun item + total weightFun
    range := by simp [total]

theorem sumTypeAdd_of_lt {a b : Nat} (h : a + b < 2 ^ bits) : sumTypeAdd bits a b = a + b := Nat.mod_eq_of_lt h

theorem foldl_sumTypeAdd (h : cum + total weightFun range < 2 ^ bits) :
    range.foldl (fun cumulative item => sumTypeAdd bits cumulative (weightFun item)) cum = cum +
      total weightFun range := by
  induction range generalizing cum with
  | nil => rfl
  | cons item range ih =>
      rw [total_cons, ← Nat.add_assoc] at h
      rw [List.foldl_cons, sumTypeAdd_of_lt (by omega), ih h, total_cons, Nat.add_assoc]

theorem cumulativeWeight_eq (h : total weightFun range < 2 ^ bits) :
    cumulativeWeight bits weightFun range = total weightFun range := by
  rw [cumulativeWeight, foldl_sumTypeAdd (by rwa [Nat.zero_add]), Nat.zero_add]

theorem selectLoop_iff (h : cum + total weightFun range < 2 ^ bits) (hcum : cum < r) :
    selectLoop bits weightFun r cum range = i ∧ i < range.length ↔
      i < range.length ∧ cum + total weightFun (range.take i) < r ∧ r ≤ cum + total weightFun (range.take (i + 1)) := by
  induction range generalizing cum i with
  | nil => simp
  | cons item range ih =>
      rw [total_cons, ← Nat.add_assoc] at h
      rw [selectLoop, sumTypeAdd_of_lt (by omega)]
      split
      · rename_i hle
        cases i with
        | zero => simp [hcum, hle]
        | succ i =>
            have : r ≤ cum + (weightFun item + total weightFun (range.take i)) := by omega
            simp [this]
      · rename_i hgt
        cases i with
        | zero => simp [hgt]
        | succ i =>
            have hrest := ih (i := i) h (Nat.lt_of_not_le hgt)
            simpa [Nat.add_assoc] using hrest

theorem selectLoop_lt (h : cum + total weightFun range < 2 ^ bits)
    (hr : r ≤ cum + total weightFun range) (hcum : cum < r) :
    selectLoop bits weightFun r cum range < range.length := by
  induction range generalizing cum with
  | nil =>
      rw [total_nil] at hr
      omega
  | cons item range ih =>
      rw [total_cons, ← Nat.add_assoc] at h hr
      rw [selectLoop, sumTypeAdd_of_lt (by omega), List.length_cons]
      split
      · exact Nat.succ_pos _
      · rename_i hgt
        exact Nat.succ_lt_succ (ih h hr (Nat.lt_of_not_le hgt))

theorem total_take_succ (hi : i < range.length) : total weightFun
    (range.take (i + 1)) = total weightFun (range.take i) + weightFun range[i] := by
  rw [List.take_succ_eq_append_getElem hi, total, List.map_append, List.sum_append,
    List.map_singleton, List.sum_singleton]
  rfl

theorem total_take_le : total weightFun (range.take i) ≤ total weightFun range := by
  have hsplit : total weightFun range = total weightFun (range.take i) + total weightFun (range.drop i) := by
    rw [total, total, total, ← List.sum_append, ← List.map_append, List.take_append_drop]
  omega

theorem card_selected (h : total weightFun range < 2 ^ bits) (hi : i < range.length) :
    ((Finset.Icc 1 (total weightFun range)).filter fun r => selectLoop bits weightFun r 0 range =
    i).card = weightFun range[i] := by
  have hset : ((Finset.Icc 1 (total weightFun range)).filter fun r => selectLoop bits weightFun r 0 range = i) =
      Finset.Ioc (total weightFun (range.take i)) (total weightFun (range.take (i + 1))) := by
    ext r
    have hle : total weightFun (range.take (i + 1)) ≤ total weightFun range := total_take_le
    rw [Finset.mem_filter, Finset.mem_Icc, Finset.mem_Ioc]
    constructor
    · rintro ⟨⟨hr, -⟩, hsel⟩
      simpa using ((selectLoop_iff (by rwa [Nat.zero_add]) hr).mp ⟨hsel, hi⟩).2
    · rintro ⟨hlow, hhigh⟩
      have hr : 0 < r := by omega
      exact ⟨⟨hr, hhigh.trans hle⟩,
        ((selectLoop_iff (by rwa [Nat.zero_add]) hr).mpr ⟨hi, by simpa using ⟨hlow, hhigh⟩⟩).1⟩
  rw [hset, Nat.card_Ioc, total_take_succ hi]
  omega

theorem card_eq_sum_selected {values : Finset Nat}
    (h : ∀ r ∈ values, selectLoop bits weightFun r 0 range < range.length) :
    values.card = ∑ i ∈ Finset.range range.length,
      (values.filter fun r => selectLoop bits weightFun r 0 range = i).card :=
  Finset.card_eq_sum_card_fiberwise fun r hr => Finset.mem_coe.mpr (Finset.mem_range.mpr (h r hr))

theorem selectLoop_lt_of_mem (h : total weightFun range < 2 ^ bits) (hr : r ∈ Finset.Icc 1 (total weightFun range)) :
    selectLoop bits weightFun r 0 range < range.length := by
  obtain ⟨hpos, hle⟩ := Finset.mem_Icc.mp hr
  exact selectLoop_lt (by rwa [Nat.zero_add]) (by rwa [Nat.zero_add]) hpos

theorem Proportional.card_drawn (h : total weightFun range < 2 ^ bits) (hprop : Proportional bits weightFun range) :
    (drawn bits weightFun range).card = total weightFun range := by
  have hall := card_eq_sum_selected fun r hr => selectLoop_lt_of_mem h hr
  rw [Nat.card_Icc, Nat.add_sub_cancel] at hall
  rw [card_eq_sum_selected hprop.inside, hall]
  refine Finset.sum_congr rfl fun i hi => ?_
  rw [card_selected h (Finset.mem_range.mp hi), hprop.count i (Finset.mem_range.mp hi)]

theorem Proportional.of_drawn (h : total weightFun range < 2 ^ bits)
    (heq : drawn bits weightFun range = Finset.Icc 1 (total weightFun range)) : Proportional bits weightFun range := by
  refine ⟨fun i hi => ?_, fun r hr => ?_⟩
  · rw [heq]
    exact card_selected h hi
  · rw [heq] at hr
    exact selectLoop_lt_of_mem h hr

end

/-! ## 引かれる値 -/

section

variable {j n t raw : Nat}

/-- `j * 2 ^ 31` に丸められる数の、そこからの距離。 -/
def slack (j : Nat) : Nat := if j ≤ 2 ^ 22 then 0 else 2 ^ ((j - 1).log2 - 22)

theorem slack_of_le (h : j ≤ 2 ^ 22) : slack j = 0 := if_pos h

theorem slack_of_lt {e : Nat} (hlow : 2 ^ (22 + e) < j) (hhigh : j ≤ 2 ^ (22 + e + 1)) : slack j = 2 ^ e := by
  have hbig : ¬ j ≤ 2 ^ 22 :=
    Nat.not_le_of_lt (Nat.lt_of_le_of_lt (Nat.pow_le_pow_right (by decide) (Nat.le_add_right 22 e)) hlow)
  have hne : j - 1 ≠ 0 := by omega
  have hge : 22 + e ≤ (j - 1).log2 := (Nat.le_log2 hne).mpr (by omega)
  have hlt : (j - 1).log2 < 22 + e + 1 := (Nat.log2_lt hne).mpr (by omega)
  have hlog : (j - 1).log2 - 22 = e := by omega
  rw [slack, if_neg hbig, hlog]

theorem exists_between (h : 2 ^ 22 < j) (hj : j ≤ 2 ^ 31) : ∃ e, e ≤ 8 ∧ 2 ^ (22 + e) < j ∧ j ≤ 2 ^ (22 + e + 1) := by
  have hne : j - 1 ≠ 0 := by omega
  have hge : 22 ≤ (j - 1).log2 := (Nat.le_log2 hne).mpr (by omega)
  have hlt : (j - 1).log2 < 31 := (Nat.log2_lt hne).mpr (by omega)
  have hself := Nat.log2_self_le hne
  have hnext := (Nat.log2_lt hne).mp (Nat.lt_succ_self (j - 1).log2)
  have hexp : 22 + ((j - 1).log2 - 22) = (j - 1).log2 := by omega
  refine ⟨(j - 1).log2 - 22, by omega, ?_, ?_⟩
  · rw [hexp]
    omega
  · rw [hexp]
    omega

theorem slack_lt (h : 0 < j) : slack j < j := by
  unfold slack
  split
  · exact h
  · have hne : j - 1 ≠ 0 := by omega
    have hpow : 2 ^ ((j - 1).log2 - 22) ≤ 2 ^ (j - 1).log2 := Nat.pow_le_pow_right (by decide) (Nat.sub_le _ _)
    have hself := Nat.log2_self_le hne
    omega

theorem slack_succ (hj : j < 2 ^ 31) : slack (j + 1) = slack j ∨ ∃ e, e ≤ 8 ∧ j = 2 ^ (22 + e) := by
  rcases Nat.lt_trichotomy j (2 ^ 22) with hlt | rfl | hgt
  · exact .inl ((slack_of_le hlt).trans (slack_of_le (Nat.le_of_lt hlt)).symm)
  · exact .inr ⟨0, Nat.zero_le 8, rfl⟩
  · obtain ⟨e, he, hlow, hhigh⟩ := exists_between hgt (Nat.le_of_lt hj)
    rcases Nat.lt_or_eq_of_le hhigh with hlt | heq
    · exact .inl ((slack_of_lt (Nat.lt_succ_of_lt hlow) hlt).trans (slack_of_lt hlow hhigh).symm)
    · refine .inr ⟨e + 1, ?_, heq⟩
      have hexp : 22 + e + 1 < 31 := (Nat.pow_lt_pow_iff_right (by decide)).mp (heq ▸ hj)
      omega

theorem le_roundBits_product_iff (hj : j ≤ 2 ^ 31) : j * 2147483648 ≤ roundBits 53 n ↔
    j * 2147483648 ≤ n + slack j := by
  rcases Nat.lt_or_ge (2 ^ 22) j with hgt | hle
  · obtain ⟨e, he, hlow, hhigh⟩ := exists_between hgt hj
    have hscale : ∀ a, a * 2 ^ 31 = a * 2147483648 := fun a => rfl
    have hgrid : j * 2147483648 = j * 2 ^ (30 - e) * 2 ^ (e + 1) := by
      rw [Nat.mul_assoc, ← pow_add, ← hscale]
      congr 2
      omega
    have heven : j * 2 ^ (30 - e) % 2 = 0 := by
      obtain ⟨d, hd⟩ : ∃ d, 30 - e = d + 1 := ⟨29 - e, by omega⟩
      rw [hd, pow_succ, ← Nat.mul_assoc, Nat.mul_mod_left]
    have hshift : ∀ k, 2 ^ (22 + e + k) * 2147483648 = 2 ^ (53 + e + k) := fun k => by
      rw [← hscale, ← pow_add]
      congr 1
      omega
    rw [slack_of_lt hlow hhigh, hgrid]
    refine le_roundBits_iff (by decide) heven ?_ ?_
    · have hzero : 2 ^ (22 + e) * 2147483648 = 2 ^ (53 + e) := hshift 0
      rw [← hgrid, ← hzero]
      omega
    · rw [← hgrid, ← hshift]
      omega
  · rw [slack_of_le hle, Nat.add_zero]
    exact le_roundBits_iff_of_le (by decide) (by omega)

theorem safeRand_eq_iff (hj : j < 2 ^ 31) :
    safeRand t raw = j ↔ j * 2147483648 ≤ t * raw + slack j ∧ t * raw + slack (j + 1) < (j + 1) * 2147483648 := by
  rw [← le_roundBits_product_iff (Nat.le_of_lt hj), ← Nat.not_le, ← le_roundBits_product_iff hj, safeRand]
  omega

theorem safeRand_lt (ht : 0 < t) (hle : t ≤ 2 ^ 31) (hraw : raw < rawRange) : safeRand t raw < t := by
  have hreach := (le_roundBits_product_iff (n := t * raw) hle).not
  have hslack := slack_lt ht
  have hraw' : raw + 1 ≤ 2147483648 := hraw
  have hmul : t * (raw + 1) ≤ t * 2147483648 := Nat.mul_le_mul_left t hraw'
  have hlt : ¬ t * 2147483648 ≤ roundBits 53 (t * raw) := by
    rw [hreach]
    rw [Nat.mul_succ] at hmul
    omega
  rw [safeRand]
  omega

/-- `j` に届く最も小さい乱数。 -/
def firstReaching (t j : Nat) : Nat := (j * 2147483648 - slack j + t - 1) / t

theorem safeRand_firstReaching (ht : j < t) (hle : t ≤ 2 ^ 31)
    (hnext : t * firstReaching t j + slack (j + 1) < (j + 1) * 2147483648) :
    firstReaching t j < rawRange ∧ safeRand t (firstReaching t j) = j := by
  have hdiv := Nat.div_add_mod (j * 2147483648 - slack j + t - 1) t
  have hmod := Nat.mod_lt (j * 2147483648 - slack j + t - 1) (Nat.zero_lt_of_lt ht)
  rw [← firstReaching] at hdiv
  constructor
  · have hmul : (j + 1) * 2147483648 ≤ t * 2147483648 := Nat.mul_le_mul_right _ ht
    have hlt : t * firstReaching t j < t * 2147483648 := by omega
    exact lt_of_mul_lt_mul_left hlt (Nat.zero_le t)
  · exact (safeRand_eq_iff (by omega)).mpr ⟨by omega, hnext⟩

theorem firstReaching_lt (ht : j < t) (h : t + slack (j + 1) ≤ 2147483648 + slack j) :
    t * firstReaching t j + slack (j + 1) < (j + 1) * 2147483648 := by
  have hdiv := Nat.div_add_mod (j * 2147483648 - slack j + t - 1) t
  rw [← firstReaching] at hdiv
  have hslack : slack j ≤ j * 2147483648 := by
    rcases Nat.eq_zero_or_pos j with rfl | hj
    · exact Nat.le_of_eq (slack_of_le (Nat.zero_le _))
    · have := slack_lt hj
      omega
  omega

theorem firstReaching_power : ∀ d < 256, d ≠ 18 → d ≠ 20 → ∀ e < 9,
    (2147483648 - d) * firstReaching (2147483648 - d) (2 ^ (22 + e)) + slack
    (2 ^ (22 + e) + 1) < (2 ^ (22 + e) + 1) * 2147483648 := by
  decide +kernel

theorem exists_safeRand (hle : t ≤ 2 ^ 31) (h18 : t ≠ 2 ^ 31 - 18) (h20 : t ≠ 2 ^ 31 - 20)
    (hj : j < t) : ∃ raw < rawRange, safeRand t raw = j := by
  refine ⟨firstReaching t j, safeRand_firstReaching hj hle ?_⟩
  rcases slack_succ (Nat.lt_of_lt_of_le hj hle) with heq | ⟨e, he, rfl⟩
  · exact firstReaching_lt hj (by omega)
  · rcases Nat.lt_or_ge (2147483648 - t) 256 with hnear | hfar
    · have hpower := firstReaching_power (2147483648 - t) hnear (by omega) (by omega) e (by omega)
      rwa [show 2147483648 - (2147483648 - t) = t by omega] at hpower
    · refine firstReaching_lt hj ?_
      have hslack : slack (2 ^ (22 + e) + 1) = 2 ^ e :=
        slack_of_lt (Nat.lt_succ_self _) (Nat.pow_lt_pow_right (by decide) (Nat.lt_succ_self _))
      have hpow : 2 ^ e ≤ 2 ^ 8 := Nat.pow_le_pow_right (by decide) he
      omega

theorem safeRand_skips (h : t = 2 ^ 31 - 18 ∨ t = 2 ^ 31 - 20) : safeRand t raw ≠ 2 ^ 30 := by
  intro heq
  have hslack : slack (2 ^ 30) = 128 := by decide +kernel
  have hslack' : slack (2 ^ 30 + 1) = 256 := by decide +kernel
  obtain ⟨hlow, hhigh⟩ := (safeRand_eq_iff (by decide)).mp heq
  rw [hslack] at hlow
  rw [hslack'] at hhigh
  rcases h with rfl | rfl
  · omega
  · omega

end

end UnixCommons.Generics.RandomSelect
