import Mathlib.Algebra.Order.Ring.Nat
import Mathlib.Tactic.Ring
import UnixCommons.Generics.Decimal
import UnixCommons.Lib.Digits

/-! # 十進数の補題 -/

/-! ## 要素と桁数の補題 -/

namespace UnixCommons.Generics

open Lib

variable {e : Element} {p : Params} {x y z d : Nat}

theorem assert_spec {c : Bool} {Q : PUnit → Prop} {E : Fault → Prop} (hc : c = true) (h : Q .unit) :
    Returns (assert c) Q E := by
  rw [assert, if_pos hc]
  exact Returns.pure h

theorem Element.base_pos : 0 < e.base := Nat.pow_pos (by decide)

theorem Element.digitsPerElement_pos : 0 < e.digitsPerElement := by cases e <;> decide

theorem Element.two_base_le : 2 * e.base ≤ e.modulus := by cases e <;> decide

theorem Element.base_half : 2 * (e.base / 2) = e.base := by cases e <;> decide

theorem Element.four_le_base : 4 ≤ e.base := by cases e <;> decide

theorem Element.cast_of_lt (h : x < e.modulus) : e.cast x = x := Nat.mod_eq_of_lt h

theorem Element.cast_of_lt_base (h : x < 2 * e.base) : e.cast x = x :=
  Element.cast_of_lt (Nat.lt_of_lt_of_le h Element.two_base_le)

theorem Element.sub_of_le (h : y ≤ x) (hx : x < e.modulus) : e.sub x y = x - y := by
  unfold Element.sub Element.cast
  rw [show x + (e.modulus - y) = x - y + e.modulus by omega, Nat.add_mod_right, Nat.mod_eq_of_lt (by omega)]

theorem Element.sub_of_le_base (h : y ≤ x) (hx : x < 2 * e.base) : e.sub x y = x - y :=
  Element.sub_of_le h (Nat.lt_of_lt_of_le hx Element.two_base_le)

theorem Element.narrow_fits (h : e.isNarrow = true) : e.base * e.base < 2 ^ 64 := by
  revert h
  cases e <;> decide

theorem DecimalHelper.mul_eq (hx : x < e.base) (hy : y < e.base) :
    DecimalHelper.mul e.isNarrow x y e.base = (x * y / e.base, x * y % e.base) := by
  unfold DecimalHelper.mul
  split
  · next h =>
    have hlt : x * y < 2 ^ 64 := Nat.lt_trans (Nat.mul_lt_mul'' hx hy) (Element.narrow_fits h)
    simp only [Nat.mod_eq_of_lt hlt]
  · rfl

theorem Element.mulElements_spec (hx : x < e.base) (hy : y < e.base) :
    (e.mulElements x y).1 + e.base * (e.mulElements x y).2 = x * y ∧ (e.mulElements x y).1 < e.base ∧
      (e.mulElements x y).2 < e.base := by
  have hr : x * y % e.base < e.base := Nat.mod_lt _ Element.base_pos
  have hq : x * y / e.base < e.base := Nat.div_lt_of_lt_mul (Nat.mul_lt_mul'' hx hy)
  have hm : e.mulElements x y = (x * y % e.base, x * y / e.base) := by
    unfold Element.mulElements
    rw [DecimalHelper.mul_eq hx hy]
    dsimp only
    rw [Element.cast_of_lt_base (by omega), Element.cast_of_lt_base (by omega)]
  rw [hm]
  exact ⟨Nat.mod_add_div _ _, hr, hq⟩

theorem DecimalHelper.div_eq (hx : x < e.base) (hy : y < e.base) :
    DecimalHelper.div e.isNarrow x y e.base d = ((x * e.base + y) / d, (x * e.base + y) % d) := by
  unfold DecimalHelper.div
  split
  · next h =>
    have hlt : x * e.base + y < 2 ^ 64 := by
      refine Nat.lt_trans ?_ (Element.narrow_fits h)
      calc x * e.base + y < (x + 1) * e.base := by rw [Nat.succ_mul]; omega
        _ ≤ e.base * e.base := Nat.mul_le_mul_right _ hx
    simp only [Nat.mod_eq_of_lt hlt]
  · rfl

theorem Element.divElements_spec (hx : x < d) (hy : y < e.base) (hd : d ≤ e.base) :
    x * e.base + y = d * (e.divElements x y d).1 + (e.divElements x y d).2 ∧
      (e.divElements x y d).1 < e.base ∧ (e.divElements x y d).2 < d := by
  have hlt : x * e.base + y < d * e.base :=
    calc x * e.base + y < (x + 1) * e.base := by rw [Nat.succ_mul]; omega
      _ ≤ d * e.base := Nat.mul_le_mul_right _ hx
  have hq : (x * e.base + y) / d < e.base := Nat.div_lt_of_lt_mul hlt
  have hr : (x * e.base + y) % d < d := Nat.mod_lt _ (by omega)
  have hm : e.divElements x y d = ((x * e.base + y) / d, (x * e.base + y) % d) := by
    unfold Element.divElements
    rw [DecimalHelper.div_eq (by omega) hy]
    dsimp only
    rw [Element.cast_of_lt_base (by omega), Element.cast_of_lt_base (by omega)]
  rw [hm]
  exact ⟨(Nat.div_add_mod _ _).symm, hq, hr⟩

theorem pow_ceil {s n d : Nat} (hn : 0 < n) (h : n ≤ s * d) (h' : s * d < n + d) :
    (10 ^ d) ^ (s - 1) * 10 ^ (d - (s * d - n)) = 10 ^ n := by
  rw [← Nat.pow_mul, ← Nat.pow_add]
  congr 1
  cases s with
  | zero =>
      rw [Nat.zero_mul] at h
      omega
  | succ s =>
      rw [Nat.succ_mul] at h h' ⊢
      rw [Nat.add_sub_cancel, Nat.mul_comm d s]
      omega

theorem Params.digitsPerElement_pos : 0 < p.digitsPerElement := Element.digitsPerElement_pos

theorem Params.base_pos : 0 < p.base := Element.base_pos

theorem Params.one_lt_base : 1 < p.base := Nat.lt_of_lt_of_le (by decide) (Element.four_le_base (e := p.element))

theorem Params.base_eq : p.base = 10 ^ p.digitsPerElement := rfl

theorem Params.size_spec : p.total ≤ p.size * p.digitsPerElement ∧
    p.size * p.digitsPerElement < p.total + p.digitsPerElement := by
  have hd : 0 < p.digitsPerElement := Params.digitsPerElement_pos
  have h1 := Nat.div_add_mod (p.total + p.digitsPerElement - 1) p.digitsPerElement
  have h2 := Nat.mod_lt (p.total + p.digitsPerElement - 1) hd
  rw [show (p.total + p.digitsPerElement - 1) / p.digitsPerElement = p.size from rfl, Nat.mul_comm] at h1
  omega

theorem Params.size_pos : 0 < p.size := by
  by_contra h
  have h0 : p.size = 0 := by omega
  have h1 := (Params.size_spec (p := p)).1
  have h2 := p.total_pos
  rw [h0] at h1
  omega

theorem Params.pow_total : p.base ^ (p.size - 1) * p.integerMaxOver = 10 ^ p.total :=
  pow_ceil p.total_pos Params.size_spec.1 Params.size_spec.2

theorem Params.integerMaxOver_le : p.integerMaxOver ≤ p.base := Nat.pow_le_pow_right (by decide) (Nat.sub_le _ _)

theorem Params.pow_total_le : 10 ^ p.total ≤ p.base ^ p.size := by
  rw [← Params.pow_total]
  calc p.base ^ (p.size - 1) * p.integerMaxOver ≤ p.base ^ (p.size - 1) * p.base :=
        Nat.mul_le_mul_left _ Params.integerMaxOver_le
    _ = p.base ^ p.size := by
        rw [← Nat.pow_succ, Nat.succ_eq_add_one, Nat.sub_add_cancel Params.size_pos]

theorem Params.pow_fraction : p.fractionRemainder * p.base ^ p.fractionEnd = 10 ^ p.fraction := by
  unfold Params.fractionRemainder Params.fractionEnd
  rw [Params.base_eq, ← Nat.pow_mul, ← Nat.pow_add]
  congr 1
  exact Nat.mod_add_div _ _

theorem Params.remainder_mul_over : p.fractionRemainder * p.fractionOver = p.base := by
  have h := Nat.mod_lt p.fraction (Params.digitsPerElement_pos (p := p))
  unfold Params.fractionRemainder Params.fractionOver
  rw [← Nat.pow_add, Params.base_eq]
  congr 1
  omega

theorem Params.fractionRemainder_pos : 0 < p.fractionRemainder := Nat.pow_pos (by decide)

theorem Params.fractionOver_pos : 0 < p.fractionOver := Nat.pow_pos (by decide)

theorem Params.fractionRemainder_eq_one : p.fractionRemainder = 1 ↔ p.fraction % p.digitsPerElement = 0 := by
  unfold Params.fractionRemainder
  constructor
  · intro h
    rcases Nat.pow_eq_one.mp h with h | h
    · omega
    · exact h
  · intro h
    rw [h, Nat.pow_zero]

theorem ceil_spec {n d : Nat} (hd : 0 < d) :
    n ≤ (n / d + if n % d ≠ 0 then 1 else 0) * d ∧ (n / d + if n % d ≠ 0 then 1 else 0) * d < n + d := by
  have h1 := Nat.div_add_mod n d
  have h2 := Nat.mod_lt n hd
  rw [Nat.mul_comm] at h1
  split
  · rw [Nat.succ_mul]
    omega
  · rw [Nat.add_zero]
    omega

theorem Params.tmpTotalRank_eq : p.tmpTotalRank = p.total + p.fraction := by
  have := p.fraction_le
  unfold Params.tmpTotalRank Ranks.integer
  omega

theorem Params.tmpSize_spec : p.total + p.fraction ≤ p.tmpSize * p.digitsPerElement ∧
    p.tmpSize * p.digitsPerElement < p.total + p.fraction + p.digitsPerElement := by
  have h : _ ≤ p.tmpSize * p.digitsPerElement ∧ p.tmpSize * p.digitsPerElement < _ :=
    ceil_spec (n := p.tmpTotalRank) (Params.digitsPerElement_pos (p := p))
  rwa [Params.tmpTotalRank_eq] at h

theorem Params.pow_tmpTotal : p.base ^ (p.tmpSize - 1) * p.tmpIntegerMaxOver = 10 ^ (p.total + p.fraction) := by
  unfold Params.tmpIntegerMaxOver
  rw [Params.tmpTotalRank_eq]
  exact pow_ceil (Nat.add_pos_left p.total_pos _) Params.tmpSize_spec.1 Params.tmpSize_spec.2

theorem Params.pow_tmpTotal_le : 10 ^ (p.total + p.fraction) ≤ p.base ^ p.tmpSize := by
  rw [Params.base_eq, ← Nat.pow_mul, Nat.mul_comm]
  exact Nat.pow_le_pow_right (by decide) Params.tmpSize_spec.1

theorem Params.divTmpSize_eq : p.divTmpSize = p.tmpSize + 1 := by
  have hd := Params.digitsPerElement_pos (p := p)
  show (p.tmpTotalRank + p.digitsPerElement) / p.digitsPerElement + _ = _
  unfold Params.tmpSize
  rw [Nat.add_div_right _ hd, show p.divTmpTotalRank % p.digitsPerElement = p.tmpTotalRank % p.digitsPerElement from
    Nat.add_mod_right _ _]
  omega

theorem Params.tmpSize_eq : p.fractionRemainder = 1 ∧ p.tmpSize = p.fractionEnd + p.size ∨
    p.fractionRemainder ≠ 1 ∧ (p.tmpSize = p.fractionEnd + p.size ∨ p.tmpSize = p.fractionEnd + p.size + 1) := by
  have hd := Params.digitsPerElement_pos (p := p)
  have hf := Nat.div_add_mod p.fraction p.digitsPerElement
  have hlt := Nat.mod_lt p.fraction hd
  rw [show p.fraction / p.digitsPerElement = p.fractionEnd from rfl, Nat.mul_comm] at hf
  have hs := Params.size_spec (p := p)
  have ht := Params.tmpSize_spec (p := p)
  have key : ∀ n, n * p.digitsPerElement < p.tmpSize * p.digitsPerElement → n < p.tmpSize := fun n h =>
    Nat.lt_of_mul_lt_mul_right h
  have key' : ∀ n, p.tmpSize * p.digitsPerElement < n * p.digitsPerElement → p.tmpSize < n := fun n h =>
    Nat.lt_of_mul_lt_mul_right h
  have hlow : p.fractionEnd + p.size ≤ p.tmpSize := by
    have := key (p.fractionEnd + p.size - 1) (by
      rw [Nat.sub_one_mul, Nat.add_mul]
      have := p.total_pos
      omega)
    have := Params.size_pos (p := p)
    omega
  have hup : p.tmpSize < p.fractionEnd + p.size + 2 := by
    refine key' _ ?_
    rw [Nat.add_mul, Nat.add_mul]
    omega
  by_cases h1 : p.fractionRemainder = 1
  · refine Or.inl ⟨h1, ?_⟩
    have h0 := Params.fractionRemainder_eq_one.mp h1
    have : p.tmpSize < p.fractionEnd + p.size + 1 := by
      refine key' _ ?_
      rw [Nat.add_mul, Nat.add_mul]
      omega
    omega
  · exact Or.inr ⟨h1, by omega⟩

end UnixCommons.Generics

/-! ## 値と、足し算、引き算、比較の補題 -/

namespace UnixCommons.Generics

open Lib

variable {p : Params} {d d' : Decimal} {a b : Nat → Nat} {n i : Nat}

def Decimal.magnitude (p : Params) (d : Decimal) : Nat := val p.base d.array p.size

def Decimal.value (p : Params) (d : Decimal) : Int := if d.negative then -d.magnitude p else d.magnitude p

/-- 要素が `BASE` より小さく、上の端の要素が `INTEGER_MAX_OVER` より小さい。 -/
structure Decimal.Valid (p : Params) (d : Decimal) : Prop where
  digit : ∀ i < p.size, d.array i < p.base
  last : d.array (p.size - 1) < p.integerMaxOver

theorem last_lt_iff (h : ∀ i < p.size, a i < p.base) :
    a (p.size - 1) < p.integerMaxOver ↔ val p.base a p.size < 10 ^ p.total := by
  have hs := Params.size_pos (p := p)
  have := val_lt_iff_digit_lt (x := p.integerMaxOver) (n := p.size - 1) fun i hi => h i (by omega)
  rw [Nat.sub_add_cancel hs, Params.pow_total] at this
  exact this.symm

theorem Decimal.Valid.magnitude_lt (h : d.Valid p) : d.magnitude p < 10 ^ p.total := (last_lt_iff h.digit).mp h.last

theorem Decimal.valid_of_magnitude_lt (hd : ∀ i < p.size, d.array i < p.base)
    (hm : d.magnitude p < 10 ^ p.total) : d.Valid p := ⟨hd, (last_lt_iff hd).mpr hm⟩

theorem Decimal.value_natAbs : (d.value p).natAbs = d.magnitude p := by
  unfold Decimal.value
  split
  · simp
  · simp

theorem all_range_iff {f : Nat → Bool} : (List.range n).all f = true ↔ ∀ i < n, f i = true := by
  simp [List.all_eq_true]

theorem Decimal.isZero_iff : d.isZero p = true ↔ d.magnitude p = 0 := by
  unfold Decimal.isZero Decimal.magnitude
  rw [all_range_iff, val_eq_zero_iff Params.base_pos]
  simp

theorem isLessThanLoop_spec {B : Nat} (ha : ∀ i ≤ n, a i < B) (hb : ∀ i ≤ n, b i < B) :
    (isLessThanLoop a b n).2 ≤ n ∧ (∀ j, (isLessThanLoop a b n).2 < j → j ≤ n → a j = b j) ∧
      ((isLessThanLoop a b n).1 = true →
        val B a ((isLessThanLoop a b n).2 + 1) < val B b ((isLessThanLoop a b n).2 + 1)) ∧
      ((isLessThanLoop a b n).1 = false →
        val B b ((isLessThanLoop a b n).2 + 1) ≤ val B a ((isLessThanLoop a b n).2 + 1)) := by
  induction n with
  | zero =>
      unfold isLessThanLoop
      split
      · next h => exact ⟨Nat.le_refl 0, fun j hj hj' => by omega, fun _ => by simpa [val] using h, by simp⟩
      · next h =>
        refine ⟨?_, ?_, ?_, ?_⟩
        · split <;> simp
        · split <;> intro j hj hj' <;> dsimp only at hj <;> omega
        · split <;> simp
        · split <;> simpa [val] using h
  | succ n ih =>
      unfold isLessThanLoop
      split
      · next h =>
        exact ⟨Nat.le_refl _, fun j hj hj' => by dsimp only at hj; omega,
          fun _ => val_lt_of_digit_lt (fun i hi => ha i (by omega)) h, by simp⟩
      · next h =>
        split
        · next h' =>
          exact ⟨Nat.le_refl _, fun j hj hj' => by dsimp only at hj; omega, by simp,
            fun _ => Nat.le_of_lt (val_lt_of_digit_lt (fun i hi => hb i (by omega)) h')⟩
        · next h' =>
          obtain ⟨h1, h2, h3, h4⟩ := ih (fun i hi => ha i (by omega)) (fun i hi => hb i (by omega))
          refine ⟨by omega, fun j hj hj' => ?_, h3, h4⟩
          by_cases hjn : j = n + 1
          · rw [hjn]
            omega
          · exact h2 j hj (by omega)

theorem Decimal.isLessThan_spec (h : ∀ i < p.size, d.array i < p.base)
    (h' : ∀ i < p.size, d'.array i < p.base) : (d.isLessThan p d').2 < p.size ∧
      (∀ j, (d.isLessThan p d').2 + 1 ≤ j → j < p.size → d.array j = d'.array j) ∧
      ((d.isLessThan p d').1 = true ↔ d.magnitude p < d'.magnitude p) := by
  have hs := Params.size_pos (p := p)
  obtain ⟨h1, h2, h3, h4⟩ := isLessThanLoop_spec (n := p.size - 1) (fun i hi => h i (by omega)) (fun i hi => h' i (by omega))
  have h2' : ∀ j, (d.isLessThan p d').2 + 1 ≤ j → j < p.size → d.array j = d'.array j := fun j hj hj' =>
    h2 j (by unfold Decimal.isLessThan at hj; omega) (by omega)
  have hk : (d.isLessThan p d').2 < p.size := by
    unfold Decimal.isLessThan
    omega
  have hsplit := val_add_eq_of_eq_above (B := p.base) (Nat.succ_le_of_lt hk) h2'
  refine ⟨hk, h2', ?_⟩
  unfold Decimal.magnitude
  cases hb : (d.isLessThan p d').1 with
  | true =>
      have : val p.base d.array ((d.isLessThan p d').2 + 1) < val p.base d'.array ((d.isLessThan p d').2 + 1) := h3 hb
      simp only [Nat.succ_eq_add_one] at hsplit
      simp only [true_iff]
      omega
  | false =>
      have : val p.base d'.array ((d.isLessThan p d').2 + 1) ≤ val p.base d.array ((d.isLessThan p d').2 + 1) := h4 hb
      simp only [Nat.succ_eq_add_one] at hsplit
      simp only [Bool.false_eq_true, false_iff]
      omega

theorem Decimal.Valid.array_eq (h : d.Valid p) (h' : d'.Valid p) (hm : d.magnitude p = d'.magnitude p) :
    ∀ i < p.size, d.array i = d'.array i := digits_eq_of_val_eq Params.base_pos h.digit h'.digit hm

theorem Decimal.eq_iff (h : d.Valid p) (h' : d'.Valid p) : d.eq p d' = true ↔ d.value p = d'.value p := by
  unfold Decimal.eq
  split
  · next hn =>
    have hm : d.value p = d'.value p ↔ d.magnitude p = d'.magnitude p := by
      unfold Decimal.value
      rw [hn]
      split <;> omega
    rw [all_range_iff, hm]
    simp only [beq_iff_eq]
    exact ⟨fun hi => val_congr hi, fun hm => h.array_eq h' hm⟩
  · next hn =>
    have hm : d.value p = d'.value p ↔ d.magnitude p = 0 ∧ d'.magnitude p = 0 := by
      unfold Decimal.value
      cases h1 : d.negative <;> cases h2 : d'.negative <;> simp_all
    rw [all_range_iff, hm]
    unfold Decimal.magnitude
    rw [val_eq_zero_iff Params.base_pos, val_eq_zero_iff Params.base_pos]
    simp only [Bool.and_eq_true, beq_iff_eq]
    exact ⟨fun hi => ⟨fun i hl => (hi i hl).1, fun i hl => (hi i hl).2⟩, fun hi i hl => ⟨hi.1 i hl, hi.2 i hl⟩⟩

theorem Decimal.lt_iff (h : d.Valid p) (h' : d'.Valid p) : d.lt p d' = true ↔ d.value p < d'.value p := by
  have h1 := (Decimal.isLessThan_spec h.digit h'.digit).2.2
  have h2 := (Decimal.isLessThan_spec h'.digit h.digit).2.2
  have hz : ∀ d : Decimal, (!d.isZero p) = true ↔ d.magnitude p ≠ 0 := by
    intro d
    rw [ne_eq, ← Decimal.isZero_iff]
    simp
  unfold Decimal.lt Decimal.value
  cases hn : d.negative <;> cases hn' : d'.negative
  · simpa using h1
  · simp
  · simp only [if_true, Bool.false_eq_true, if_false, Bool.or_eq_true, hz]
    omega
  · simpa using h2

end UnixCommons.Generics
