import UnixCommons.Generics.DecimalMul
import UnixCommons.Generics.Lemmas.Decimal

/-! # 掛け算の補題 -/

namespace UnixCommons.Generics

open Lib

variable {p : Params} {tmp array1 array2 : Nat → Nat} {X Y value index i j n overflow x f : Nat}

/-- 作業用の配列は `X` を表し、`X` は `TOTAL + FRACTION` 桁である。 -/
structure TmpHolds (p : Params) (tmp : Nat → Nat) (X : Nat) : Prop where
  digit : ∀ i < p.tmpSize, tmp i < p.base
  value : val p.base tmp p.tmpSize = X
  lt : X < 10 ^ (p.total + p.fraction)

theorem Params.tmpSize_pos : 0 < p.tmpSize := by
  have h := Params.size_pos (p := p)
  rcases Params.tmpSize_eq (p := p) with ⟨-, h'⟩ | ⟨-, h' | h'⟩ <;> omega

theorem tmp_last_lt_iff (h : ∀ i < p.tmpSize, tmp i < p.base) :
    tmp (p.tmpSize - 1) < p.tmpIntegerMaxOver ↔ val p.base tmp p.tmpSize < 10 ^ (p.total + p.fraction) := by
  have hs := Params.tmpSize_pos (p := p)
  have := val_lt_iff_digit_lt (x := p.tmpIntegerMaxOver) (n := p.tmpSize - 1) fun i hi => h i (by omega)
  rw [Nat.sub_add_cancel hs, Params.pow_tmpTotal] at this
  exact this.symm

/-! ## 足し込み -/

theorem addElement_spec (hx : x < p.base) (hv : value < 2 * p.base) :
    Returns (addElement p x value) (fun r => r.1 + p.base * r.2 = x + value ∧ r.1 < p.base ∧ r.2 ≤ 2) fun _ => False := by
  have hb := Element.two_base_le (e := p.element)
  rw [show p.element.base = p.base from rfl] at hb
  have hpos := Params.base_pos (p := p)
  unfold addElement
  refine Returns.ite (fun hc => ?_) (fun hc => ?_)
  · have hlt : x + value < p.element.modulus := by
      rcases hc with hc | hc
      · have h3 : 3 * p.base ≤ p.element.modulus - 1 := (Nat.le_div_iff_mul_le hpos).mp hc
        omega
      · omega
    rw [Element.add, Element.cast_of_lt hlt]
    refine Returns.ite (fun hge => Returns.pure ⟨Nat.mod_add_div _ _, Nat.mod_lt _ hpos, ?_⟩)
      (fun hge => Returns.pure ⟨by simp, by simpa using hge, by simp⟩)
    have : (x + value) / p.base < 3 := Nat.div_lt_of_lt_mul (by omega)
    dsimp only
    omega
  · have hm : ¬ p.element.modulus - 1 - value ≥ x := fun h => hc (Or.inr h)
    have hgt : value > p.base := by omega
    have hdm := Nat.mod_add_div value p.base
    have hq : value / p.base = 1 := by
      have h1 : value / p.base < 2 := Nat.div_lt_of_lt_mul (by omega)
      have h2 : 0 < value / p.base := Nat.div_pos (Nat.le_of_lt hgt) hpos
      omega
    rw [hq] at hdm
    have hmod := Nat.mod_lt value hpos
    refine Returns.bind ?_
    rw [assert, if_pos (decide_eq_true hgt)]
    refine Returns.pure ?_
    have hsum : p.element.add x (value % p.base) = x + value % p.base :=
      Element.cast_of_lt_base (by rw [show p.element.base = p.base from rfl]; omega)
    rw [hsum, hq]
    refine Returns.ite (fun hge => Returns.pure ?_) (fun hge => Returns.pure ?_)
    · rw [Element.sub_of_le_base hge (by rw [show p.element.base = p.base from rfl]; omega)]
      dsimp only
      omega
    · dsimp only
      omega

theorem carryLoop_spec (hn : i + n = p.tmpSize) (hd : ∀ j < p.tmpSize, tmp j < p.base)
    (ho : overflow ≤ 2) (hl : i < p.tmpSize → tmp (p.tmpSize - 1) < p.tmpIntegerMaxOver)
    (hX : val p.base tmp p.tmpSize + p.base ^ i * overflow = X) :
    ((carryLoop p tmp overflow i n).1 = false → TmpHolds p (carryLoop p tmp overflow i n).2 X) ∧
      ((carryLoop p tmp overflow i n).1 = true → 10 ^ (p.total + p.fraction) ≤ X) := by
  have hb := Element.four_le_base (e := p.element)
  rw [show p.element.base = p.base from rfl] at hb
  induction n generalizing tmp overflow i with
  | zero =>
      have hi : i = p.tmpSize := by omega
      subst hi
      have hlast := tmp_last_lt_iff hd
      have hle := Params.pow_tmpTotal_le (p := p)
      unfold carryLoop
      rcases Nat.eq_zero_or_pos overflow with rfl | hpos
      · rw [Nat.mul_zero, Nat.add_zero] at hX
        simp only [ne_eq, not_true_eq_false, decide_false, Bool.false_or, decide_eq_false_iff_not, decide_eq_true_eq]
        refine ⟨fun h => ⟨hd, hX, ?_⟩, fun h => ?_⟩
        · rw [← hX]
          exact hlast.mp (by omega)
        · rw [← hX, ← Nat.not_lt, ← hlast]
          omega
      · have h1 : p.base ^ p.tmpSize * 1 ≤ p.base ^ p.tmpSize * overflow := Nat.mul_le_mul_left _ hpos
        refine ⟨fun h => ?_, fun _ => by omega⟩
        simp at h
        omega
  | succ n ih =>
      have hi : i < p.tmpSize := by omega
      have hx : p.element.add (tmp i) overflow = tmp i + overflow := by
        have := hd i hi
        exact Element.cast_of_lt_base (by rw [show p.element.base = p.base from rfl]; omega)
      have hval := fun d => val_update (B := p.base) (a := tmp) (x := d) hi
      unfold carryLoop
      rw [hx]
      dsimp only
      split
      · next hlt =>
        have hd' := digits_update (i := i) hd hlt
        have hX' : val p.base (Function.update tmp i (tmp i + overflow)) p.tmpSize = X := by
          have := hval (tmp i + overflow)
          rw [Nat.add_mul] at this
          rw [Nat.mul_comm] at hX
          omega
        have hlast := tmp_last_lt_iff hd'
        rw [hX'] at hlast
        split
        · next hne =>
          refine ⟨fun _ => ⟨hd', hX', hlast.mp ?_⟩, by simp⟩
          rw [Function.update_of_ne (Ne.symm hne)]
          exact hl hi
        · next heq =>
          simp only [decide_eq_false_iff_not, decide_eq_true_eq]
          refine ⟨fun h => ⟨hd', hX', hlast.mp (by omega)⟩, fun h => ?_⟩
          rw [← Nat.not_lt, ← hlast]
          omega
      · next hge =>
        have hdi := hd i hi
        rw [Element.sub_of_le_base (by omega) (by rw [show p.element.base = p.base from rfl]; omega)]
        refine ih (by omega) (digits_update hd (by omega)) (by omega) (fun hlt => ?_) ?_
        · rw [Function.update_of_ne (by omega)]
          exact hl hi
        · have h1 := hval (tmp i + overflow - p.base)
          have h2 : (tmp i + overflow - p.base) * p.base ^ i + p.base ^ (i + 1) * 1 =
              tmp i * p.base ^ i + p.base ^ i * overflow := by
            rw [Nat.mul_one, Nat.pow_succ, Nat.mul_comm (p.base ^ i) p.base, ← Nat.add_mul,
              Nat.mul_comm (p.base ^ i), ← Nat.add_mul]
            congr 1
            omega
          omega

theorem MulTmpArray.add_spec (h : TmpHolds p tmp X) (hv : value < 2 * p.base) :
    Returns (MulTmpArray.add p value index tmp)
      (fun r => (r.1 = false → TmpHolds p r.2 (X + value * p.base ^ index)) ∧
        (r.1 = true → p.tmpSize ≤ index ∨ 10 ^ (p.total + p.fraction) ≤ X + value * p.base ^ index))
      (fun _ => False) := by
  unfold MulTmpArray.add
  refine Returns.ite (fun hge => Returns.pure ⟨by simp, fun _ => Or.inl hge⟩) (fun hlt => ?_)
  have hi : index < p.tmpSize := by omega
  refine Returns.bind ((addElement_spec (h.digit index hi) hv).mono ?_ fun _ h => h)
  rintro ⟨x, c⟩ ⟨hsum, hx, hc⟩
  have hval := val_update (B := p.base) (a := tmp) (x := x) hi
  have hX : val p.base (Function.update tmp index x) p.tmpSize + p.base ^ (index + 1) * c = X + value * p.base ^ index := by
    have hstep : x * p.base ^ index + p.base ^ (index + 1) * c = (tmp index + value) * p.base ^ index := by
      rw [← hsum]
      ring
    rw [Nat.add_mul] at hstep
    have := h.value
    omega
  have hspec := carryLoop_spec (i := index + 1) (n := p.tmpSize - (index + 1)) (by omega) (digits_update h.digit hx) hc
    (fun hlast => ?_) hX
  · exact Returns.pure ⟨hspec.1, fun ht => Or.inr (hspec.2 ht)⟩
  · rw [Function.update_of_ne (by omega)]
    refine (tmp_last_lt_iff h.digit).mpr ?_
    rw [h.value]
    exact h.lt

theorem addOrThrow_spec (h : TmpHolds p tmp X) (hv : value < 2 * p.base) :
    Returns (addOrThrow p value index tmp) (fun tmp' => TmpHolds p tmp' (X + value * p.base ^ index))
      (fun e => e = .overflow ∧ (p.tmpSize ≤ index ∨ 10 ^ (p.total + p.fraction) ≤ X + value * p.base ^ index)) := by
  unfold addOrThrow
  refine Returns.bind ((MulTmpArray.add_spec h hv).mono ?_ fun _ h => h.elim)
  rintro ⟨exceeds, tmp'⟩ ⟨h1, h2⟩
  exact Returns.ite (fun he => Returns.throw ⟨rfl, h2 he⟩) (fun he => Returns.pure (h1 (by simpa using he)))

theorem pow_tmpTotal_le_of_index (hi : p.tmpSize ≤ index) (hv : 0 < value) :
    10 ^ (p.total + p.fraction) ≤ value * p.base ^ index :=
  calc 10 ^ (p.total + p.fraction) ≤ p.base ^ p.tmpSize := Params.pow_tmpTotal_le
    _ ≤ p.base ^ index := Nat.pow_le_pow_right Params.base_pos hi
    _ ≤ value * p.base ^ index := Nat.le_mul_of_pos_left _ hv

/-! ## 一段の積 -/

def RowInv (p : Params) (array1 : Nat → Nat) (f i Y j : Nat) (s : (Nat → Nat) × Nat) : Prop :=
  ∃ X, TmpHolds p s.1 X ∧ s.2 < p.base ∧
    X + s.2 * p.base ^ (i + j) = Y + val p.base array1 j * f * p.base ^ i

theorem RowInv.step {s : (Nat → Nat) × Nat} (h : RowInv p array1 f i Y j s) (ha : array1 j < p.base)
    (hf : f < p.base) (hf0 : f ≠ 0) (hj : j < n) :
    Returns (mulBody p array1 f i j s) (RowInv p array1 f i Y (j + 1))
      (fun e => e = .overflow ∧ 10 ^ (p.total + p.fraction) ≤ Y + val p.base array1 n * f * p.base ^ i) := by
  obtain ⟨tmp, c⟩ := s
  obtain ⟨X, hX, hc, heq⟩ := h
  have hmono : val p.base array1 (j + 1) * f * p.base ^ i ≤ val p.base array1 n * f * p.base ^ i :=
    Nat.mul_le_mul_right _ (Nat.mul_le_mul_right _ (val_le hj))
  have hsucc : val p.base array1 (j + 1) * f * p.base ^ i =
      val p.base array1 j * f * p.base ^ i + array1 j * f * p.base ^ (i + j) := by
    rw [val_succ, Nat.pow_add]
    ring
  unfold mulBody
  dsimp only at hX hc heq ⊢
  refine Returns.ite (fun hne => ?_) (fun hz => Returns.ite (fun hc0 => ?_) (fun hc0 => Returns.pure ?_))
  · obtain ⟨hmul, hres, hover⟩ := Element.mulElements_spec (e := p.element) ha hf
    generalize p.element.mulElements (array1 j) f = r at hmul hres hover
    obtain ⟨res, overElement⟩ := r
    dsimp only at hmul hres hover ⊢
    rw [show p.element.base = p.base from rfl] at hmul hres hover
    have hsum : p.element.add res c = res + c :=
      Element.cast_of_lt_base (by rw [show p.element.base = p.base from rfl]; omega)
    have hstep : X + (res + c) * p.base ^ (i + j) + overElement * p.base ^ (i + (j + 1)) =
        Y + val p.base array1 (j + 1) * f * p.base ^ i := by
      rw [hsucc, ← hmul, ← Nat.add_assoc i j 1, Nat.pow_succ]
      calc X + (res + c) * p.base ^ (i + j) + overElement * (p.base ^ (i + j) * p.base)
          = X + c * p.base ^ (i + j) + (res + p.base * overElement) * p.base ^ (i + j) := by ring
        _ = _ := by rw [heq]; ring
    rw [hsum]
    refine Returns.bind ((addOrThrow_spec hX (by omega)).mono ?_ ?_)
    · exact fun tmp' htmp => Returns.pure ⟨_, htmp, hover, hstep⟩
    · rintro e ⟨he, hi | hi⟩
      · have hpos : 0 < array1 j * f := Nat.mul_pos (by omega) (by omega)
        have := pow_tmpTotal_le_of_index hi hpos
        exact ⟨he, by omega⟩
      · exact ⟨he, by omega⟩
  · have hj0 : array1 j = 0 := by omega
    have hstep : X + c * p.base ^ (i + j) = Y + val p.base array1 (j + 1) * f * p.base ^ i := by
      rw [hsucc, hj0, heq]
      ring
    refine Returns.bind ((addOrThrow_spec hX (by omega)).mono ?_ ?_)
    · intro tmp' htmp
      refine Returns.pure ⟨_, htmp, Params.base_pos, ?_⟩
      dsimp only
      rw [Nat.zero_mul, Nat.add_zero]
      exact hstep
    · rintro e ⟨he, hi | hi⟩
      · have := pow_tmpTotal_le_of_index hi (Nat.pos_of_ne_zero hc0)
        exact ⟨he, by omega⟩
      · exact ⟨he, by omega⟩
  · have hj0 : array1 j = 0 := by omega
    have hc0 : c = 0 := by omega
    refine ⟨X, hX, hc, ?_⟩
    rw [hc0, Nat.zero_mul, Nat.add_zero] at heq ⊢
    rw [hsucc, hj0, heq]
    ring

theorem mulRow_spec (hX : TmpHolds p tmp Y) (ha : ∀ j < p.size, array1 j < p.base)
    (hf : array2 i < p.base) : Returns (mulRow p array1 array2 i tmp)
      (fun tmp' => TmpHolds p tmp' (Y + val p.base array1 p.size * array2 i * p.base ^ i))
      (fun e => e = .overflow ∧
        10 ^ (p.total + p.fraction) ≤ Y + val p.base array1 p.size * array2 i * p.base ^ i) := by
  unfold mulRow
  refine Returns.ite (fun h0 => Returns.pure ?_) (fun h0 => ?_)
  · rw [h0, Nat.mul_zero, Nat.zero_mul, Nat.add_zero]
    exact hX
  · have hrow := Returns.forUpM (P := RowInv p array1 (array2 i) i Y) (n := p.size) (s := (tmp, 0))
      ⟨Y, hX, Params.base_pos, by simp⟩ fun j s hj h => h.step (ha j hj) hf h0 hj
    refine Returns.bind (hrow.mono ?_ fun _ h => h)
    rintro ⟨tmp', c⟩ ⟨X, hX', hc, heq⟩
    dsimp only at hX' hc heq ⊢
    refine Returns.ite (fun hc0 => ?_) (fun hc0 => Returns.pure ?_)
    · rw [← heq]
      refine (addOrThrow_spec hX' (by omega)).mono (fun _ h => h) ?_
      rintro e ⟨he, hi | hi⟩
      · have := pow_tmpTotal_le_of_index hi (Nat.pos_of_ne_zero hc0)
        exact ⟨he, by omega⟩
      · exact ⟨he, hi⟩
    · rw [← heq, show c = 0 by omega, Nat.zero_mul, Nat.add_zero]
      exact hX'

theorem product_spec (h1 : ∀ j < p.size, array1 j < p.base) (h2 : ∀ j < p.size, array2 j < p.base) :
    Returns (forUpM (mulRow p array1 array2) p.size fun _ => 0)
      (fun tmp => TmpHolds p tmp (val p.base array1 p.size * val p.base array2 p.size))
      (fun e => e = .overflow ∧
        10 ^ (p.total + p.fraction) ≤ val p.base array1 p.size * val p.base array2 p.size) := by
  refine Returns.forUpM (P := fun i tmp => TmpHolds p tmp (val p.base array1 p.size * val p.base array2 i))
    ⟨fun _ _ => Params.base_pos, val_const_zero, Nat.pow_pos (by decide)⟩ fun i tmp hi h => ?_
  have hsucc : val p.base array1 p.size * val p.base array2 (i + 1) =
      val p.base array1 p.size * val p.base array2 i + val p.base array1 p.size * array2 i * p.base ^ i := by
    rw [val_succ]
    ring
  have hle : val p.base array1 p.size * val p.base array2 (i + 1) ≤
      val p.base array1 p.size * val p.base array2 p.size := Nat.mul_le_mul_left _ (val_le hi)
  refine (mulRow_spec h h1 (h2 i hi)).mono (fun tmp' h' => ?_) ?_
  · rw [hsucc]
    exact h'
  · rintro e ⟨he, hi'⟩
    exact ⟨he, by omega⟩

/-! ## 丸め -/

def Params.roundingIndex (p : Params) : Nat := (p.fraction - 1) / p.digitsPerElement

theorem Params.fractionEnd_lt_tmpSize : p.fractionEnd < p.tmpSize := by
  have h := Params.size_pos (p := p)
  rcases Params.tmpSize_eq (p := p) with ⟨-, h'⟩ | ⟨-, h' | h'⟩ <;> omega

theorem TmpHolds.rounding_digit (h : TmpHolds p tmp X) (hF : p.fraction ≠ 0) :
    ∃ q R l, 10 ^ p.fraction = p.base ^ p.roundingIndex * R ∧ 2 * (R / 2) = R ∧
      X % 10 ^ p.fraction = l + p.base ^ p.roundingIndex * q ∧ l < p.base ^ p.roundingIndex ∧
      ((if p.fractionRemainder = 1 then tmp (p.fractionEnd - 1) ≥ p.base / 2
        else tmp p.fractionEnd % p.fractionRemainder ≥ p.fractionRemainder / 2) ↔ R / 2 ≤ q) ∧
      ((if p.fractionRemainder = 1 then tmp (p.fractionEnd - 1) ≠ 0
        else tmp p.fractionEnd % p.fractionRemainder ≠ 0) ↔ 1 ≤ q) := by
  have hd := Params.digitsPerElement_pos (p := p)
  have hlt := Params.fractionEnd_lt_tmpSize (p := p)
  have hdm := Nat.div_add_mod p.fraction p.digitsPerElement
  have hml := Nat.mod_lt p.fraction hd
  rw [show p.fraction / p.digitsPerElement = p.fractionEnd from rfl] at hdm
  rw [← Params.pow_fraction, ← h.value]
  by_cases h1 : p.fractionRemainder = 1
  · have h0 := Params.fractionRemainder_eq_one.mp h1
    have hE : 0 < p.fractionEnd := by
      rcases Nat.eq_zero_or_pos p.fractionEnd with hz | hz
      · rw [hz, Nat.mul_zero] at hdm
        omega
      · exact hz
    have hk : p.roundingIndex = p.fractionEnd - 1 := by
      refine Nat.div_eq_of_lt_le ?_ ?_
      · rw [Nat.sub_one_mul, Nat.mul_comm]
        omega
      · rw [Nat.sub_add_cancel hE, Nat.mul_comm]
        omega
    have hs : p.fractionEnd = p.roundingIndex + 1 := by omega
    refine ⟨tmp p.roundingIndex, p.base, val p.base tmp p.roundingIndex, ?_, Element.base_half, ?_,
      val_lt fun i hi => h.digit i (by omega), ?_, ?_⟩
    · rw [h1, Nat.one_mul, hs, Nat.pow_succ]
    · rw [h1, Nat.one_mul, val_mod (fun i hi => h.digit i (by omega)) (Nat.le_of_lt hlt),
        hs, val_succ, Nat.mul_comm (tmp _)]
    · rw [if_pos h1, hk]
    · rw [if_pos h1, hk]
      omega
  · have h0 := mt Params.fractionRemainder_eq_one.mpr h1
    have hk : p.roundingIndex = p.fractionEnd := by
      refine Nat.div_eq_of_lt_le ?_ ?_
      · rw [Nat.mul_comm]
        omega
      · rw [Nat.succ_mul, Nat.mul_comm]
        omega
    have hshift : val p.base tmp p.tmpSize / p.base ^ p.fractionEnd % p.fractionRemainder =
        tmp p.fractionEnd % p.fractionRemainder := by
      obtain ⟨n, hn⟩ : ∃ n, p.tmpSize = p.fractionEnd + (n + 1) := ⟨p.tmpSize - p.fractionEnd - 1, by omega⟩
      rw [hn, val_div Params.base_pos fun i hi => h.digit i (by omega), val_succ_left,
        ← Params.remainder_mul_over, Nat.mul_assoc, Nat.add_mul_mod_self_left, Nat.add_zero]
    refine ⟨tmp p.fractionEnd % p.fractionRemainder, p.fractionRemainder,
      val p.base tmp p.fractionEnd, ?_, ?_, ?_, ?_, ?_, ?_⟩
    · rw [hk, Nat.mul_comm]
    · obtain ⟨j, hj⟩ : ∃ j, p.fraction % p.digitsPerElement = j + 1 := ⟨p.fraction % p.digitsPerElement - 1, by omega⟩
      unfold Params.fractionRemainder
      rw [hj, Nat.pow_succ]
      omega
    · rw [Nat.mul_comm p.fractionRemainder, Nat.mod_mul, hshift,
        val_mod (fun i hi => h.digit i (by omega)) (Nat.le_of_lt hlt), hk]
    · rw [hk]
      exact val_lt fun i hi => h.digit i (by omega)
    · rw [if_neg h1]
    · rw [if_neg h1]
      omega

def RoundsUp (p : Params) (dmr : DecimalMulRemainder) (X : Nat) : Prop :=
  p.fraction ≠ 0 ∧
    match dmr with
    | .floor => False
    | .round => 10 ^ p.fraction / 2 ≤ X % 10 ^ p.fraction
    | .ceil => p.base ^ p.roundingIndex ≤ X % 10 ^ p.fraction

instance : (dmr : DecimalMulRemainder) → Decidable (RoundsUp p dmr X)
  | .floor => inferInstanceAs (Decidable (p.fraction ≠ 0 ∧ False))
  | .round => inferInstanceAs (Decidable (p.fraction ≠ 0 ∧ 10 ^ p.fraction / 2 ≤ X % 10 ^ p.fraction))
  | .ceil => inferInstanceAs (Decidable (p.fraction ≠ 0 ∧ p.base ^ p.roundingIndex ≤ X % 10 ^ p.fraction))

theorem addFraction_spec (h : TmpHolds p tmp X) :
    Returns (MulTmpArray.add p p.fractionRemainder p.fractionEnd tmp)
      (fun r => (r.1 = false → TmpHolds p r.2 (X + 10 ^ p.fraction)) ∧
        (r.1 = true → 10 ^ (p.total + p.fraction) ≤ X + 10 ^ p.fraction))
      (fun _ => False) := by
  have hv : p.fractionRemainder < 2 * p.base := by
    have h1 := Nat.le_mul_of_pos_right p.fractionRemainder (Params.fractionOver_pos (p := p))
    have h2 := Params.base_pos (p := p)
    rw [Params.remainder_mul_over] at h1
    omega
  refine (MulTmpArray.add_spec h hv).mono ?_ fun _ h => h
  rintro r ⟨h1, h2⟩
  rw [Params.pow_fraction] at h1 h2
  refine ⟨h1, fun ht => (h2 ht).resolve_left ?_⟩
  have := Params.fractionEnd_lt_tmpSize (p := p)
  omega

theorem roundOrThrow_spec {dmr : DecimalMulRemainder} (h : TmpHolds p tmp X) :
    Returns (roundOrThrow p dmr tmp)
      (fun tmp' => TmpHolds p tmp' (X + if RoundsUp p dmr X then 10 ^ p.fraction else 0))
      (fun e => e = .overflow ∧ RoundsUp p dmr X ∧ 10 ^ (p.total + p.fraction) ≤ X + 10 ^ p.fraction) := by
  -- どちらの丸めも、検査が通れば `10 ^ FRACTION` を足す。
  have hboth : ∀ (c : Prop) [Decidable c], (c ↔ RoundsUp p dmr X) →
      Returns (if c then MulTmpArray.add p p.fractionRemainder p.fractionEnd tmp else return (false, tmp))
        (fun r => (r.1 = false → TmpHolds p r.2 (X + if RoundsUp p dmr X then 10 ^ p.fraction else 0)) ∧
          (r.1 = true → RoundsUp p dmr X ∧ 10 ^ (p.total + p.fraction) ≤ X + 10 ^ p.fraction))
        (fun _ => False) := by
    intro c _ hc
    refine Returns.ite (fun hp => ?_) (fun hp => Returns.pure ?_)
    · refine (addFraction_spec h).mono ?_ fun _ h => h
      rintro r ⟨h1, h2⟩
      rw [if_pos (hc.mp hp)]
      exact ⟨h1, fun ht => ⟨hc.mp hp, h2 ht⟩⟩
    · rw [if_neg (mt hc.mpr hp)]
      exact ⟨fun _ => h, by simp⟩
  unfold roundOrThrow
  refine Returns.ite (fun ⟨hF, hr⟩ => Returns.bind ?_) (fun hr => Returns.pure ?_)
  · obtain ⟨q, R, l, hpow, hR, hmod, hl, hround, hceil⟩ := h.rounding_digit hF
    have hhalf : 10 ^ p.fraction / 2 = p.base ^ p.roundingIndex * (R / 2) := by
      rw [hpow, ← hR, Nat.mul_div_cancel_left _ (by decide), ← Nat.mul_assoc, Nat.mul_comm _ 2,
        Nat.mul_assoc, Nat.mul_div_cancel_left _ (by decide)]
    have hup : Returns (if dmr = .round then MulTmpArray.round p tmp else MulTmpArray.ceil p tmp)
        (fun r => (r.1 = false → TmpHolds p r.2 (X + if RoundsUp p dmr X then 10 ^ p.fraction else 0)) ∧
          (r.1 = true → RoundsUp p dmr X ∧ 10 ^ (p.total + p.fraction) ≤ X + 10 ^ p.fraction))
        (fun _ => False) := by
      cases dmr with
      | floor => exact absurd rfl hr
      | round =>
          refine hboth _ (hround.trans ?_)
          rw [RoundsUp, hhalf, hmod, mul_le_add_mul_iff hl]
          exact ⟨fun h => ⟨hF, h⟩, fun h => h.2⟩
      | ceil =>
          refine hboth _ (hceil.trans ?_)
          rw [RoundsUp, hmod]
          rw [← Nat.mul_one (p.base ^ p.roundingIndex), Nat.mul_assoc, Nat.one_mul, mul_le_add_mul_iff hl]
          exact ⟨fun h => ⟨hF, h⟩, fun h => h.2⟩
    refine hup.mono ?_ fun _ h => h.elim
    rintro ⟨exceeds, tmp'⟩ ⟨h1, h2⟩
    exact Returns.ite (fun he => Returns.throw ⟨rfl, h2 he⟩) (fun he => Returns.pure (h1 (by simpa using he)))
  · have hno : ¬ RoundsUp p dmr X := by
      rintro ⟨hF, hm⟩
      cases dmr with
      | floor => exact hm
      | round => exact hr ⟨hF, by simp⟩
      | ceil => exact hr ⟨hF, by simp⟩
    rw [if_neg hno]
    exact h

theorem exportLoop_spec (result : Nat → Nat) {last : Nat} (hd : ∀ i < p.tmpSize, tmp i < p.base)
    (hn : i + n = p.size) (hi : p.fractionEnd + 1 + i ≤ p.tmpSize) (ht : p.tmpSize ≤ p.fractionEnd + p.size + 1)
    (ht' : p.fractionEnd + p.size ≤ p.tmpSize) (hl : last < p.fractionOver) (hr : ∀ j < i, result j < p.base)
    (hinv : p.fractionRemainder * (val p.base result i + last * p.base ^ i) + tmp p.fractionEnd % p.fractionRemainder =
      val p.base (fun j => tmp (p.fractionEnd + j)) (i + 1)) :
    (∀ j < p.size, exportLoop p tmp result last i n j < p.base) ∧
      ∃ c, p.fractionRemainder * (val p.base (exportLoop p tmp result last i n) p.size + c * p.base ^ p.size) +
        tmp p.fractionEnd % p.fractionRemainder =
          val p.base (fun j => tmp (p.fractionEnd + j)) (p.tmpSize - p.fractionEnd) := by
  have hRO := Params.remainder_mul_over (p := p)
  have hOB : p.fractionOver ≤ p.base := by
    rw [← hRO]
    exact Nat.le_mul_of_pos_left _ Params.fractionRemainder_pos
  induction n generalizing result last i with
  | zero =>
      obtain rfl : i = p.size := by omega
      unfold exportLoop
      refine ⟨hr, last, ?_⟩
      rw [show p.tmpSize - p.fractionEnd = p.size + 1 by omega]
      exact hinv
  | succ n ih =>
      unfold exportLoop
      dsimp only
      split
      · next hidx =>
        have hsize : p.size = i + 1 := by omega
        refine ⟨fun j hj => ?_, 0, ?_⟩
        · by_cases hji : j = i
          · rw [hji, Function.update_self]
            omega
          · rw [Function.update_of_ne hji]
            exact hr j (by omega)
        · rw [hsize, val_update_succ, Nat.zero_mul, Nat.add_zero, hinv,
            show p.tmpSize - p.fractionEnd = i + 1 by omega]
      · next hidx =>
        have hmod := Nat.mod_lt (tmp (p.fractionEnd + 1 + i)) (Params.fractionRemainder_pos (p := p))
        have hx : last + tmp (p.fractionEnd + 1 + i) % p.fractionRemainder * p.fractionOver < p.base := by
          calc last + tmp (p.fractionEnd + 1 + i) % p.fractionRemainder * p.fractionOver
              < p.fractionOver + tmp (p.fractionEnd + 1 + i) % p.fractionRemainder * p.fractionOver := by omega
            _ = (tmp (p.fractionEnd + 1 + i) % p.fractionRemainder + 1) * p.fractionOver := by ring
            _ ≤ p.fractionRemainder * p.fractionOver := Nat.mul_le_mul_right _ hmod
            _ = p.base := hRO
        rw [Element.cast_of_lt_base (by rw [show p.element.base = p.base from rfl]; omega)]
        refine ih _ (by omega) (by omega) ?_ (fun j hj => ?_) ?_
        · refine Nat.div_lt_of_lt_mul ?_
          rw [hRO]
          exact hd _ (by omega)
        · by_cases hji : j = i
          · rw [hji, Function.update_self]
            exact hx
          · rw [Function.update_of_ne hji]
            exact hr j (by omega)
        · rw [val_update_succ, val_succ (n := i + 1), ← hinv, show p.fractionEnd + (i + 1) = p.fractionEnd + 1 + i by omega]
          have hdm := Nat.mod_add_div (tmp (p.fractionEnd + 1 + i)) p.fractionRemainder
          generalize tmp (p.fractionEnd + 1 + i) % p.fractionRemainder = m at hdm
          generalize tmp (p.fractionEnd + 1 + i) / p.fractionRemainder = q at hdm
          rw [← hdm, Nat.pow_succ, ← hRO]
          ring

theorem exportTo_spec (result : Nat → Nat) (h : TmpHolds p tmp X) :
    (∀ j < p.size, MulTmpArray.exportTo p tmp result j < p.base) ∧
      val p.base (MulTmpArray.exportTo p tmp result) p.size = X / 10 ^ p.fraction := by
  have hlt := Params.fractionEnd_lt_tmpSize (p := p)
  have hsize := Params.tmpSize_eq (p := p)
  have hdigit : ∀ i < p.fractionEnd, tmp i < p.base := fun i hi => h.digit i (by omega)
  have hX : X / p.base ^ p.fractionEnd = val p.base (fun j => tmp (p.fractionEnd + j)) (p.tmpSize - p.fractionEnd) := by
    rw [← h.value, ← val_div Params.base_pos hdigit, Nat.add_sub_cancel' (Nat.le_of_lt hlt)]
  unfold MulTmpArray.exportTo
  by_cases h1 : p.fractionRemainder = 1
  · have ht : p.tmpSize = p.fractionEnd + p.size := by
      rcases hsize with ⟨-, ht⟩ | ⟨hne, -⟩
      · exact ht
      · exact absurd h1 hne
    rw [if_pos h1]
    refine ⟨fun j hj => ?_, ?_⟩
    · rw [if_pos hj]
      exact h.digit _ (by omega)
    · rw [← Params.pow_fraction, h1, Nat.one_mul, hX, show p.tmpSize - p.fractionEnd = p.size by omega]
      exact val_congr fun j hj => if_pos hj
  · have ht : p.fractionEnd + p.size ≤ p.tmpSize ∧ p.tmpSize ≤ p.fractionEnd + p.size + 1 := by
      rcases hsize with ⟨h1', -⟩ | ⟨-, ht | ht⟩
      · exact absurd h1' h1
      · omega
      · omega
    rw [if_neg h1]
    have hlast : tmp p.fractionEnd / p.fractionRemainder < p.fractionOver := by
      refine Nat.div_lt_of_lt_mul ?_
      rw [Params.remainder_mul_over]
      exact h.digit _ hlt
    obtain ⟨hdig, c, hc⟩ := exportLoop_spec (i := 0) (n := p.size) result h.digit (by omega)
      (by omega) ht.2 ht.1 hlast (by simp) (by simp [val, Nat.div_add_mod])
    refine ⟨hdig, ?_⟩
    have hq : X / 10 ^ p.fraction =
        val p.base (exportLoop p tmp result (tmp p.fractionEnd / p.fractionRemainder) 0 p.size) p.size +
          c * p.base ^ p.size := by
      rw [← Params.pow_fraction, Nat.mul_comm, ← Nat.div_div_eq_div_mul, hX, ← hc,
        Nat.mul_add_div Params.fractionRemainder_pos,
        Nat.div_eq_of_lt (Nat.mod_lt _ Params.fractionRemainder_pos), Nat.add_zero]
    -- 結果は `TOTAL` 桁なので、上に残る数はない。
    have hsmall : X / 10 ^ p.fraction < p.base ^ p.size := by
      refine Nat.lt_of_lt_of_le (Nat.div_lt_of_lt_mul ?_) Params.pow_total_le
      rw [← Nat.pow_add, Nat.add_comm]
      exact h.lt
    have hc0 : c = 0 := by
      by_contra hne
      have : 1 * p.base ^ p.size ≤ c * p.base ^ p.size := Nat.mul_le_mul_right _ (by omega)
      omega
    rw [hq, hc0, Nat.zero_mul, Nat.add_zero]

/-! ## 掛け算の全体 -/

variable {a b : Decimal} {dmr : DecimalMulRemainder}

def mulResult (p : Params) (dmr : DecimalMulRemainder) (X : Nat) : Nat :=
  X / 10 ^ p.fraction + if RoundsUp p dmr X then 1 else 0

theorem mulResult_of_up (h : RoundsUp p dmr X) : mulResult p dmr X = X / 10 ^ p.fraction + 1 := by
  rw [mulResult, if_pos h]

theorem mulResult_of_not_up (h : ¬ RoundsUp p dmr X) : mulResult p dmr X = X / 10 ^ p.fraction := by
  rw [mulResult, if_neg h, Nat.add_zero]

theorem mul_spec_of_digits (dmr : DecimalMulRemainder) (ha : ∀ i < p.size, a.array i < p.base)
    (hb : ∀ i < p.size, b.array i < p.base) : Returns (Decimal.mul p a b dmr)
      (fun d => d.Valid p ∧ d.magnitude p = mulResult p dmr (a.magnitude p * b.magnitude p) ∧
        d.negative = (a.negative != b.negative))
      (fun e => e = .overflow ∧ 10 ^ p.total ≤ mulResult p dmr (a.magnitude p * b.magnitude p)) := by
  have hpos : 0 < 10 ^ p.fraction := Nat.pow_pos (by decide)
  have hdiv : ∀ Y, 10 ^ (p.total + p.fraction) ≤ Y ↔ 10 ^ p.total ≤ Y / 10 ^ p.fraction := by
    intro Y
    rw [Nat.le_div_iff_mul_le hpos, Nat.pow_add]
  -- 足し込んだ後の配列を取り出すと、その商が結果になる。
  have hexport : ∀ tmp Y, TmpHolds p tmp Y →
      (⟨a.negative != b.negative, MulTmpArray.exportTo p tmp (Decimal.invalid p).array⟩ : Decimal).Valid p ∧
      (⟨a.negative != b.negative, MulTmpArray.exportTo p tmp (Decimal.invalid p).array⟩ : Decimal).magnitude p =
        Y / 10 ^ p.fraction := by
    intro tmp Y hY
    obtain ⟨hd, hv⟩ := exportTo_spec (Decimal.invalid p).array hY
    refine ⟨Decimal.valid_of_magnitude_lt hd ?_, hv⟩
    unfold Decimal.magnitude
    rw [hv, ← Nat.not_le, ← hdiv]
    exact Nat.not_le.mpr hY.lt
  unfold Decimal.mul
  refine Returns.bind ((product_spec ha hb).mono ?_ ?_)
  · intro tmp hX
    refine Returns.bind ((roundOrThrow_spec hX).mono ?_ ?_)
    · intro tmp' hX'
      obtain ⟨hv, hm⟩ := hexport _ _ hX'
      refine Returns.pure ⟨hv, hm.trans ?_, rfl⟩
      unfold mulResult Decimal.magnitude
      split
      · rw [Nat.add_div_right _ hpos]
      · rfl
    · rintro e ⟨he, hup, hle⟩
      refine ⟨he, ?_⟩
      rw [hdiv, Nat.add_div_right _ hpos] at hle
      exact Nat.le_trans hle (Nat.le_of_eq (mulResult_of_up hup).symm)
  · rintro e ⟨he, hle⟩
    refine ⟨he, ?_⟩
    rw [hdiv] at hle
    unfold mulResult
    exact Nat.le_trans hle (Nat.le_add_right _ _)

theorem mul_spec (dmr : DecimalMulRemainder) (ha : a.Valid p) (hb : b.Valid p) :
    Returns (Decimal.mul p a b dmr)
      (fun d => d.Valid p ∧ d.magnitude p = mulResult p dmr (a.magnitude p * b.magnitude p) ∧
        d.negative = (a.negative != b.negative))
      (fun e => e = .overflow ∧ 10 ^ p.total ≤ mulResult p dmr (a.magnitude p * b.magnitude p)) :=
  mul_spec_of_digits dmr ha.digit hb.digit

/-! ## 正確な積 -/

def exactProduct (p : Params) (dmr : DecimalMulRemainder) (X : Nat) : Nat :=
  match dmr with
  | .floor => X / 10 ^ p.fraction
  | .round => (2 * X + 10 ^ p.fraction) / (2 * 10 ^ p.fraction)
  | .ceil => (X + 10 ^ p.fraction - 1) / 10 ^ p.fraction

/-- `DMR_CEIL` の検査が、切り捨てる桁のあるなしを正しく見分ける。 -/
def CeilSeen (p : Params) (X : Nat) : Prop :=
  p.fraction = 0 ∨ 10 ^ (p.total + p.fraction) ≤ X ∨ X % 10 ^ p.fraction = 0 ∨
    p.base ^ p.roundingIndex ≤ X % 10 ^ p.fraction

theorem exactProduct_round : exactProduct p .round X = mulResult p .round X := by
  have hpos : 0 < 10 ^ p.fraction := Nat.pow_pos (by decide)
  have hdm := Nat.div_add_mod X (10 ^ p.fraction)
  have hlt := Nat.mod_lt X hpos
  have hsplit : exactProduct p .round X =
      X / 10 ^ p.fraction + (2 * (X % 10 ^ p.fraction) + 10 ^ p.fraction) / (2 * 10 ^ p.fraction) := by
    unfold exactProduct
    dsimp only
    rw [Nat.add_comm (X / _), ← Nat.add_mul_div_left _ _ (by omega)]
    congr 1
    rw [Nat.mul_assoc]
    omega
  have heven : p.fraction ≠ 0 → 2 * (10 ^ p.fraction / 2) = 10 ^ p.fraction := by
    intro hF
    obtain ⟨n, hn⟩ : ∃ n, p.fraction = n + 1 := ⟨p.fraction - 1, by omega⟩
    rw [hn, Nat.pow_succ]
    omega
  by_cases hup : RoundsUp p .round X
  · obtain ⟨hF, hhalf⟩ := hup
    have h2 := heven hF
    have hone : (2 * (X % 10 ^ p.fraction) + 10 ^ p.fraction) / (2 * 10 ^ p.fraction) = 1 := by
      dsimp only at hhalf
      exact Nat.div_eq_of_lt_le (by omega) (by omega)
    rw [hsplit, hone, mulResult_of_up ⟨hF, hhalf⟩]
  · have hzero : (2 * (X % 10 ^ p.fraction) + 10 ^ p.fraction) / (2 * 10 ^ p.fraction) = 0 := by
      refine Nat.div_eq_of_lt ?_
      by_cases hF : p.fraction = 0
      · rw [hF, Nat.pow_zero] at hlt ⊢
        omega
      · have h2 := heven hF
        have hnot : ¬ 10 ^ p.fraction / 2 ≤ X % 10 ^ p.fraction := fun hle => hup ⟨hF, hle⟩
        omega
    rw [hsplit, hzero, mulResult_of_not_up hup, Nat.add_zero]

theorem exactProduct_ceil : exactProduct p .ceil X = X / 10 ^ p.fraction + if X % 10 ^ p.fraction = 0 then 0 else 1 :=
  ceil_div (Nat.pow_pos (by decide))

theorem mulResult_eq_exactProduct (h : dmr ≠ .ceil ∨ X % 10 ^ p.fraction = 0 ∨
    p.fraction ≠ 0 ∧ p.base ^ p.roundingIndex ≤ X % 10 ^ p.fraction) : mulResult p dmr X = exactProduct p dmr X := by
  have hpow : 0 < p.base ^ p.roundingIndex := Nat.pow_pos Params.base_pos
  cases dmr with
  | floor => exact mulResult_of_not_up fun h => h.2
  | round => exact exactProduct_round.symm
  | ceil =>
      rw [exactProduct_ceil]
      rcases h with h | h | h
      · exact absurd rfl h
      · rw [mulResult_of_not_up, if_pos h, Nat.add_zero]
        rintro ⟨-, hle⟩
        dsimp only at hle
        omega
      · have hup : RoundsUp p .ceil X := h
        rw [mulResult_of_up hup, if_neg (by omega)]

theorem mul_spec_of_seen (ha : a.Valid p) (hb : b.Valid p)
    (hcond : dmr ≠ .ceil ∨ CeilSeen p (a.magnitude p * b.magnitude p)) :
    Returns (Decimal.mul p a b dmr)
      (fun d => d.Valid p ∧ d.magnitude p = exactProduct p dmr (a.magnitude p * b.magnitude p) ∧
        d.negative = (a.negative != b.negative))
      (fun e => e = .overflow ∧ 10 ^ p.total ≤ exactProduct p dmr (a.magnitude p * b.magnitude p)) := by
  have hspec := mul_spec dmr ha hb
  generalize a.magnitude p * b.magnitude p = X at hspec hcond ⊢
  have hpos : 0 < 10 ^ p.fraction := Nat.pow_pos (by decide)
  have hdiv : 10 ^ (p.total + p.fraction) ≤ X ↔ 10 ^ p.total ≤ X / 10 ^ p.fraction := by
    rw [Nat.le_div_iff_mul_le hpos, Nat.pow_add]
  by_cases hbig : dmr = .ceil ∧ 10 ^ (p.total + p.fraction) ≤ X
  · obtain ⟨rfl, hle⟩ := hbig
    have h1 : 10 ^ p.total ≤ mulResult p .ceil X := Nat.le_trans (hdiv.mp hle) (Nat.le_add_right _ _)
    have h2 : 10 ^ p.total ≤ exactProduct p .ceil X := by
      rw [exactProduct_ceil]
      exact Nat.le_trans (hdiv.mp hle) (Nat.le_add_right _ _)
    refine hspec.mono ?_ fun e he => ⟨he.1, h2⟩
    rintro d ⟨hv, hm, -⟩
    have := hv.magnitude_lt
    omega
  · rw [mulResult_eq_exactProduct] at hspec
    · exact hspec
    · rcases hcond with h | h | h | h | h
      · exact Or.inl h
      · refine Or.inr (Or.inl ?_)
        rw [h, Nat.pow_zero]
        omega
      · exact Or.inl fun hc => hbig ⟨hc, h⟩
      · exact Or.inr (Or.inl h)
      · by_cases hF : p.fraction = 0
        · refine Or.inr (Or.inl ?_)
          rw [hF, Nat.pow_zero]
          omega
        · exact Or.inr (Or.inr ⟨hF, h⟩)

theorem mul_spec_of_unseen (ha : a.Valid p) (hb : b.Valid p)
    (hno : ¬ CeilSeen p (a.magnitude p * b.magnitude p)) : ∃ d, Decimal.mul p a b .ceil = .ok d ∧
      exactProduct p .ceil (a.magnitude p * b.magnitude p) = d.magnitude p + 1 := by
  have hspec := mul_spec .ceil ha hb
  generalize a.magnitude p * b.magnitude p = X at hspec hno ⊢
  simp only [CeilSeen, not_or, Nat.not_le] at hno
  obtain ⟨-, hlt, hr, hsmall⟩ := hno
  have hres : mulResult p .ceil X = X / 10 ^ p.fraction := mulResult_of_not_up fun h => Nat.not_le.mpr hsmall h.2
  have hdiv : X / 10 ^ p.fraction < 10 ^ p.total := by
    rw [Nat.div_lt_iff_lt_mul (Nat.pow_pos (by decide)), ← Nat.pow_add]
    exact hlt
  rw [hres] at hspec
  cases hx : Decimal.mul p a b .ceil with
  | ok d =>
      refine ⟨d, rfl, ?_⟩
      rw [exactProduct_ceil, if_neg hr, (hspec.of_ok hx).2.1]
  | error e =>
      have := (hspec.of_error hx).2
      omega

end UnixCommons.Generics
