import UnixCommons.Generics.Lemmas.SimpleDecimal
import UnixCommons.Generics.SimpleConstruct

/-! # `SimpleDecimal` の構成と、狭い型への変換の補題 -/

/-! ## 整数からの `SimpleDecimal` の構成の補題 -/

namespace UnixCommons.Generics

open Lib

variable {s : SimpleParams} {t : IntegerType} {negative : Bool} {integer fraction power n : Nat} {v : Int}

theorem DecimalHelper.exceeds_iff {a b : Nat} (ha : a < 2 ^ 64) (hb : b < 2 ^ 64) :
    DecimalHelper.exceeds a b = true ↔ b ≤ a := by
  unfold DecimalHelper.exceeds
  rw [Nat.mod_eq_of_lt ha, Nat.mod_eq_of_lt hb, decide_eq_true_iff]

theorem IntegerType.pow10_eq (h : 10 ^ n < 2 ^ t.digits) : t.pow10 n = 10 ^ n := Nat.mod_eq_of_lt h

theorem IntegerType.natAbs_lt_pow (hf : t.Fits v) (hv : v ≠ -2 ^ t.digits) : v.natAbs < 2 ^ t.digits := by
  obtain ⟨h1, h2⟩ := hf
  have hcast : ((2 ^ t.digits : Nat) : Int) = 2 ^ t.digits := by push_cast; rfl
  split at h1
  · omega
  · omega

theorem IntegerType.pow_lt_of_lt_digits10 (h : n < t.digits10) : 10 ^ n < 2 ^ t.digits :=
  calc 10 ^ n < 10 ^ t.digits10 := Nat.pow_lt_pow_right (by decide) h
    _ ≤ 2 ^ t.digits := Nat.pow_log_le_self 10 (Nat.ne_of_gt (Nat.pow_pos (by decide)))

theorem SimpleParams.lt_modulus_of_lt (h : n < 10 ^ s.total) : n < s.base.modulus := by
  have := s.pow_lt_modulus (Nat.le_refl s.total)
  omega

theorem SimpleParams.maxFraction_lt_calc : s.maxFraction < 2 ^ 64 :=
  Nat.lt_of_le_of_lt (Nat.pow_le_pow_right (by decide) s.fraction_le) s.pow_lt_calc

theorem SimpleParams.maxInteger_lt_calc : s.maxInteger < 2 ^ 64 :=
  Nat.lt_of_le_of_lt (Nat.pow_le_pow_right (by decide) (Nat.sub_le _ _)) s.pow_lt_calc

theorem SimpleDecimal.constructParts_spec (negative : Bool) (hi : integer < 2 ^ 64)
    (hf : fraction < 2 ^ 64) : Returns (SimpleDecimal.constructParts s negative integer fraction)
      (fun d => d = ⟨negative, integer * 10 ^ s.fraction + fraction⟩ ∧ integer < 10 ^ s.integer ∧ fraction < 10 ^ s.fraction)
      (fun _ => 10 ^ s.integer ≤ integer ∨ 10 ^ s.fraction ≤ fraction) := by
  unfold SimpleDecimal.constructParts
  refine Returns.ite (fun hover => ?_) (fun hfit => Returns.ite (fun hover => ?_) (fun hfit' => ?_))
  · exact Returns.throw (Or.inr ((DecimalHelper.exceeds_iff hf s.maxFraction_lt_calc).mp hover))
  · exact Returns.throw (Or.inl ((DecimalHelper.exceeds_iff hi s.maxInteger_lt_calc).mp hover))
  · have hfrac : fraction < 10 ^ s.fraction :=
      Nat.lt_of_not_le (mt (DecimalHelper.exceeds_iff hf s.maxFraction_lt_calc).mpr hfit)
    have hint : integer < 10 ^ s.integer :=
      Nat.lt_of_not_le (mt (DecimalHelper.exceeds_iff hi s.maxInteger_lt_calc).mpr hfit')
    have hsum : integer * 10 ^ s.fraction + fraction < 10 ^ s.total := by
      calc integer * 10 ^ s.fraction + fraction < integer * 10 ^ s.fraction + 10 ^ s.fraction := Nat.add_lt_add_left hfrac _
        _ = (integer + 1) * 10 ^ s.fraction := (Nat.succ_mul _ _).symm
        _ ≤ 10 ^ s.integer * 10 ^ s.fraction := Nat.mul_le_mul_right _ hint
        _ = 10 ^ s.total := by rw [Nat.mul_comm, SimpleParams.pow_split]
    have hle : integer ≤ integer * 10 ^ s.fraction := Nat.le_mul_of_pos_right _ (Nat.pow_pos (by decide))
    refine Returns.pure ⟨?_, hint, hfrac⟩
    unfold Element.add Element.cast SimpleParams.maxFraction
    rw [Nat.mod_eq_of_lt (SimpleParams.lt_modulus_of_lt (s := s) (n := integer) (by omega)),
      Nat.mod_eq_of_lt (SimpleParams.lt_modulus_of_lt (s := s) (n := integer * 10 ^ s.fraction)
      (by omega)), Nat.mod_eq_of_lt (SimpleParams.lt_modulus_of_lt (s := s) (n := fraction)
      (by omega)), Nat.mod_eq_of_lt (SimpleParams.lt_modulus_of_lt hsum)]

def SimpleParams.scaled (s : SimpleParams) (integer power : Nat) : Nat := integer * 10 ^ s.fraction / 10 ^ power

theorem SimpleParams.scaled_of_le (h : power ≤ s.fraction) : s.scaled integer power = integer * 10 ^
    (s.fraction - power) := by
  unfold SimpleParams.scaled
  rw [← Nat.sub_add_cancel h, Nat.pow_add, ← Nat.mul_assoc,
    Nat.mul_div_cancel _ (Nat.pow_pos (by decide)), Nat.sub_add_cancel h]

theorem SimpleParams.scaled_of_ge (h : s.fraction ≤ power) : s.scaled integer power = integer / 10 ^
    (power - s.fraction) := by
  have hpow : (10 : Nat) ^ power = 10 ^ (power - s.fraction) * 10 ^ s.fraction := by rw [← Nat.pow_add, Nat.sub_add_cancel h]
  unfold SimpleParams.scaled
  rw [hpow, Nat.mul_div_mul_right _ _ (Nat.pow_pos (by decide))]

theorem SimpleParams.scaled_div : s.scaled integer power / 10 ^ s.fraction = integer / 10 ^ power := by
  unfold SimpleParams.scaled
  rw [Nat.div_div_eq_div_mul, Nat.mul_div_mul_right _ _ (Nat.pow_pos (by decide))]

structure SimpleDecimal.IntermediatesFit (s : SimpleParams) (t : IntegerType) (integer power : Nat) : Prop where
  divisor : s.fraction < power → 10 ^ (power - s.fraction) < 2 ^ t.digits
  multiplier : power < s.fraction → 10 ^ (s.fraction - power) < s.base.modulus
  product : power ≤ s.fraction → s.scaled integer power < 10 ^ s.total →
    integer < s.base.modulus ∧ integer * 10 ^ (s.fraction - power) < s.base.modulus
  reported : power ≤ s.fraction → 10 ^ s.total ≤ s.scaled integer power → 10 ^ power < 2 ^ t.digits

theorem SimpleParams.pow_le_of_overflow (hp : power ≤ s.fraction)
    (hover : 10 ^ s.total ≤ s.scaled integer power) : 10 ^ power ≤ integer := by
  rw [SimpleParams.scaled_of_le hp] at hover
  have hpos : 0 < 10 ^ (s.fraction - power) := Nat.pow_pos (by decide)
  refine Nat.le_of_mul_le_mul_right ?_ hpos
  calc 10 ^ power * 10 ^ (s.fraction - power) = 10 ^ s.fraction := by rw [← Nat.pow_add, Nat.add_sub_cancel' hp]
    _ ≤ 10 ^ s.total := Nat.pow_le_pow_right (by decide) s.fraction_le
    _ ≤ integer * 10 ^ (s.fraction - power) := hover

theorem SimpleDecimal.intermediates_fit (hp : power < t.digits10 + s.fraction)
    (hi : integer < 2 ^ t.digits) : SimpleDecimal.IntermediatesFit s t integer power where
  divisor hgt := IntegerType.pow_lt_of_lt_digits10 (by omega)
  multiplier hlt := by
    have hle : s.fraction - power ≤ s.total := Nat.le_trans (Nat.sub_le _ _) s.fraction_le
    have := s.pow_lt_modulus hle
    omega
  product hle hfit := by
    rw [SimpleParams.scaled_of_le hle] at hfit
    have hself : integer ≤ integer * 10 ^ (s.fraction - power) := Nat.le_mul_of_pos_right _ (Nat.pow_pos (by decide))
    exact ⟨SimpleParams.lt_modulus_of_lt (Nat.lt_of_le_of_lt hself hfit), SimpleParams.lt_modulus_of_lt hfit⟩
  reported hle hover := Nat.lt_of_le_of_lt (SimpleParams.pow_le_of_overflow hle hover) hi

theorem SimpleDecimal.constructScaled_spec (negative : Bool) (hp : power < t.digits10 + s.fraction)
    (hi : integer < 2 ^ t.digits) (hd : t.digits ≤ 64) :
    Returns (SimpleDecimal.constructScaled s t negative integer power)
      (fun d => d = ⟨negative, s.scaled integer power⟩ ∧ s.scaled integer power < 10 ^ s.total)
      (fun e => e = .overflow (integer / 10 ^ power) ∧ 10 ^ s.total ≤ s.scaled integer power) := by
  have hfit := SimpleDecimal.intermediates_fit (s := s) hp hi
  have hcalc : integer < 2 ^ 64 := Nat.lt_of_lt_of_le hi (Nat.pow_le_pow_right (by decide) hd)
  have hmax : s.maxValue < 2 ^ 64 := s.pow_lt_calc
  unfold SimpleDecimal.constructScaled
  refine Returns.ite (fun heq => ?_) (fun hne => Returns.ite (fun hgt => ?_) (fun hle => ?_))
  · have hscaled : s.scaled integer power = integer := by
      rw [SimpleParams.scaled_of_le (Nat.le_of_eq heq), heq, Nat.sub_self, Nat.pow_zero, Nat.mul_one]
    refine Returns.ite (fun hover => Returns.throw ?_) (fun hsmall => Returns.pure ?_)
    · have hge : 10 ^ s.total ≤ s.scaled integer power := by
        rw [hscaled]
        exact (DecimalHelper.exceeds_iff hcalc hmax).mp hover
      exact ⟨by rw [IntegerType.pow10_eq (hfit.reported (Nat.le_of_eq heq) hge)], hge⟩
    · have hlt : integer < 10 ^ s.total := Nat.lt_of_not_le (mt (DecimalHelper.exceeds_iff hcalc hmax).mpr hsmall)
      rw [hscaled]
      exact ⟨by rw [Element.cast, Nat.mod_eq_of_lt (SimpleParams.lt_modulus_of_lt hlt)], hlt⟩
  · have hscaled : s.scaled integer power = integer / 10 ^ (power - s.fraction) :=
      SimpleParams.scaled_of_ge (Nat.le_of_lt hgt)
    rw [IntegerType.pow10_eq (hfit.divisor hgt), ← hscaled]
    have hcalc' : s.scaled integer power < 2 ^ 64 := by
      rw [hscaled]
      exact Nat.lt_of_le_of_lt (Nat.div_le_self _ _) hcalc
    refine Returns.ite (fun hover => Returns.throw ⟨?_, ?_⟩) (fun hsmall => Returns.pure ?_)
    · rw [SimpleParams.maxFraction, SimpleParams.scaled_div]
    · exact (DecimalHelper.exceeds_iff hcalc' hmax).mp hover
    · have hlt : s.scaled integer power < 10 ^ s.total :=
        Nat.lt_of_not_le (mt (DecimalHelper.exceeds_iff hcalc' hmax).mpr hsmall)
      exact ⟨by rw [Element.cast, Nat.mod_eq_of_lt (SimpleParams.lt_modulus_of_lt hlt)], hlt⟩
  · have hlt : power < s.fraction := by omega
    have hscaled : s.scaled integer power = integer * 10 ^ (s.fraction - power) :=
      SimpleParams.scaled_of_le (Nat.le_of_lt hlt)
    have hmul : DecimalHelper.pow10 s.base (s.fraction - power) = 10 ^ (s.fraction - power) :=
      Nat.mod_eq_of_lt (hfit.multiplier hlt)
    have hmulpos : 0 < 10 ^ (s.fraction - power) := Nat.pow_pos (by decide)
    have hbound : s.maxValue / 10 ^ (s.fraction - power) < 2 ^ 64 := Nat.lt_of_le_of_lt (Nat.div_le_self _ _) hmax
    -- 割り切れるので、商との比較は積との比較である。
    have hdvd : 10 ^ (s.fraction - power) ∣ s.maxValue :=
      Nat.pow_dvd_pow 10 (Nat.le_trans (Nat.sub_le _ _) s.fraction_le)
    have hiff : s.maxValue / 10 ^ (s.fraction - power) ≤ integer ↔ 10 ^ s.total ≤ s.scaled integer power := by
      obtain ⟨k, hk⟩ := hdvd
      rw [hscaled, show 10 ^ s.total = 10 ^ (s.fraction - power) * k from hk, hk,
        Nat.mul_div_cancel_left _ hmulpos, Nat.mul_comm integer, Nat.mul_le_mul_left_iff hmulpos]
    rw [hmul]
    refine Returns.ite (fun hover => Returns.throw ?_) (fun hsmall => Returns.pure ?_)
    · have hge := hiff.mp ((DecimalHelper.exceeds_iff hcalc hbound).mp hover)
      exact ⟨by rw [IntegerType.pow10_eq (hfit.reported (Nat.le_of_lt hlt) hge)], hge⟩
    · have hsum : s.scaled integer power < 10 ^ s.total :=
        Nat.lt_of_not_le fun hge => hsmall ((DecimalHelper.exceeds_iff hcalc hbound).mpr (hiff.mpr hge))
      obtain ⟨hbase, hproduct⟩ := hfit.product (Nat.le_of_lt hlt) hsum
      refine ⟨?_, hsum⟩
      rw [Element.cast, Element.cast, Nat.mod_eq_of_lt hbase, Nat.mod_eq_of_lt hproduct, ← hscaled]

theorem SimpleDecimal.value_decide_neg {m : Nat} (hm : v = 0 → m = 0) :
    (⟨decide (v < 0), m⟩ : SimpleDecimal).value = v.sign * m := by
  unfold SimpleDecimal.value
  rcases Int.lt_trichotomy v 0 with hneg | hzero | hpos
  · rw [if_pos (decide_eq_true hneg), Int.sign_eq_neg_one_of_neg hneg, Int.neg_one_mul]
  · rw [hzero, hm hzero]
    simp
  · rw [if_neg (by simpa using Int.le_of_lt hpos), Int.sign_eq_one_of_pos hpos, Int.one_mul]

theorem SimpleDecimal.constructPower_spec (hf : t.Fits v) (hv : v ≠ -2 ^ t.digits)
    (hd : t.digits ≤ 64) (hp : power < t.digits10 + s.fraction) :
    Returns (SimpleDecimal.constructPower s t v power)
      (fun d => d.Valid s ∧ d.value = v.sign * s.scaled v.natAbs power)
      (fun e => e = .overflow (v.natAbs / 10 ^ power) ∧ 10 ^ s.total ≤ s.scaled v.natAbs power) := by
  have hsplit := split_spec hf hv
  unfold SimpleDecimal.constructPower
  refine Returns.ite (fun hzero => Returns.pure ?_) (fun hzero => ?_)
  · have hv0 : v = 0 := hzero.resolve_left (by omega)
    refine ⟨Nat.pow_pos (by decide), ?_⟩
    rw [hv0]
    simp [SimpleDecimal.value]
  · cases hx : split t v with
    | error e => exact (hsplit.of_error hx).elim
    | ok r =>
        obtain rfl := hsplit.of_ok hx
        refine (SimpleDecimal.constructScaled_spec (decide (v < 0)) hp
          (IntegerType.natAbs_lt_pow hf hv) hd).mono ?_ (fun _ he => he)
        rintro d ⟨rfl, hlt⟩
        exact ⟨hlt, SimpleDecimal.value_decide_neg fun h0 => absurd (Or.inr h0) hzero⟩

end UnixCommons.Generics

/-! ## 狭い型への変換の補題 -/

namespace UnixCommons.Generics

open Lib

variable {p : Params} {s : SimpleParams} {t : IntegerType} {d : Decimal} {a : Nat → Nat} {n i ret elem : Nat}

theorem fits_iff {limit B : Nat} (hB : 0 < B) : limit ≥ elem ∧ ret ≤ (limit - elem) / B ↔ ret * B + elem ≤ limit := by
  rw [Nat.le_div_iff_mul_le hB]
  omega

def upperValue (p : Params) (a : Nat → Nat) (n i : Nat) : Nat := val p.base (fun j => a (i + j)) (n - i)

theorem upperValue_step (h : i < n) : upperValue p a n i = upperValue p a n (i + 1) * p.base + a i := by
  unfold upperValue
  rw [show n - i = n - (i + 1) + 1 by omega, val_succ_left, Nat.add_zero, Nat.mul_comm, Nat.add_comm]
  simp only [Nat.add_assoc]

theorem upperValue_le (h : i ≤ n) : upperValue p a n i ≤ upperValue p a n 0 := by
  have hpos : 0 < p.base ^ i := Nat.pow_pos Params.base_pos
  unfold upperValue
  simp only [Nat.zero_add, Nat.sub_zero]
  conv_rhs => rw [show n = i + (n - i) by omega, val_add]
  exact Nat.le_trans (Nat.le_mul_of_pos_left _ hpos) (Nat.le_add_left _ _)

theorem integerLoop_spec (n : Nat) :
    Returns (forDownM (integerBody p t a) n 0)
      (fun ret => ret = upperValue p (fun j => a (p.fractionEnd + 1 + j)) n 0 ∧ ret ≤ t.max)
      (fun e => e = .overflow ∧ t.max < upperValue p (fun j => a (p.fractionEnd + 1 + j)) n 0) := by
  refine Returns.forDownM
    (P := fun i ret => ret = upperValue p (fun j => a (p.fractionEnd + 1 + j)) n i ∧ ret ≤ t.max) ⟨?_, Nat.zero_le _⟩ ?_
  · simp [upperValue]
  · rintro i ret hi ⟨rfl, -⟩
    have hstep := upperValue_step (p := p) (a := fun j => a (p.fractionEnd + 1 + j)) hi
    unfold integerBody
    dsimp only
    refine Returns.ite (fun hfit => Returns.pure ⟨hstep.symm, (fits_iff Params.base_pos).mp hfit⟩)
      (fun hover => Returns.throw ⟨rfl, ?_⟩)
    have hlarge := mt (fits_iff Params.base_pos).mpr hover
    have hle := upperValue_le (p := p) (a := fun j => a (p.fractionEnd + 1 + j)) (Nat.le_of_lt hi)
    omega

theorem integer_part_eq (hd : ∀ i < p.size, a i < p.base) (hE : p.fractionEnd < p.size) :
    val p.base a p.size / 10 ^ p.fraction =
      upperValue p (fun j => a (p.fractionEnd + 1 + j)) (p.size - 1 - p.fractionEnd) 0 * p.fractionOver +
        a p.fractionEnd / p.fractionRemainder := by
  have hlow := val_lt (n := p.fractionEnd) fun i hi => hd i (by omega)
  have hR := Params.fractionRemainder_pos (p := p)
  have hRO := Params.remainder_mul_over (p := p)
  have hover : p.base / p.fractionRemainder = p.fractionOver := by rw [← hRO, Nat.mul_div_cancel_left _ hR]
  rw [val_split hE, ← Params.pow_fraction, Nat.mul_comm p.fractionRemainder,
    split_div _ _ hR ⟨p.fractionOver, hRO.symm⟩ hlow, hover, Nat.add_comm, Nat.mul_comm]
  unfold upperValue
  simp only [Nat.zero_add, Nat.sub_zero]
  rw [show p.size - (p.fractionEnd + 1) = p.size - 1 - p.fractionEnd by omega]

theorem Params.fractionEnd_lt_size (h : p.integer ≠ 0) : p.fractionEnd < p.size := by
  have h1 := (Params.size_spec (p := p)).1
  have h2 := Nat.div_mul_le_self p.fraction p.digitsPerElement
  have h3 : p.fraction < p.total := by
    unfold Ranks.integer at h
    omega
  refine Nat.lt_of_mul_lt_mul_right (a := p.digitsPerElement) ?_
  calc p.fractionEnd * p.digitsPerElement ≤ p.fraction := h2
    _ < p.total := h3
    _ ≤ p.size * p.digitsPerElement := h1

theorem IntegerType.max_lt (t : IntegerType) : t.max < 2 ^ t.digits := Nat.sub_lt (Nat.pow_pos (by decide)) (by decide)

theorem Decimal.integer_spec (t : IntegerType) (h : d.Valid p) :
    Returns (d.integer p t)
      (fun r => r = (if d.negative then -(d.magnitude p / 10 ^ p.fraction : Nat)
      else (d.magnitude p / 10 ^ p.fraction : Nat) : Int) ∧
        d.magnitude p / 10 ^ p.fraction ≤ t.max)
      (fun e => e = .overflow ∧ t.max < d.magnitude p / 10 ^ p.fraction ∨
        e = .sign ∧ t.signed = false ∧ d.negative = true ∧ d.magnitude p / 10 ^ p.fraction ≠ 0) := by
  unfold Decimal.integer
  refine Returns.ite (fun hzero => Returns.pure ?_) (fun hne => Returns.bind ((integerLoop_spec _).mono ?_ ?_))
  · have hsmall : d.magnitude p / 10 ^ p.fraction = 0 := by
      have hF : p.fraction = p.total := by
        have := p.fraction_le
        unfold Ranks.integer at hzero
        omega
      rw [hF]
      exact Nat.div_eq_of_lt h.magnitude_lt
    rw [hsmall]
    simp
  · rintro ret ⟨hret, -⟩
    have hpart := integer_part_eq h.digit (Params.fractionEnd_lt_size hne)
    rw [← hret] at hpart
    have hO := Params.fractionOver_pos (p := p)
    unfold Decimal.magnitude
    rw [hpart]
    dsimp only
    refine Returns.ite (fun hover => Returns.throw (Or.inl ⟨rfl, ?_⟩)) (fun hfit => ?_)
    · by_contra hle
      have hfits := (fits_iff hO).mpr (Nat.not_lt.mp hle)
      omega
    · have hle : ret * p.fractionOver + d.array p.fractionEnd / p.fractionRemainder ≤ t.max :=
        (fits_iff hO).mp (by omega)
      -- 上の要素があれば、`FRACTION_OVER` も型に収まる。
      have hcast : ret * (p.fractionOver % 2 ^ t.digits) = ret * p.fractionOver := by
        rcases Nat.eq_zero_or_pos ret with rfl | hpos
        · rw [Nat.zero_mul, Nat.zero_mul]
        · have hself : p.fractionOver ≤ ret * p.fractionOver := Nat.le_mul_of_pos_left _ hpos
          have hover := Nat.le_trans hself (Nat.le_trans (Nat.le_add_right _ _) hle)
          rw [Nat.mod_eq_of_lt (Nat.lt_of_le_of_lt hover t.max_lt)]
      rw [hcast]
      refine Returns.ite (fun hsign => Returns.throw (Or.inr ⟨rfl, ?_, hsign.1, hsign.2.1⟩))
        (fun _ => Returns.pure ⟨rfl, hle⟩)
      simpa using hsign.2.2
  · rintro e ⟨he, hlt⟩
    have hpart := integer_part_eq h.digit (Params.fractionEnd_lt_size hne)
    refine Or.inl ⟨he, Nat.lt_of_lt_of_le hlt ?_⟩
    unfold Decimal.magnitude
    rw [hpart]
    exact Nat.le_trans (Nat.le_mul_of_pos_right _ Params.fractionOver_pos) (Nat.le_add_right _ _)

end UnixCommons.Generics
