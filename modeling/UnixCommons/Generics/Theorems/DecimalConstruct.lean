import UnixCommons.Generics.Lemmas.DecimalConstruct

/-!
# 整数からの構成の定理

二つのコンストラクタは、上の端の要素の検査を抜かす場合と、配列の外に書く場合と、早く零を返しすぎる場合と、`assert` が失敗する場合を除いて、正しい値を作り、表せない値をあふれとする。
-/

namespace UnixCommons.Generics

open Lib

variable {p : Params} {d : Decimal} {negative : Bool} {integer fraction : Nat} {t : IntegerType} {v : Int} {power : Nat}

/-! ## 整数部と端数 -/

/-- 初期化されていない `d` に作った値が正しく、書いた番地が `SIZE` より小さい。 -/
def PartsExact (p : Params) (d : Decimal) (negative : Bool) (integer fraction : Nat) : Prop :=
  Spec (constructParts p negative integer fraction) ⟨d, 0⟩
    (fun _ c => (integer < 10 ^ p.integer ∧ fraction < 10 ^ p.fraction) ∧ c.written ≤ p.size ∧ c.decimal.Valid p ∧
      c.decimal.magnitude p = integer * 10 ^ p.fraction + fraction ∧ c.decimal.negative = negative)
    (fun e c => e = .overflow ∧ (10 ^ p.integer ≤ integer ∨ 10 ^ p.fraction ≤ fraction) ∧ c.written ≤ p.size)

/-- 端数があふれるか、端数のための要素があり、整数部の検査が抜けない。 -/
def PartsChecked (p : Params) (integer fraction : Nat) : Prop :=
  10 ^ p.fraction ≤ fraction ∨
    p.fractionEnd < p.size ∧
      ¬ (p.fractionEnd + 1 = p.size ∧ p.integer ≠ 0 ∧ 10 ^ p.integer ≤ integer ∧ integer < p.fractionOver)

theorem Params.pow_integer_le_partsLimit : 10 ^ p.integer ≤ p.partsLimit := by
  unfold Params.partsLimit
  split
  · next h =>
    have h1 := Nat.div_add_mod p.fraction p.digitsPerElement
    have h2 := (Params.size_spec (p := p)).1
    have h3 := p.fraction_le
    rw [show p.fraction / p.digitsPerElement = p.fractionEnd from rfl, Nat.mul_comm] at h1
    rw [← h.2, Nat.succ_mul] at h2
    refine Nat.pow_le_pow_right (by decide) ?_
    unfold Ranks.integer
    omega
  · exact Nat.le_refl _

theorem partsExact_iff : PartsExact p d negative integer fraction ↔ PartsChecked p integer fraction := by
  have hstart : (Construction.mk d 0).written = 0 := rfl
  have hspec := constructParts_spec (p := p) negative integer fraction hstart
  have hEs := Params.fractionEnd_le_size (p := p)
  have hlimit := Params.pow_integer_le_partsLimit (p := p)
  constructor
  · intro hexact
    by_contra hno
    simp only [PartsChecked, not_or, Nat.not_le] at hno
    obtain ⟨hf, hno⟩ := hno
    cases hx : (constructParts p negative integer fraction).run ⟨d, 0⟩ with
    | ok _ c =>
        obtain ⟨⟨hi, -⟩, hw, -⟩ := hexact.ok hx
        obtain ⟨-, -, hw', -⟩ := hspec.ok hx
        exact hno ⟨by omega, fun h => by omega⟩
    | error e c =>
        obtain ⟨-, -, hw⟩ := hexact.error hx
        rcases (hspec.error hx).2 with ⟨h, -⟩ | ⟨-, h, hw'⟩
        · omega
        · refine hno ⟨by omega, fun hbad => ?_⟩
          rw [Params.partsLimit, if_pos ⟨hbad.2.1, hbad.1⟩] at h
          omega
  · intro hchecked
    refine hspec.mono (fun _ c hok => ?_) (fun e c herr => ?_)
    · obtain ⟨hf, hi, hw, hdigit, hm, hn⟩ := hok
      obtain ⟨hE, hbad⟩ : _ ∧ _ := hchecked.resolve_left (Nat.not_le.mpr hf)
      have hlt : integer < 10 ^ p.integer := by
        unfold Params.partsLimit at hi
        split at hi
        · next h =>
          by_contra hge
          exact hbad ⟨h.2, h.1, by omega, hi⟩
        · exact hi
      have htotal : integer * 10 ^ p.fraction + fraction < 10 ^ p.total :=
        calc integer * 10 ^ p.fraction + fraction < integer * 10 ^ p.fraction + 10 ^ p.fraction := by omega
          _ = (integer + 1) * 10 ^ p.fraction := by ring
          _ ≤ 10 ^ p.integer * 10 ^ p.fraction := Nat.mul_le_mul_right _ hlt
          _ = 10 ^ p.total := by
              rw [← Nat.pow_add]
              congr 1
              exact Nat.sub_add_cancel p.fraction_le
      exact ⟨⟨hlt, hf⟩, by omega, Decimal.valid_of_magnitude_lt hdigit (by omega), hm, hn⟩
    · obtain ⟨rfl, ⟨hf, hw⟩ | ⟨hf, hi, hw⟩⟩ := herr
      · exact ⟨rfl, Or.inr hf, by omega⟩
      · have hE := (hchecked.resolve_left (Nat.not_le.mpr hf)).1
        exact ⟨rfl, Or.inl (by omega), by omega⟩

/-! ## 整数と十の冪 -/

def PowerExact (p : Params) (d : Decimal) (t : IntegerType) (v : Int) (power : Nat) : Prop :=
  Spec (constructPower p t v power) ⟨d, 0⟩
    (fun _ c => c.decimal.Valid p ∧ c.decimal.value p = v.sign * powerMagnitude p v power)
    (fun e _ => e = .overflow ∧ 10 ^ p.total ≤ powerMagnitude p v power)

/-- 零であるか、`digits10` で見捨てる桁がないか、`split` が通り上の端の要素の検査が抜けない。 -/
def PowerChecked (p : Params) (t : IntegerType) (v : Int) (power : Nat) : Prop :=
  v = 0 ∨
  (t.digits10 + p.fraction ≤ power ∧ (power ≠ t.digits10 + p.fraction ∨ v.natAbs < 10 ^ t.digits10)) ∨
  (power < t.digits10 + p.fraction ∧ v ≠ -2 ^ t.digits ∧
    ¬ ((p.fraction - power) % p.digitsPerElement ≠ 0 ∧ (p.fraction - power) / p.digitsPerElement + 1 = p.size ∧
      10 ^ p.total ≤ v.natAbs * 10 ^ p.fraction / 10 ^ power ∧
      v.natAbs * 10 ^ p.fraction / 10 ^ power < p.base ^ p.size))

theorem IntegerType.natAbs_le (hf : t.Fits v) : v.natAbs ≤ 2 ^ t.digits := by
  obtain ⟨h1, h2⟩ := hf
  have hcast : ((2 ^ t.digits : Nat) : Int) = 2 ^ t.digits := by push_cast; rfl
  split at h1
  · omega
  · omega

theorem IntegerType.natAbs_lt (hf : t.Fits v) : v.natAbs < 10 ^ (t.digits10 + 1) :=
  Nat.lt_of_le_of_lt (IntegerType.natAbs_le hf) (Nat.lt_pow_succ_log_self (by decide) _)

theorem powerMagnitude_eq_zero_iff (hf : t.Fits v) (hp : t.digits10 + p.fraction ≤ power) :
    powerMagnitude p v power = 0 ↔ power ≠ t.digits10 + p.fraction ∨ v.natAbs < 10 ^ t.digits10 := by
  have hpow : (10 : Nat) ^ power = 10 ^ (power - p.fraction) * 10 ^ p.fraction := by
    rw [← Nat.pow_add]
    congr 1
    omega
  have hz : powerMagnitude p v power = 0 ↔ v.natAbs < 10 ^ (power - p.fraction) := by
    unfold powerMagnitude
    rw [hpow, Nat.mul_div_mul_right _ _ (Nat.pow_pos (by decide)), Nat.div_eq_zero_iff_lt (Nat.pow_pos (by decide))]
  rw [hz]
  by_cases heq : power = t.digits10 + p.fraction
  · rw [show power - p.fraction = t.digits10 by omega]
    exact ⟨Or.inr, fun h => h.resolve_left (fun hne => hne heq)⟩
  · have hle : (10 : Nat) ^ (t.digits10 + 1) ≤ 10 ^ (power - p.fraction) := Nat.pow_le_pow_right (by decide) (by omega)
    have hlt := IntegerType.natAbs_lt hf
    exact ⟨fun _ => Or.inl heq, fun _ => by omega⟩

theorem powerExact_zero_iff (h : power ≥ t.digits10 + p.fraction ∨ v = 0) :
    PowerExact p d t v power ↔ v = 0 ∨ powerMagnitude p v power = 0 := by
  have hspec := constructPower_zero (p := p) ⟨d, 0⟩ h
  obtain ⟨_, c, hx, hvalid, hvalue⟩ := hspec.exists_ok
  have hexact : PowerExact p d t v power ↔ v.sign * powerMagnitude p v power = 0 := by
    constructor
    · intro hexact
      rw [← (hexact.ok hx).2, hvalue]
    · intro hzero
      exact Spec.of_ok hx ⟨hvalid, by rw [hvalue, hzero]⟩
  rw [hexact, Int.mul_eq_zero, Int.sign_eq_zero_iff_zero, Int.natCast_eq_zero]

theorem powerExact_scaled_iff (h : ¬ (power ≥ t.digits10 + p.fraction ∨ v = 0)) (hf : t.Fits v)
    (hv : v ≠ -2 ^ t.digits) :
    PowerExact p d t v power ↔ ¬ (10 ^ p.total ≤ powerMagnitude p v power ∧
      powerMagnitude p v power < p.powerLimit (p.fraction - min power p.fraction)) := by
  have hspec := constructPower_scaled (p := p) ⟨d, 0⟩ h hf hv
  have hlimit : 10 ^ p.total ≤ p.powerLimit (p.fraction - min power p.fraction) := by
    unfold Params.powerLimit
    split
    · exact Params.pow_total_le
    · exact Nat.le_refl _
  constructor
  · rintro hexact ⟨hge, hlt⟩
    cases hx : (constructPower p t v power).run ⟨d, 0⟩ with
    | ok _ c =>
        have hm := (hspec.ok hx).2.2.1
        have := (hexact.ok hx).1.magnitude_lt
        omega
    | error e c =>
        have := (hspec.error hx).2
        omega
  · intro hno
    refine hspec.mono (fun _ c hok => ?_) (fun e c herr => ⟨herr.1, by omega⟩)
    obtain ⟨hlt, hdigit, hm, hn⟩ := hok
    refine ⟨Decimal.valid_of_magnitude_lt hdigit (by omega), ?_⟩
    unfold Decimal.value
    rw [hn, hm]
    rcases Int.lt_trichotomy v 0 with hneg | hzero | hpos
    · rw [if_pos (decide_eq_true hneg), Int.sign_eq_neg_one_of_neg hneg]
      omega
    · exact absurd (Or.inr hzero) h
    · rw [if_neg (by simpa using Int.le_of_lt hpos), Int.sign_eq_one_of_pos hpos]
      omega

theorem powerExact_iff (hf : t.Fits v) : PowerExact p d t v power ↔ PowerChecked p t v power := by
  by_cases hzero : power ≥ t.digits10 + p.fraction ∨ v = 0
  · rw [powerExact_zero_iff hzero]
    unfold PowerChecked
    by_cases hv : v = 0
    · exact ⟨fun _ => Or.inl hv, fun _ => Or.inl hv⟩
    · have hp : t.digits10 + p.fraction ≤ power := hzero.resolve_right hv
      rw [powerMagnitude_eq_zero_iff hf hp]
      constructor
      · rintro (h | h)
        · exact absurd h hv
        · exact Or.inr (Or.inl ⟨hp, h⟩)
      · rintro (h | h | h)
        · exact absurd h hv
        · exact Or.inr h.2
        · omega
  · have hlt : power < t.digits10 + p.fraction := by omega
    have hnz : v ≠ 0 := fun h => hzero (Or.inr h)
    by_cases hv : v = -2 ^ t.digits
    · -- `split` の `assert` が失敗する。
      have hpow : (0 : Int) < 2 ^ t.digits := Int.pow_pos (by decide)
      have hs : t.signed = true := by
        by_contra hns
        have := hf.1
        rw [if_neg hns] at this
        omega
      constructor
      · intro hexact
        have hspec := constructPower_min (p := p) ⟨d, 0⟩ hzero hs hv
        cases hx : (constructPower p t v power).run ⟨d, 0⟩ with
        | ok _ c => exact (hspec.ok hx).elim
        | error e c =>
            have h1 := (hexact.error hx).1
            rw [hspec.error hx] at h1
            cases h1
      · rintro (h | h | h)
        · exact absurd h hnz
        · omega
        · exact absurd hv h.2.1
    · rw [powerExact_scaled_iff hzero hf hv, show p.fraction - min power p.fraction = p.fraction - power by omega]
      unfold PowerChecked Params.powerLimit powerMagnitude
      constructor
      · intro hno
        refine Or.inr (Or.inr ⟨hlt, hv, fun hbad => hno ⟨hbad.2.2.1, ?_⟩⟩)
        rw [if_pos ⟨hbad.1, hbad.2.1⟩]
        exact hbad.2.2.2
      · rintro (h | h | ⟨-, -, hno⟩)
        · exact absurd h hnz
        · omega
        · rintro ⟨hge, hlt'⟩
          split at hlt'
          · next hc => exact hno ⟨hc.1, hc.2, hge, hlt'⟩
          · omega

/-- 二つのコンストラクタが正しいのは、検査が抜けず、配列の外に書かず、早く零を返しすぎないときに限る。 -/
theorem decimal_construct_exact_iff (p : Params) (d : Decimal) (negative : Bool)
    (integer fraction : Nat) (t : IntegerType) (v : Int) (power : Nat) (hf : t.Fits v) :
    (PartsExact p d negative integer fraction ↔ PartsChecked p integer fraction) ∧
      (PowerExact p d t v power ↔ PowerChecked p t v power) := ⟨partsExact_iff, powerExact_iff hf⟩

def intType : IntegerType := ⟨31, true⟩

/-- 五桁、うち小数点の下が一桁の、`uint16_t` の `Decimal`。 -/
def deciParams : Params := ⟨⟨5, 1, by decide, by decide⟩, .uint16⟩

theorem decimal_construct_exact_iff_deci : intType.Fits (-123) ∧
    (PartsExact deciParams (Decimal.invalid deciParams) true 123 4 ↔ PartsChecked deciParams 123 4) ∧
      (PowerExact deciParams (Decimal.invalid deciParams) intType (-123) 0 ↔
      PowerChecked deciParams intType (-123) 0) :=
  have hf : intType.Fits (-123) := by decide
  ⟨hf, decimal_construct_exact_iff deciParams (Decimal.invalid deciParams) true 123 4 intType (-123) 0 hf⟩

/-- 四桁がすべて小数点の下にある、`uint16_t` の `Decimal`。 -/
def fractionParams : Params := ⟨⟨4, 4, by decide, by decide⟩, .uint16⟩

theorem sharedParams_pos : 0 < 3 := by decide

theorem sharedParams_le : 1 ≤ 3 := by decide

/-- 三桁、うち小数点の下が一桁の、`uint16_t` の `Decimal`。 -/
def sharedParams : Params := ⟨⟨3, 1, sharedParams_pos, sharedParams_le⟩, .uint16⟩

/-- 零から作るときに `array_[1]` に書く。二桁の整数部に 100 を、また 1000 を入れてもあふれない。`10 ^ 9` 以上の `int` を
`10 ^ 9` で割ると、零になる。 -/
theorem decimal_construct_not_exact :
    ¬ PartsExact fractionParams (Decimal.invalid fractionParams) false 0 0 ∧
    ¬ PartsExact sharedParams (Decimal.invalid sharedParams) false 100 0 ∧
    ¬ PowerExact sharedParams (Decimal.invalid sharedParams) intType 100 0 ∧
    ¬ PowerExact sharedParams (Decimal.invalid sharedParams) intType 2000000000 10 := by
  have hf : intType.Fits 100 := by decide
  have hf' : intType.Fits 2000000000 := by decide
  refine ⟨?_, ?_, ?_, ?_⟩
  · rw [partsExact_iff]
    unfold PartsChecked
    decide
  · rw [partsExact_iff]
    unfold PartsChecked
    decide
  · rw [powerExact_iff hf]
    unfold PowerChecked
    decide
  · rw [powerExact_iff hf']
    unfold PowerChecked
    decide

end UnixCommons.Generics
