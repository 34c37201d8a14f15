import UnixCommons.Generics.Theorems.Decimal
import UnixCommons.Generics.Theorems.DecimalConstruct

/-!
# `SimpleDecimal` の構成と符号の定理

整数からの構成と、符号の検査が、いつ正しいか。
-/

namespace UnixCommons.Generics

open Lib

/-! ## 整数からの `SimpleDecimal` の構成の定理

整数と十の冪からの構成は、早く零を返しすぎる場合を除いて、正確な値を切り捨てたものを作り、表せない値をあふれとする。
-/

section

variable {s : SimpleParams} {t : IntegerType} {v : Int} {power : Nat}

/-- 作った値が正確な値を切り捨てたものであり、表せないときにだけあふれる。 -/
structure SimplePowerExact (s : SimpleParams) (t : IntegerType) (v : Int) (power : Nat) : Prop where
  result : Returns (SimpleDecimal.constructPower s t v power)
    (fun d => d.Valid s ∧ d.value = v.sign * (v.natAbs * 10 ^ s.fraction / 10 ^ power : Nat))
    (fun e => (∃ integer, e = .overflow integer) ∧ 10 ^ s.total ≤ v.natAbs * 10 ^ s.fraction / 10 ^ power)
  intermediates : power < t.digits10 + s.fraction → SimpleDecimal.IntermediatesFit s t v.natAbs power

theorem simplePower_zero_iff (h : power ≥ t.digits10 + s.fraction ∨ v = 0) :
    Returns (SimpleDecimal.constructPower s t v power)
      (fun d => d.Valid s ∧ d.value = v.sign * (v.natAbs * 10 ^ s.fraction / 10 ^ power : Nat))
      (fun e => (∃ integer, e = .overflow integer) ∧ 10 ^ s.total ≤ v.natAbs * 10 ^ s.fraction / 10 ^ power) ↔
    v = 0 ∨ v.natAbs * 10 ^ s.fraction / 10 ^ power = 0 := by
  have hrun : SimpleDecimal.constructPower s t v power = .ok ⟨false, 0⟩ := by
    unfold SimpleDecimal.constructPower
    rw [if_pos h]
    rfl
  have hvalid : (⟨false, 0⟩ : SimpleDecimal).Valid s := Nat.pow_pos (by decide)
  rw [hrun]
  constructor
  · rintro ⟨-, hvalue⟩
    have hzero : v.sign * (v.natAbs * 10 ^ s.fraction / 10 ^ power : Nat) = 0 := hvalue.symm
    rwa [Int.mul_eq_zero, Int.sign_eq_zero_iff_zero, Int.natCast_eq_zero] at hzero
  · rintro (rfl | hzero)
    · exact ⟨hvalid, by simp [SimpleDecimal.value]⟩
    · refine ⟨hvalid, ?_⟩
      rw [hzero]
      simp [SimpleDecimal.value]

/-- 整数と十の冪からの構成は、対になる正の数のない値を除き、`digits10` の桁の検査が桁を見捨てないときに限って正しい。 -/
theorem simple_construct_power_exact_iff (hf : t.Fits v) (hv : v ≠ -2 ^ t.digits) (hd : t.digits ≤ 64) :
    SimplePowerExact s t v power ↔ power ≠ t.digits10 + s.fraction ∨ v.natAbs < 10 ^ t.digits10 := by
  have hnat := IntegerType.natAbs_lt_pow hf hv
  have hfit (hp : power < t.digits10 + s.fraction) := SimpleDecimal.intermediates_fit (s := s) hp hnat
  by_cases hzero : power ≥ t.digits10 + s.fraction ∨ v = 0
  · have hmagnitude (hp : t.digits10 + s.fraction ≤ power) :=
      powerMagnitude_eq_zero_iff (p := ⟨s.toRanks, s.base⟩) hf hp
    constructor
    · intro hexact
      rcases (simplePower_zero_iff hzero).mp hexact.result with rfl | hnone
      · exact Or.inr (Nat.pow_pos (by decide))
      · by_cases hp : t.digits10 + s.fraction ≤ power
        · exact (hmagnitude hp).mp hnone
        · exact Or.inl (by omega)
    · intro hcond
      refine ⟨(simplePower_zero_iff hzero).mpr ?_, hfit⟩
      rcases hzero with hp | rfl
      · exact Or.inr ((hmagnitude hp).mpr hcond)
      · exact Or.inl rfl
  · have hp : power < t.digits10 + s.fraction := by omega
    refine ⟨fun _ => Or.inl (by omega), fun _ => ⟨?_, hfit⟩⟩
    exact (SimpleDecimal.constructPower_spec hf hv hd hp).mono (fun _ h => h) fun _ he => ⟨⟨_, he.1⟩, he.2⟩

/-- 五桁、うち小数点の下が一桁の、`uint32_t` の `SimpleDecimal`。 -/
def deciSimple : SimpleParams := ⟨⟨5, 1, Nat.succ_pos 4, Nat.succ_le_succ (Nat.zero_le 4)⟩, .uint32,
    Nat.le_of_ble_eq_true rfl⟩

theorem simple_construct_power_exact_deci :
    SimplePowerExact deciSimple intType (-123456) 2 ↔ 2 ≠ intType.digits10 + deciSimple.fraction ∨
      (-123456 : Int).natAbs < 10 ^ intType.digits10 :=
  simple_construct_power_exact_iff (by decide) (by decide) (by decide)

/-- `10 ^ 9` 以上の `int` を `10 ^ 10` で割ると、小数点の下の一桁が残るはずであるが、零になる。 -/
theorem simple_construct_power_drops_digit : intType.Fits 2000000000 ∧
    ¬ SimplePowerExact deciSimple intType 2000000000 10 := by
  refine ⟨by decide, fun h => ?_⟩
  have hrun : SimpleDecimal.constructPower deciSimple intType 2000000000 10 = .ok ⟨false, 0⟩ := by decide
  have hvalue := (h.result.of_ok hrun).2
  exact absurd hvalue (by decide)

end

/-! ## 符号の検査の定理

`is_nonnegative` と `is_nonpositive` は符号だけを見るので、零との比較と合うのは、零でない値に限る。`+0` は `is_nonpositive` でなく、
`-0` は `is_nonnegative` でない。
-/

section

variable {p : Params} {s : SimpleParams} {a b : Nat → Nat} {n : Nat}

/-! ## 零との比較 -/

theorem Decimal.zero_spec (p : Params) : (Decimal.zero p).magnitude p = 0 ∧ (Decimal.zero p).negative = false := by
  have hstart : (Construction.mk (Decimal.invalid p) 0).written = 0 := rfl
  have hspec := constructParts_spec (p := p) false 0 0 hstart
  unfold Decimal.zero
  cases hx : (constructParts p false 0 0).run ⟨Decimal.invalid p, 0⟩ with
  | ok _ c =>
      obtain ⟨-, -, -, -, hmagnitude, hnegative⟩ := hspec.ok hx
      exact ⟨by simpa using hmagnitude, hnegative⟩
  | error e c =>
      have hpow : 0 < 10 ^ p.fraction := Nat.pow_pos (by decide)
      have hlimit : 0 < p.partsLimit := by
        unfold Params.partsLimit
        split
        · exact Params.fractionOver_pos
        · exact Nat.pow_pos (by decide)
      have hfault := (hspec.error hx).2
      omega

theorem Decimal.zero_array (p : Params) : ∀ i < p.size, (Decimal.zero p).array i = 0 :=
  (val_eq_zero_iff Params.base_pos).mp (Decimal.zero_spec p).1

theorem isLessThanLoop_zero_right (hb : ∀ i ≤ n, b i = 0) : (isLessThanLoop a b n).1 = false := by
  induction n with
  | zero =>
      unfold isLessThanLoop
      rw [hb 0 (Nat.le_refl 0), if_neg (Nat.not_lt_zero _)]
      split
      · rfl
      · rfl
  | succ n ih =>
      unfold isLessThanLoop
      rw [hb (n + 1) (Nat.le_refl _), if_neg (Nat.not_lt_zero _)]
      split
      · rfl
      · exact ih fun i hi => hb i (Nat.le_succ_of_le hi)

theorem isLessThanLoop_zero_left (ha : ∀ i ≤ n, a i = 0) : (isLessThanLoop a b n).1 = true ↔ ∃ i ≤ n, b i ≠ 0 := by
  induction n with
  | zero =>
      unfold isLessThanLoop
      rw [ha 0 (Nat.le_refl 0)]
      by_cases hb : 0 < b 0
      · rw [if_pos hb]
        simpa using Nat.ne_of_gt hb
      · rw [if_neg hb, if_neg (Nat.not_lt_zero _)]
        simpa using Nat.eq_zero_of_not_pos hb
  | succ n ih =>
      unfold isLessThanLoop
      rw [ha (n + 1) (Nat.le_refl _)]
      by_cases hb : 0 < b (n + 1)
      · rw [if_pos hb]
        exact ⟨fun _ => ⟨n + 1, Nat.le_refl _, Nat.ne_of_gt hb⟩, fun _ => rfl⟩
      · rw [if_neg hb, if_neg (Nat.not_lt_zero _), ih fun i hi => ha i (Nat.le_succ_of_le hi)]
        have hzero : b (n + 1) = 0 := Nat.eq_zero_of_not_pos hb
        constructor
        · rintro ⟨i, hi, hne⟩
          exact ⟨i, Nat.le_succ_of_le hi, hne⟩
        · rintro ⟨i, hi, hne⟩
          rcases Nat.eq_or_lt_of_le hi with rfl | hlt
          · exact absurd hzero hne
          · exact ⟨i, Nat.le_of_lt_succ hlt, hne⟩

/-- 零より小さいのは、負の符号の、零でない値である。 -/
theorem Decimal.lt_zero (d : Decimal) : d.lt p (Decimal.zero p) = (d.negative && !d.isZero p) := by
  have hsize := Params.size_pos (p := p)
  have hzero : (Decimal.zero p).isZero p = true := Decimal.isZero_iff.mpr (Decimal.zero_spec p).1
  have hless : (d.isLessThan p (Decimal.zero p)).1 = false :=
    isLessThanLoop_zero_right fun i hi => Decimal.zero_array p i (by omega)
  unfold Decimal.lt
  rw [(Decimal.zero_spec p).2, hzero, hless]
  cases d.negative
  · simp
  · simp

theorem Decimal.zero_lt (d : Decimal) : (Decimal.zero p).lt p d = (!d.negative && !d.isZero p) := by
  have hsize := Params.size_pos (p := p)
  have hless : ((Decimal.zero p).isLessThan p d).1 = !d.isZero p := by
    rw [Bool.eq_iff_iff, Decimal.isLessThan, isLessThanLoop_zero_left fun i hi => Decimal.zero_array p i (by omega),
      Bool.not_eq_true', ← Bool.not_eq_true, Decimal.isZero, all_range_iff]
    push Not
    constructor
    · rintro ⟨i, hi, hne⟩
      exact ⟨i, by omega, by simpa using hne⟩
    · rintro ⟨i, hi, hne⟩
      exact ⟨i, by omega, by simpa using hne⟩
  unfold Decimal.lt
  rw [(Decimal.zero_spec p).2, hless]
  simp

theorem SimpleDecimal.zero_eq (s : SimpleParams) : SimpleDecimal.zero s = ⟨false, 0⟩ := by
  have hspec := SimpleDecimal.constructParts_spec (s := s) false
      (Nat.pow_pos (by decide) : 0 < 2 ^ 64) (Nat.pow_pos (by decide) : 0 < 2 ^ 64)
  unfold SimpleDecimal.zero
  cases hx : SimpleDecimal.constructParts s false 0 0 with
  | ok d => simpa using (hspec.of_ok hx).1
  | error e =>
      have hfault := hspec.of_error hx
      have h1 : 0 < 10 ^ s.integer := Nat.pow_pos (by decide)
      have h2 : 0 < 10 ^ s.fraction := Nat.pow_pos (by decide)
      omega

/-! ## 主定理 -/

/-- 符号の検査が零との比較と合うのは、零でない値に限る。 -/
theorem sign_predicates_iff (p : Params) (s : SimpleParams) (d : Decimal) (e : SimpleDecimal) :
    ((d.isNonnegative = true ↔ d.ge p (Decimal.zero p) = true) ∧
    (d.isNonpositive = true ↔ d.le p (Decimal.zero p) = true) ↔
      d.isZero p = false) ∧
    ((e.isNonnegative = true ↔ e.ge (SimpleDecimal.zero s) = true) ∧
    (e.isNonpositive = true ↔ e.le (SimpleDecimal.zero s) = true) ↔
      e.isZero = false) := by
  constructor
  · unfold Decimal.ge Decimal.le Decimal.isNonnegative Decimal.isNonpositive
    rw [Decimal.lt_zero, Decimal.zero_lt]
    cases d.negative
    · cases d.isZero p
      · simp
      · simp
    · cases d.isZero p
      · simp
      · simp
  · unfold SimpleDecimal.ge SimpleDecimal.le SimpleDecimal.isNonnegative SimpleDecimal.isNonpositive
      SimpleDecimal.isZero SimpleDecimal.lt
    rw [SimpleDecimal.zero_eq]
    cases e.negative
    · by_cases hd : e.data = 0
      · simp [hd]
      · simp [hd, Nat.pos_of_ne_zero hd]
    · by_cases hd : e.data = 0
      · simp [hd]
      · simp [hd]

/-- `ZERO` そのものが、零以下であるのに `is_nonpositive` でない。 -/
theorem zero_not_nonpositive :
    ¬ ((Decimal.zero smallParams).isNonpositive = true ↔
      (Decimal.zero smallParams).le smallParams (Decimal.zero smallParams) = true) ∧
    ¬ ((SimpleDecimal.zero deciSimple).isNonpositive = true ↔
      (SimpleDecimal.zero deciSimple).le (SimpleDecimal.zero deciSimple) = true) := by decide

end

end UnixCommons.Generics
