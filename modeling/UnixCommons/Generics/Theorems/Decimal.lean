import Mathlib.Data.List.Basic
import Mathlib.Order.Defs.Unbundled
import UnixCommons.Generics.Lemmas.SimpleConstruct

/-!
# 足し算、引き算、順序の定理

`Decimal` の足し算、引き算、順序は、`10 ^ FRACTION` 倍した整数のそれである。
-/

namespace UnixCommons.Generics

open Lib

variable {p : Params} {d d' : Decimal}

theorem Decimal.hashInput_congr (h : ∀ i < p.size, d.array i = d'.array i) : d.hashInput p = d'.hashInput p := by
  unfold Decimal.hashInput
  exact List.flatMap_congr fun i hi => by rw [h i (List.mem_range.mp hi)]

theorem Decimal.hashInput_eq (h : d.Valid p) (h' : d'.Valid p) (hv : d.value p = d'.value p) :
    d.hashInput p = d'.hashInput p := by
  refine Decimal.hashInput_congr (h.array_eq h' ?_)
  rw [← Decimal.value_natAbs, ← Decimal.value_natAbs, hv]

theorem Decimal.lt_strictWeakOrder :
    IsStrictWeakOrder { d : Decimal // d.Valid p } fun a b => a.1.lt p b.1 = true where
  irrefl a := by
    rw [Decimal.lt_iff a.2 a.2]
    exact Int.lt_irrefl _
  trans a b c := by
    rw [Decimal.lt_iff a.2 b.2, Decimal.lt_iff b.2 c.2, Decimal.lt_iff a.2 c.2]
    exact Int.lt_trans
  incomp_trans a b c := by
    simp only [Decimal.lt_iff a.2 b.2, Decimal.lt_iff b.2 a.2, Decimal.lt_iff b.2 c.2,
      Decimal.lt_iff c.2 b.2, Decimal.lt_iff a.2 c.2, Decimal.lt_iff c.2 a.2]
    omega

/-- 足し算、引き算、順序は、`10 ^ FRACTION` 倍した整数のそれである。置き場の `x` と `y` と `t` は同じ物でもよい。あふれは
絶対値が `10 ^ TOTAL` 以上のときにだけ起こり、`assert` は失敗しない。 -/
theorem decimal_add_sub_order_exact {ι : Type} [DecidableEq ι] {m : ι → Decimal} {x y : ι}
    (hx : (m x).Valid p) (hy : (m y).Valid p) (t : ι) :
    Spec (Decimal.add p x y t) m
      (fun _ m' => Stored p t m m' ((m x).value p + (m y).value p))
      (fun e _ => e = .overflow ∧ 10 ^ p.total ≤ ((m x).value p + (m y).value p).natAbs) ∧
    Spec (Decimal.sub p x y t) m
      (fun _ m' => Stored p t m m' ((m x).value p - (m y).value p))
      (fun e _ => e = .overflow ∧ 10 ^ p.total ≤ ((m x).value p - (m y).value p).natAbs) ∧
    ((m x).eq p (m y) = true ↔ (m x).value p = (m y).value p) ∧
    ((m x).ne p (m y) = true ↔ (m x).value p ≠ (m y).value p) ∧
    ((m x).lt p (m y) = true ↔ (m x).value p < (m y).value p) ∧
    ((m x).le p (m y) = true ↔ (m x).value p ≤ (m y).value p) ∧
    ((m x).gt p (m y) = true ↔ (m x).value p > (m y).value p) ∧
    ((m x).ge p (m y) = true ↔ (m x).value p ≥ (m y).value p) ∧
    IsStrictWeakOrder { d : Decimal // d.Valid p } (fun a b => a.1.lt p b.1 = true) ∧
    ((m x).value p = (m y).value p → (m x).hashInput p = (m y).hashInput p) := by
  have hlt := Decimal.lt_iff hx hy
  have hgt := Decimal.lt_iff hy hx
  refine ⟨add_spec hx hy, sub_spec hx hy, Decimal.eq_iff hx hy, ?_, hlt, ?_, hgt, ?_,
    Decimal.lt_strictWeakOrder, Decimal.hashInput_eq hx hy⟩
  · rw [Decimal.ne, Bool.not_eq_true', ← Bool.not_eq_true, Decimal.eq_iff hx hy]
  · rw [Decimal.le, Bool.not_eq_true', ← Bool.not_eq_true, hgt, Int.not_lt]
  · rw [Decimal.ge, Bool.not_eq_true', ← Bool.not_eq_true, hlt]
    exact Int.not_lt

/-- 三桁、うち小数点の下が一桁の、`unsigned char` の `Decimal`。 -/
def smallParams : Params := ⟨⟨3, 1, by decide, by decide⟩, .uint8⟩

theorem decimal_add_sub_order_exact_aliased :
    (⟨true, fun i => if i = 0 then 15 else 0⟩ : Decimal).Valid smallParams ∧
    Spec (Decimal.add smallParams () () ()) (fun _ => ⟨true, fun i => if i = 0 then 15 else 0⟩)
      (fun _ m' => (m' ()).value smallParams = -30) (fun _ _ => False) := by
  have hv : (⟨true, fun i => if i = 0 then 15 else 0⟩ : Decimal).Valid smallParams :=
    ⟨by decide, by decide⟩
  refine ⟨hv, (decimal_add_sub_order_exact (x := ()) (y := ()) hv hv ()).1.mono ?_ ?_⟩
  · intro _ m' h
    exact h.value.trans (by decide)
  · rintro e m' ⟨-, h⟩
    exact absurd h (by decide)

end UnixCommons.Generics

/-!
## あふれた後の値の定理

`operator +=`、`operator -=`、`ceil` は、物そのものに書きながらあふれを調べる。
-/

namespace UnixCommons.Generics

open Lib

variable {p : Params} {ι : Type} [DecidableEq ι] {m : ι → Decimal} {x y : ι} {d : Decimal} {n k : Nat}

/-- `Overflow` を投げるならば、`value` は前のままである。 -/
def KeepsOnOverflow {σ : Type} (value : σ → Int) (c : EStateM Fault σ PUnit) (s : σ) : Prop :=
  Spec c s (fun _ _ => True) (fun e s' => e = .overflow → value s' = value s)

def BreaksOnOverflow {σ : Type} (value : σ → Int) (c : EStateM Fault σ PUnit) (s : σ) : Prop :=
  Spec c s (fun _ _ => False) (fun e s' => e = .overflow ∧ value s' ≠ value s)

theorem BreaksOnOverflow.not_keeps {σ : Type} {value : σ → Int} {c : EStateM Fault σ PUnit} {s : σ}
    (h : BreaksOnOverflow value c s) : ¬ KeepsOnOverflow value c s := by
  intro hkeeps
  unfold BreaksOnOverflow Spec at h
  unfold KeepsOnOverflow Spec at hkeeps
  cases hx : c.run s with
  | ok a s' =>
      rw [hx] at h
      exact h
  | error e s' =>
      rw [hx] at h hkeeps
      exact h.2 (hkeeps h.1)

theorem sum_breaks (hx : (m x).Valid p) (hy : (m y).Valid p)
    (hover : 10 ^ p.total ≤ (m x).magnitude p + (m y).magnitude p) (sign : (ι → Decimal) → Bool) :
    BreaksOnOverflow (fun m => (m x).value p) (do
      set (internalAdd p x y x m).2
      if (internalAdd p x y x m).1 = true then throw Fault.overflow
      else modify fun m => setNegative x (sign m) m) m := by
  obtain ⟨hframe, -, hflag, -⟩ := internalAdd_spec x hx.digit hy.digit
  obtain ⟨carry, hcarry, hsum⟩ := internalAdd_carry x hx.digit hy.digit
  refine Spec.bind (Spec.set (Spec.ite (fun _ => Spec.throw ⟨rfl, fun heq => ?_⟩)
    (fun hno => absurd (hflag.mpr hover) hno)))
  have hmagnitude := congrArg Int.natAbs heq
  rw [Decimal.value_natAbs, Decimal.value_natAbs] at hmagnitude
  have hy' := hy.magnitude_lt
  have hx' := hx.magnitude_lt
  have hle := Params.pow_total_le (p := p)
  rcases Nat.le_one_iff_eq_zero_or_eq_one.mp hcarry with rfl | rfl
  · rw [hmagnitude, Nat.mul_zero] at hsum
    omega
  · rw [hmagnitude, Nat.mul_one] at hsum
    omega

theorem addAssign_breaks (hx : (m x).Valid p) (hy : (m y).Valid p)
    (hover : 10 ^ p.total ≤ ((m x).value p + (m y).value p).natAbs) :
    BreaksOnOverflow (fun m => (m x).value p) (Decimal.addAssign p x y) m := by
  have hx' := hx.magnitude_lt
  have hy' := hy.magnitude_lt
  have hsign : (m x).negative = (m y).negative := by
    by_contra hne
    unfold Decimal.value at hover
    cases hs : (m x).negative <;> cases hs' : (m y).negative <;> simp_all <;> omega
  unfold Decimal.addAssign Decimal.add
  refine Spec.bind (Spec.get (Spec.ite (fun _ => ?_) (fun hno => absurd hsign hno)))
  refine sum_breaks hx hy ?_ fun m => (m x).negative
  unfold Decimal.value at hover
  rw [hsign] at hover
  split at hover
  · omega
  · omega

theorem subAssign_breaks (hx : (m x).Valid p) (hy : (m y).Valid p)
    (hover : 10 ^ p.total ≤ ((m x).value p - (m y).value p).natAbs) :
    BreaksOnOverflow (fun m => (m x).value p) (Decimal.subAssign p x y) m := by
  have hx' := hx.magnitude_lt
  have hy' := hy.magnitude_lt
  have hsign : ¬ (m x).negative = (m y).negative := by
    intro heq
    unfold Decimal.value at hover
    rw [heq] at hover
    split at hover
    · omega
    · omega
  unfold Decimal.subAssign Decimal.sub
  refine Spec.bind (Spec.get (Spec.ite (fun heq => absurd heq hsign) (fun _ => ?_)))
  refine sum_breaks hx hy ?_ fun m => (m x).negative
  unfold Decimal.value at hover
  cases hs : (m x).negative <;> cases hs' : (m y).negative <;> simp_all <;> omega

theorem ceil_breaks (hd : d.Valid p) (hover : 10 ^ p.total ≤ ceilMagnitude (p.fraction - n) (d.magnitude p)) :
    BreaksOnOverflow (fun d => d.value p) (Decimal.ceil p n) d := by
  have hlt := hd.magnitude_lt
  have hk : p.fraction - n ≤ p.total := Nat.le_trans (Nat.sub_le _ _) p.fraction_le
  -- 下の桁が零ならば、切り上げは何もしない。
  have hmod : d.magnitude p % 10 ^ (p.fraction - n) ≠ 0 := by
    intro hzero
    rw [ceilMagnitude_eq, if_pos hzero, Nat.add_zero, Nat.div_mul_cancel (Nat.dvd_of_mod_eq_zero hzero)] at hover
    omega
  have hflag := (ceilArray_spec hd.digit hlt hk).1.mpr hover
  unfold Decimal.ceil
  refine Spec.ite (fun hn => ?_) (fun _ => Spec.bind
    (Spec.get (Spec.bind (Spec.set (Spec.ite (fun _ => Spec.throw ⟨rfl, fun heq => ?_⟩)
    (fun hno => absurd hflag hno))))))
  · rw [show p.fraction - n = 0 by omega, Nat.pow_zero, Nat.mod_one] at hmod
    exact absurd rfl hmod
  · have hmagnitude := congrArg Int.natAbs heq
    rw [Decimal.value_natAbs, Decimal.value_natAbs] at hmagnitude
    rw [← hmagnitude] at hmod
    exact hmod (ceilArray_low hd.digit hflag)

/-- 三つの操作が前の値を残すのは、あふれないときに限る。`x` と `y` は同じ物でもよい。 -/
theorem decimal_overflow_keeps_iff (hx : (m x).Valid p) (hy : (m y).Valid p) (hd : d.Valid p) (n : Nat) :
    (KeepsOnOverflow (fun m => (m x).value p) (Decimal.addAssign p x y) m ↔
    ((m x).value p + (m y).value p).natAbs < 10 ^ p.total) ∧
    (KeepsOnOverflow (fun m => (m x).value p) (Decimal.subAssign p x y) m ↔
    ((m x).value p - (m y).value p).natAbs < 10 ^ p.total) ∧
    (KeepsOnOverflow (fun d => d.value p) (Decimal.ceil p n) d ↔
      ceilMagnitude (p.fraction - n) (d.magnitude p) < 10 ^ p.total) := by
  refine ⟨⟨fun hkeeps => ?_, fun hfit => ?_⟩, ⟨fun hkeeps => ?_, fun hfit => ?_⟩, ⟨fun hkeeps => ?_, fun hfit => ?_⟩⟩
  · exact Nat.lt_of_not_le fun hover => (addAssign_breaks hx hy hover).not_keeps hkeeps
  · exact (add_spec hx hy).mono (fun _ _ _ => trivial) fun _ _ he => absurd hfit (Nat.not_lt.mpr he.2)
  · exact Nat.lt_of_not_le fun hover => (subAssign_breaks hx hy hover).not_keeps hkeeps
  · exact (sub_spec hx hy).mono (fun _ _ _ => trivial) fun _ _ he => absurd hfit (Nat.not_lt.mpr he.2)
  · exact Nat.lt_of_not_le fun hover => (ceil_breaks hd hover).not_keeps hkeeps
  · exact (Decimal.ceil_spec hd n).mono (fun _ _ _ => trivial) fun _ _ he => absurd hfit (Nat.not_lt.mpr he.2)

def largest : Decimal := ⟨false, fun i => if i = 0 then 99 else 9⟩

theorem largest_valid : largest.Valid smallParams := ⟨by decide, by decide⟩

theorem decimal_overflow_keeps_largest :
    (KeepsOnOverflow (fun m => (m ()).value smallParams) (Decimal.addAssign smallParams () ()) (fun _ => largest) ↔
      (largest.value smallParams + largest.value smallParams).natAbs < 10 ^ smallParams.total) ∧
    (KeepsOnOverflow (fun m => (m ()).value smallParams) (Decimal.subAssign smallParams () ()) (fun _ => largest) ↔
      (largest.value smallParams - largest.value smallParams).natAbs < 10 ^ smallParams.total) ∧
    (KeepsOnOverflow (fun d => d.value smallParams) (Decimal.ceil smallParams 0) largest ↔
      ceilMagnitude (smallParams.fraction - 0) (largest.magnitude smallParams) < 10 ^ smallParams.total) :=
  decimal_overflow_keeps_iff (m := fun _ : Unit => largest) (x := ()) (y := ()) largest_valid
    largest_valid largest_valid 0

/-- 99.9 に 99.9 を足すと `Overflow` になり、物の値は 99.9 でなくなる。切り上げも同じである。 -/
theorem overflow_loses_value :
    ¬ KeepsOnOverflow (fun m => (m ()).value smallParams) (Decimal.addAssign smallParams () ()) (fun _ => largest) ∧
    ¬ KeepsOnOverflow (fun d => d.value smallParams) (Decimal.ceil smallParams 0) largest := by
  refine ⟨(addAssign_breaks (m := fun _ : Unit => largest) largest_valid largest_valid
    ?_).not_keeps, (ceil_breaks largest_valid ?_).not_keeps⟩
  · decide
  · decide

end UnixCommons.Generics

/-!
## 狭い型への変換の定理

`narrow_decimal` は、`10 ^ FRACTION_RANK` と、それを掛けた値がどちらも広い型に収まるときに限って、端数を切り捨てた値を返す。
-/

namespace UnixCommons.Generics

open Lib

variable {p : Params} {s : SimpleParams} {d : Decimal}

/-- 端数を切り捨てた値。`10 ^ FRACTION_RANK` 倍した整数で表す。 -/
def narrowed (p : Params) (s : SimpleParams) (d : Decimal) : Int := (d.value p * 10 ^ s.fraction).tdiv (10 ^ p.fraction)

/-- 切り捨てた値が狭い型に収まればその値を返し、そうでなければ例外を投げる。 -/
def NarrowExact (p : Params) (s : SimpleParams) (d : Decimal) : Prop :=
  Returns (narrowDecimal p s d)
    (fun r => (narrowed p s d).natAbs < 10 ^ s.total ∧ r.Valid s ∧ r.value = narrowed p s d)
    (fun _ => 10 ^ s.total ≤ (narrowed p s d).natAbs)

/-- `10 ^ FRACTION_RANK` と、それを掛けた値が、広い型に収まる。 -/
def ScalesInside (p : Params) (s : SimpleParams) (d : Decimal) : Prop :=
  10 ^ s.fraction * 10 ^ p.fraction < p.powerLimit p.fraction ∧ d.magnitude p * 10 ^ s.fraction < 10 ^ p.total

theorem narrowed_eq :
    narrowed p s d =
      (if d.negative then -(d.magnitude p * 10 ^ s.fraction / 10 ^ p.fraction : Nat)
        else (d.magnitude p * 10 ^ s.fraction / 10 ^ p.fraction : Nat) : Int) := by
  have hcast : ((d.magnitude p * 10 ^ s.fraction / 10 ^ p.fraction : Nat) : Int) =
      ((d.magnitude p : Int) * 10 ^ s.fraction).tdiv (10 ^ p.fraction) := by
    rw [Int.natCast_div, Int.tdiv_eq_ediv_of_nonneg]
    · push_cast
      rfl
    · positivity
  unfold narrowed Decimal.value
  split
  · rw [Int.neg_mul, Int.neg_tdiv, hcast]
  · rw [hcast]

theorem narrowed_natAbs : (narrowed p s d).natAbs = d.magnitude p * 10 ^ s.fraction / 10 ^ p.fraction := by
  rw [narrowed_eq]
  split
  · rw [Int.natAbs_neg, Int.natAbs_natCast]
  · rw [Int.natAbs_natCast]

theorem int64Type_digits10 : int64Type.digits10 = 18 := by decide

/-- `10 ^ FRACTION_RANK` の構成。 -/
theorem factor_spec (p : Params) (hs : s.fraction ≤ 18) :
    Returns (Decimal.ofPower p int64Type (10 ^ s.fraction) 0)
      (fun c => 10 ^ s.fraction * 10 ^ p.fraction < p.powerLimit p.fraction ∧ (∀ i < p.size, c.array i < p.base) ∧
        c.magnitude p = 10 ^ s.fraction * 10 ^ p.fraction ∧ c.negative = false)
      (fun _ => p.powerLimit p.fraction ≤ 10 ^ s.fraction * 10 ^ p.fraction) := by
  have hpos : (0 : Int) < 10 ^ s.fraction := by positivity
  have hle : (10 : Int) ^ s.fraction ≤ 10 ^ 18 := pow_le_pow_right₀ (by norm_num) hs
  have hnot : ¬ (0 ≥ int64Type.digits10 + p.fraction ∨ (10 : Int) ^ s.fraction = 0) := by
    rw [int64Type_digits10]
    omega
  have hfits : int64Type.Fits (10 ^ s.fraction) := by
    refine ⟨?_, Int.lt_of_le_of_lt hle (by decide)⟩
    have hsigned : int64Type.signed = true := rfl
    rw [if_pos hsigned]
    exact Int.le_trans (by decide) (Int.le_of_lt hpos)
  have hmin : (10 : Int) ^ s.fraction ≠ -2 ^ int64Type.digits := by
    have hmodulus : (0 : Int) < 2 ^ int64Type.digits := by decide
    omega
  have hmagnitude : powerMagnitude p (10 ^ s.fraction) 0 = 10 ^ s.fraction * 10 ^ p.fraction := by
    unfold powerMagnitude
    rw [Int.natAbs_pow, Nat.pow_zero, Nat.div_one]
    rfl
  have hspec := constructPower_scaled (p := p) ⟨Decimal.invalid p, 0⟩ hnot hfits hmin
  rw [hmagnitude, Nat.zero_min, Nat.sub_zero] at hspec
  unfold Decimal.ofPower
  cases hx : (constructPower p int64Type (10 ^ s.fraction) 0).run ⟨Decimal.invalid p, 0⟩ with
  | ok _ c =>
      obtain ⟨hlt, hdigit, hm, hneg⟩ := hspec.ok hx
      exact ⟨hlt, hdigit, hm, hneg.trans (decide_eq_false (Int.not_lt.mpr (Int.le_of_lt hpos)))⟩
  | error e c => exact (hspec.error hx).2

/-- 取り出した整数からの構成。 -/
theorem narrowConstruct_spec {v : Int} (hv : v.natAbs ≤ int64Type.max) :
    Returns (SimpleDecimal.constructPower s int64Type v s.fraction)
      (fun r => v.natAbs < 10 ^ s.total ∧ r.Valid s ∧ r.value = v)
      (fun _ => 10 ^ s.total ≤ v.natAbs) := by
  have hmodulus : (2 : Int) ^ int64Type.digits = int64Type.max + 1 := by decide
  have hsigned : int64Type.signed = true := rfl
  have hfits : int64Type.Fits v := by
    constructor
    · rw [if_pos hsigned]
      omega
    · omega
  have hscaled : s.scaled v.natAbs s.fraction = v.natAbs := by
    rw [SimpleParams.scaled_of_le (Nat.le_refl _), Nat.sub_self, Nat.pow_zero, Nat.mul_one]
  have hdigits : s.fraction < int64Type.digits10 + s.fraction := by
    rw [int64Type_digits10]
    omega
  have hspec := SimpleDecimal.constructPower_spec (s := s) hfits (by omega) (by decide) hdigits
  rw [hscaled, Int.sign_mul_natAbs] at hspec
  refine hspec.mono (fun r hr => ⟨?_, hr⟩) (fun e he => he.2)
  rw [← hr.2, SimpleDecimal.value_natAbs]
  exact hr.1

theorem mulResult_floor {X : Nat} : mulResult p .floor X = X / 10 ^ p.fraction :=
  mulResult_eq_exactProduct (Or.inl (by decide))

/-- 四つの段階を合わせた言明。 -/
theorem narrowDecimal_spec (hd : d.Valid p) (hT : s.total ≤ 18) :
    Returns (narrowDecimal p s d)
      (fun r => ScalesInside p s d ∧ (narrowed p s d).natAbs < 10 ^ s.total ∧ r.Valid s ∧ r.value = narrowed p s d)
      (fun _ => ¬ ScalesInside p s d ∨ 10 ^ s.total ≤ (narrowed p s d).natAbs) := by
  have hpos : 0 < 10 ^ p.fraction := Nat.pow_pos (by decide)
  have hs : s.fraction ≤ 18 := Nat.le_trans s.fraction_le hT
  unfold narrowDecimal
  refine Returns.bind (Returns.mapError ((factor_spec p hs).mono ?_ ?_))
  · rintro factor ⟨hfactor, hdigit, hm, hneg⟩
    have hX : d.magnitude p * factor.magnitude p / 10 ^ p.fraction = d.magnitude p * 10 ^ s.fraction := by
      rw [hm, ← Nat.mul_assoc, Nat.mul_div_cancel _ hpos]
    have hproduct := mul_spec_of_digits .floor hd.digit hdigit
    rw [mulResult_floor, hX, hneg, Bool.bne_false] at hproduct
    refine Returns.bind (Returns.mapError (hproduct.mono ?_ ?_))
    · rintro product ⟨hvalid, hm', hneg'⟩
      have hscales : ScalesInside p s d := ⟨hfactor, hm' ▸ hvalid.magnitude_lt⟩
      have hinteger := Decimal.integer_spec int64Type hvalid
      rw [hm', hneg', ← narrowed_eq, ← narrowed_natAbs] at hinteger
      refine Returns.bind (Returns.mapError (hinteger.mono ?_ ?_))
      · rintro v ⟨rfl, hmax⟩
        exact Returns.mapError ((narrowConstruct_spec hmax).mono (fun r hr => ⟨hscales, hr⟩) fun e he => Or.inr he)
      · rintro e (⟨-, hlarge⟩ | ⟨-, hunsigned, -⟩)
        · have hlimit : 10 ^ s.total ≤ 10 ^ 18 := Nat.pow_le_pow_right (by decide) hT
          have hint64 : 10 ^ 18 ≤ int64Type.max := by decide
          exact Or.inr (Nat.le_trans (Nat.le_trans hlimit hint64) (Nat.le_of_lt hlarge))
        · exact absurd hunsigned (by decide)
    · rintro e ⟨-, hover⟩
      exact Or.inl fun h => Nat.not_le.mpr h.2 hover
  · intro e hover
    exact Or.inl fun h => Nat.not_le.mpr h.1 hover

/-- 切り捨てた値が狭い型に収まらないか、`10 ^ FRACTION_RANK` とそれを掛けた値が広い型に収まるときに限って、変換は正しい。 -/
theorem narrow_decimal_exact_iff (hd : d.Valid p) (hT : s.total ≤ 18) :
    NarrowExact p s d ↔ 10 ^ s.total ≤ (narrowed p s d).natAbs ∨ ScalesInside p s d := by
  have hspec := narrowDecimal_spec hd hT
  unfold NarrowExact
  constructor
  · intro hexact
    by_contra hno
    obtain ⟨hfit, hscales⟩ := not_or.mp hno
    cases hx : narrowDecimal p s d with
    | ok r => exact hscales (hspec.of_ok hx).1
    | error e => exact hfit (hexact.of_error hx)
  · intro hcond
    refine hspec.mono (fun r hr => hr.2) fun e he => ?_
    rcases he with hscales | hlarge
    · exact hcond.resolve_right hscales
    · exact hlarge

/-- `smallParams` と同じ桁数の、`uint32_t` の `SimpleDecimal`。 -/
def narrowParams : SimpleParams := ⟨smallParams.toRanks, .uint32, Nat.le_of_ble_eq_true rfl⟩

def minusTwelveTenths : Decimal := ⟨true, fun i => if i = 0 then 12 else 0⟩

def twelveAndThreeTenths : Decimal := ⟨false, fun i => if i = 0 then 23 else if i = 1 then 1 else 0⟩

theorem narrow_decimal_exact_small :
    NarrowExact smallParams narrowParams minusTwelveTenths ↔
      10 ^ narrowParams.total ≤ (narrowed smallParams narrowParams minusTwelveTenths).natAbs ∨
        ScalesInside smallParams narrowParams minusTwelveTenths :=
  narrow_decimal_exact_iff ⟨by decide, by decide⟩ (by decide)

/-- `12.3` は狭い型に収まるが、十倍すると広い型からあふれるので、例外になる。 -/
theorem narrow_decimal_rejects_fitting :
    twelveAndThreeTenths.Valid smallParams ∧ ¬ NarrowExact smallParams narrowParams twelveAndThreeTenths := by
  refine ⟨⟨by decide, by decide⟩, fun h => ?_⟩
  have hrun : narrowDecimal smallParams narrowParams twelveAndThreeTenths = .error (.product .overflow) := by decide
  exact absurd (h.of_error hrun) (by decide)

end UnixCommons.Generics
