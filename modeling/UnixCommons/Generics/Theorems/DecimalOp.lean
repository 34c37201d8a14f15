import UnixCommons.Generics.Lemmas.DecimalOp

/-! # 十進数の計算の定理 -/

/-!
## 乗算と除算の定理

掛け算の丸めと、割り算の三つの道。
-/

namespace UnixCommons.Generics

open Lib

/-! ### 掛け算の丸めの定理

`DMR_FLOOR` と `DMR_ROUND` は正しい。`DMR_CEIL` は、切り捨てる桁のうち一つの要素しか見ないので、その下の要素だけが
零でないときに切り上げない。
-/

section

variable {p : Params} {a b : Decimal} {dmr : DecimalMulRemainder} {X : Nat}

/-- 掛け算は、丸めた積を返し、それが `TOTAL` 桁を超えるときにだけあふれる。 -/
def MulExact (p : Params) (a b : Decimal) (dmr : DecimalMulRemainder) : Prop :=
  Returns (Decimal.mul p a b dmr)
    (fun d => d.Valid p ∧ d.magnitude p = exactProduct p dmr (a.magnitude p * b.magnitude p) ∧
      d.negative = (a.negative != b.negative))
    (fun e => e = .overflow ∧ 10 ^ p.total ≤ exactProduct p dmr (a.magnitude p * b.magnitude p))

/-- 掛け算が正確であるのは、`DMR_CEIL` でないか、その検査が切り捨てる桁を正しく見分けるときに限る。 -/
theorem decimal_mul_exact_iff (ha : a.Valid p) (hb : b.Valid p) (dmr : DecimalMulRemainder) :
    MulExact p a b dmr ↔ dmr ≠ .ceil ∨ CeilSeen p (a.magnitude p * b.magnitude p) := by
  constructor
  · intro hexact
    by_contra hno
    rw [not_or, ne_eq, not_not] at hno
    obtain ⟨rfl, hno⟩ := hno
    obtain ⟨d, hd, hlt⟩ := mul_spec_of_unseen ha hb hno
    have := (hexact.of_ok hd).2.1
    omega
  · exact fun hcond => mul_spec_of_seen ha hb hcond

theorem milliParams_pos : 0 < 4 := by decide

theorem milliParams_le : 3 ≤ 4 := by decide

/-- 四桁、うち小数点の下が三桁の、`unsigned char` の `Decimal`。 -/
def milliParams : Params := ⟨⟨4, 3, milliParams_pos, milliParams_le⟩, .uint8⟩

def milli : Decimal := ⟨false, fun i => if i = 0 then 1 else 0⟩

theorem milli_valid : milli.Valid milliParams := ⟨by decide, by decide⟩

theorem decimal_mul_exact_iff_milli :
    milli.Valid milliParams ∧ (MulExact milliParams milli milli .round ↔
      DecimalMulRemainder.round ≠ .ceil ∨
      CeilSeen milliParams (milli.magnitude milliParams * milli.magnitude milliParams)) :=
  ⟨milli_valid, decimal_mul_exact_iff milli_valid milli_valid .round⟩

/-- 0.001 と 0.001 の積は、切り上げると 0.001 であるが、`DMR_CEIL` の結果は零である。 -/
theorem decimal_mul_ceil_loses_digits : ¬ MulExact milliParams milli milli .ceil := by
  have hrun : (match Decimal.mul milliParams milli milli .ceil with
      | .ok d => d.magnitude milliParams == 0
      | .error _ => false) = true := by decide
  have hexact : exactProduct milliParams .ceil (milli.magnitude milliParams * milli.magnitude milliParams) = 1 := by
    decide
  intro h
  cases hx : Decimal.mul milliParams milli milli .ceil with
  | ok d =>
      have hm := (h.of_ok hx).2.1
      rw [hx] at hrun
      rw [hexact, beq_iff_eq.mp hrun] at hm
      exact absurd hm (by decide)
  | error e =>
      rw [hx] at hrun
      cases hrun

end

/-! ### 割り算の定理

`div_` の三つの道は切り捨てた商を作り、`DDR_CEIL` は割り切れないときにだけ切り上げる。
-/

section

variable {p : Params} {a b : Decimal}

/-- 割り算は正確であり、商が `TOTAL` 桁を超えるときにだけあふれ、`assert` は失敗しない。`q` は、商を書く前の物である。 -/
theorem decimal_div_exact (ha : a.Valid p) (hb : b.Valid p) (hz : b.magnitude p ≠ 0) (q : Decimal)
    (ddr : DecimalDivRemainder) :
    Returns (a.divInner p b q)
      (fun r => r.2.Valid p ∧ r.2.magnitude p = a.magnitude p * 10 ^ p.fraction / b.magnitude p ∧
        r.2.negative = (a.negative != b.negative))
      (fun e => e = .overflow ∧ 10 ^ p.total ≤ a.magnitude p * 10 ^ p.fraction / b.magnitude p) ∧
    Returns (Decimal.div p a b ddr)
      (fun d => d.Valid p ∧ d.magnitude p = exactQuotient p ddr (a.magnitude p) (b.magnitude p) ∧
        d.negative = (a.negative != b.negative))
      (fun e => e = .overflow ∧ 10 ^ p.total ≤ exactQuotient p ddr (a.magnitude p) (b.magnitude p)) := by
  refine ⟨(divInner_spec ha hb hz q).mono ?_ fun _ he => he, div_spec ha hb hz ddr⟩
  rintro r ⟨hv, hm, hn, -⟩
  exact ⟨hv, hm, hn⟩

/-- 八桁、うち小数点の下が三桁の、`unsigned char` の `Decimal`。 -/
def longParams : Params := ⟨⟨8, 3, by decide, by decide⟩, .uint8⟩

def longDividend : Decimal := ⟨false, fun i => 12345678 / 100 ^ i % 100⟩

def longDivisor : Decimal := ⟨true, fun i => 23456 / 100 ^ i % 100⟩

theorem decimal_div_exact_long :
    longDividend.Valid longParams ∧ longDivisor.Valid longParams ∧ longDivisor.magnitude longParams ≠ 0 ∧
    Returns (Decimal.div longParams longDividend longDivisor .ceil)
      (fun d => d.magnitude longParams = 526334 ∧ d.negative = true) fun _ => False := by
  have ha : longDividend.Valid longParams := ⟨by decide, by decide⟩
  have hb : longDivisor.Valid longParams := ⟨by decide, by decide⟩
  have hz : longDivisor.magnitude longParams ≠ 0 := by decide
  have hq : exactQuotient longParams .ceil (longDividend.magnitude longParams)
      (longDivisor.magnitude longParams) = 526334 := by
    decide
  refine ⟨ha, hb, hz, (decimal_div_exact ha hb hz longDividend .ceil).2.mono ?_ ?_⟩
  · rintro d ⟨-, hm, hn⟩
    exact ⟨hm.trans hq, hn⟩
  · rintro e ⟨-, hover⟩
    rw [hq] at hover
    exact absurd hover (by decide)

end

end UnixCommons.Generics

/-!
## 二つの十進数の型の一致

`Decimal` と `SimpleDecimal` は、同じ桁数の同じ値に対して同じ結果を返す。
-/

namespace UnixCommons.Generics

open Lib

variable {p : Params} {s : SimpleParams} {a b : Decimal} {x y : SimpleDecimal} {u v : Int}

def DecimalOp.Agrees (p : Params) (op : DecimalOp) (u v : Int) : Prop :=
  match op with
  | .mul dmr => dmr ≠ .ceil ∨ CeilSeen p (u.natAbs * v.natAbs)
  | .str => Printable p.toRanks u
  | .ceil fraction => DecimalOp.Fits p (.ceil fraction) u v ∨ Printable p.toRanks u
  | op => op.Fits p u v ∨ Printable p.toRanks u ∧ Printable p.toRanks v

theorem printFault_eq_overflow {r : Ranks} : printFault r u v = .overflow ↔ Printable r u ∧ Printable r v := by
  unfold printFault
  split <;> simp_all

theorem mul_fits {dmr : DecimalMulRemainder} (hu : u.natAbs < 10 ^ p.total)
    (hv : v.natAbs < 10 ^ p.total) (hi : p.integer = 0) : DecimalOp.Fits p (.mul dmr) u v := by
  have hF : p.fraction = p.total := by
    have h1 := p.fraction_le
    have h2 : p.total - p.fraction = 0 := hi
    omega
  have hbig : 10 ≤ 10 ^ p.total := Nat.le_self_pow (Nat.ne_of_gt p.total_pos) 10
  have hX : u.natAbs * v.natAbs < (10 ^ p.total - 1) * 10 ^ p.total := by
    calc u.natAbs * v.natAbs ≤ (10 ^ p.total - 1) * (10 ^ p.total - 1) := Nat.mul_le_mul (by omega) (by omega)
      _ < (10 ^ p.total - 1) * 10 ^ p.total := Nat.mul_lt_mul_of_pos_left (by omega) (by omega)
  have hdiv : u.natAbs * v.natAbs / 10 ^ p.total < 10 ^ p.total - 1 := by
    rw [Nat.div_lt_iff_lt_mul (by omega)]
    exact hX
  unfold DecimalOp.Fits
  dsimp only
  rw [exactProduct_eq, hF]
  have hone : ∀ (c : Prop) [Decidable c], (if c then 1 else 0 : Nat) ≤ 1 := fun c _ => by split <;> omega
  exact Nat.lt_of_le_of_lt (Nat.add_le_add_left (hone _) _) (by omega)

theorem perform_mul_unseen (hr : s.toRanks = p.toRanks) (ha : a.Valid p) (hb : b.Valid p)
    (hx : x.Valid s) (hy : y.Valid s)
    (hax : x.value = a.value p) (hby : y.value = b.value p) (hno : ¬ CeilSeen p (a.magnitude p * b.magnitude p)) :
    Decimal.perform p (.mul .ceil) a b ≠ SimpleDecimal.perform s (.mul .ceil) x y := by
  obtain ⟨d, hd, hone⟩ := mul_spec_of_unseen ha hb hno
  rw [SimpleDecimal.perform_eq hr hx hy (by simp), hax, hby]
  unfold Decimal.perform DecimalOp.exact bounded
  dsimp only
  rw [hd, Decimal.value_natAbs, Decimal.value_natAbs, hone]
  intro heq
  split at heq
  · have hval := congrArg Int.natAbs (DecimalResult.value.inj (Except.ok.inj heq))
    rw [natAbs_signedBy, Decimal.value_natAbs] at hval
    omega
  · cases heq

/-- 二つの型の操作は、`Agrees` のときに限って、同じ値を返すか、ともにあふれる。 -/
theorem decimal_types_agree_iff (hr : s.toRanks = p.toRanks) (ha : a.Valid p) (hb : b.Valid p) (hx : x.Valid s)
    (hy : y.Valid s) (hax : x.value = a.value p) (hby : y.value = b.value p) (op : DecimalOp) :
    Decimal.perform p op a b = SimpleDecimal.perform s op x y ↔ op.Agrees p (a.value p) (b.value p) := by
  have hP : Printable s.toRanks x.value ↔ Printable p.toRanks (a.value p) := by rw [hr, hax]
  -- `str` と、見落としのある積を除けば、二つの型の操作は同じ正確な操作である。
  have hcore : op ≠ .str → (op = .mul .ceil → CeilSeen p (a.magnitude p * b.magnitude p)) →
      (Decimal.perform p op a b = SimpleDecimal.perform s op x y ↔
        op.Fits p (a.value p) (b.value p) ∨ op.fault p.toRanks (a.value p) (b.value p) = .overflow) := by
    intro h1 h2
    rw [Decimal.perform_eq ha hb h2, SimpleDecimal.perform_eq hr hx hy h1, hax, hby, hr]
    exact DecimalOp.exact_eq_iff
  have hpair : ∀ op : DecimalOp, op.fault p.toRanks (a.value p) (b.value p) = printFault p.toRanks
      (a.value p) (b.value p) →
      (op.Fits p (a.value p) (b.value p) ∨ op.fault p.toRanks (a.value p) (b.value p) = .overflow ↔
        op.Fits p (a.value p) (b.value p) ∨ Printable p.toRanks (a.value p) ∧ Printable p.toRanks (b.value p)) := by
    intro op h
    rw [h, printFault_eq_overflow]
  cases op with
  | add => exact (hcore (by simp) (by simp)).trans (hpair .add rfl)
  | sub => exact (hcore (by simp) (by simp)).trans (hpair .sub rfl)
  | mul dmr =>
      unfold DecimalOp.Agrees
      dsimp only
      rw [Decimal.value_natAbs, Decimal.value_natAbs]
      by_cases hcond : dmr ≠ .ceil ∨ CeilSeen p (a.magnitude p * b.magnitude p)
      · refine ⟨fun _ => hcond, fun _ => (hcore (by simp) fun h => ?_).mpr ?_⟩
        · cases h
          exact hcond.resolve_left fun hne => hne rfl
        · by_cases hi : p.integer = 0
          · exact Or.inl (mul_fits ha.value_lt hb.value_lt hi)
          · exact Or.inr (printFault_eq_overflow.mpr ⟨Or.inl hi, Or.inl hi⟩)
      · refine ⟨fun heq => ?_, fun h => absurd h hcond⟩
        rw [not_or, ne_eq, not_not] at hcond
        obtain ⟨rfl, hno⟩ := hcond
        exact absurd heq (perform_mul_unseen hr ha hb hx hy hax hby hno)
  | div ddr => exact (hcore (by simp) (by simp)).trans (hpair (.div ddr) rfl)
  | divRemainder => exact (hcore (by simp) (by simp)).trans (hpair .divRemainder rfl)
  | floor fraction => exact (hcore (by simp) (by simp)).trans (hpair (.floor fraction) rfl)
  | ceil fraction =>
      refine (hcore (by simp) (by simp)).trans (or_congr Iff.rfl ?_)
      exact printFault_eq_overflow.trans and_self_iff
  | eq => exact (hcore (by simp) (by simp)).trans (hpair .eq rfl)
  | lt => exact (hcore (by simp) (by simp)).trans (hpair .lt rfl)
  | str =>
      unfold DecimalOp.Agrees
      dsimp only
      rw [Decimal.perform_eq ha hb (by simp), SimpleDecimal.perform, SimpleDecimal.str_eq hx]
      by_cases hp : Printable p.toRanks (a.value p)
      · refine ⟨fun _ => hp, fun _ => ?_⟩
        have hF : s.fraction = p.fraction := congrArg Ranks.fraction hr
        rw [if_pos (hP.mpr hp), hF, decimalText_sign, ← SimpleDecimal.value, hax, ← SimpleDecimal.value_natAbs, hax]
        rfl
      · rw [if_neg (mt hP.mp hp)]
        refine ⟨fun h => ?_, fun h => absurd h hp⟩
        cases h

theorem agreeParams_pos : 0 < 4 := by decide

theorem agreeParams_le : 3 ≤ 4 := by decide

/-- 四桁、うち小数点の下が三桁の `Decimal` と、同じ桁数の `uint16_t` の `SimpleDecimal`。 -/
def agreeParams : Params := ⟨⟨4, 3, agreeParams_pos, agreeParams_le⟩, .uint8⟩

theorem agreeSimple_fits : 4 ≤ Element.uint16.digits10 := by decide

def agreeSimple : SimpleParams := ⟨⟨4, 3, agreeParams_pos, agreeParams_le⟩, .uint16, agreeSimple_fits⟩

/-- 小数点の下の一桁だけの `Decimal` と、同じ桁数の `uint8_t` の `SimpleDecimal`。 -/
def tenthParams : Params := ⟨⟨1, 1, by decide, by decide⟩, .uint8⟩

def tenthSimple : SimpleParams := ⟨⟨1, 1, by decide, by decide⟩, .uint8, by decide⟩

def leastDecimal (negative : Bool) : Decimal := ⟨negative, fun i => if i = 0 then 1 else 0⟩

def leastSimple (negative : Bool) : SimpleDecimal := ⟨negative, 1⟩

theorem leastDecimal_valid (negative : Bool) : (leastDecimal negative).Valid agreeParams := by
  cases negative
  · exact ⟨by decide, by decide⟩
  · exact ⟨by decide, by decide⟩

theorem leastSimple_valid (negative : Bool) : (leastSimple negative).Valid agreeSimple := show 1 < 10 ^ 4 by decide

theorem decimal_types_agree_iff_least :
    (leastDecimal false).Valid agreeParams ∧
    (Decimal.perform agreeParams .add (leastDecimal false) (leastDecimal true) =
      SimpleDecimal.perform agreeSimple .add (leastSimple false) (leastSimple true) ↔
      DecimalOp.Agrees agreeParams .add ((leastDecimal false).value agreeParams)
      ((leastDecimal true).value agreeParams)) :=
  ⟨leastDecimal_valid false, decimal_types_agree_iff rfl (leastDecimal_valid false) (leastDecimal_valid true)
    (leastSimple_valid false) (leastSimple_valid true) (by decide) (by decide) .add⟩

/-- 0.001 の二乗の切り上げは `Decimal` では零、`SimpleDecimal` では 0.001 である。-0.1 の文字列は `SimpleDecimal` では書けない。 -/
theorem decimal_types_disagree :
    (leastDecimal false).Valid agreeParams ∧ (leastSimple false).Valid agreeSimple ∧
    (leastSimple false).value = (leastDecimal false).value agreeParams ∧
    Decimal.perform agreeParams (.mul .ceil) (leastDecimal false) (leastDecimal false) = .ok (.value 0) ∧
    SimpleDecimal.perform agreeSimple (.mul .ceil) (leastSimple false) (leastSimple false) = .ok (.value 1) ∧
    (leastDecimal true).Valid tenthParams ∧ (leastSimple true).Valid tenthSimple ∧
    (leastSimple true).value = (leastDecimal true).value tenthParams ∧
    Decimal.perform tenthParams .str (leastDecimal true) (leastDecimal true) = .ok (.text ['-', '0', '.', '1']) ∧
    SimpleDecimal.perform tenthSimple .str (leastSimple true) (leastSimple true) = .error .outOfBuffer := by
  refine ⟨leastDecimal_valid false, leastSimple_valid false, by decide, by decide, by decide,
    ⟨by decide, by decide⟩, show 1 < 10 ^ 1 by decide, by decide, by decide, by decide⟩

end UnixCommons.Generics
