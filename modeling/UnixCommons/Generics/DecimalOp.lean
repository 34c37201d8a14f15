import UnixCommons.Generics.Lemmas.SimpleDecimal

/-!
# 二つの十進数の型に共通の操作

`Decimal` と `SimpleDecimal` は同じ操作を持つ。操作を一つの型の値とし、結果を、表し方によらない値にして比べる。二つの型の間に、
整数の上の正確な操作を置く。
-/

namespace UnixCommons.Generics

open Lib

inductive DecimalOp
  | add
  | sub
  | mul (dmr : DecimalMulRemainder)
  | div (ddr : DecimalDivRemainder)
  | divRemainder
  | floor (fraction : Nat)
  | ceil (fraction : Nat)
  | eq
  | lt
  | str
  deriving DecidableEq, Repr

/-- 操作の結果。値は `10 ^ FRACTION` 倍した整数であり、零の符号は区別しない。 -/
inductive DecimalResult
  | value (v : Int)
  | pair (quotient remainder : Int)
  | flag (b : Bool)
  | text (t : List Char)
  deriving DecidableEq, Repr

def Decimal.perform (p : Params) (op : DecimalOp) (a b : Decimal) : Except Fault DecimalResult :=
  match op with
  | .add => (a.plus p b).map fun d => .value (d.value p)
  | .sub => (a.minus p b).map fun d => .value (d.value p)
  | .mul dmr => (Decimal.mul p a b dmr).map fun d => .value (d.value p)
  | .div ddr => (Decimal.div p a b ddr).map fun d => .value (d.value p)
  | .divRemainder => (a.divRemainder p b).map fun r => .pair (r.1.value p) (r.2.value p)
  | .floor fraction => .ok (.value ((a.floor p fraction).value p))
  | .ceil fraction =>
      match (Decimal.ceil p fraction).run a with
      | .ok _ d => .ok (.value (d.value p))
      | .error e _ => .error e
  | .eq => .ok (.flag (a.eq p b))
  | .lt => .ok (.flag (a.lt p b))
  | .str => (a.str p).map .text

def SimpleDecimal.perform (s : SimpleParams) (op : DecimalOp) (x y : SimpleDecimal) : Except Fault DecimalResult :=
  match op with
  | .add => (x.add s y).map fun d => .value d.value
  | .sub => (x.sub s y).map fun d => .value d.value
  | .mul dmr => (x.mul s y dmr).map fun d => .value d.value
  | .div ddr => (x.div s y ddr).map fun d => .value d.value
  | .divRemainder => (x.divRemainder s y).map fun r => .pair r.1.value r.2.value
  | .floor fraction => .ok (.value (x.floor s fraction).value)
  | .ceil fraction => (x.ceil s fraction).map fun d => .value d.value
  | .eq => .ok (.flag (x.eq y))
  | .lt => .ok (.flag (x.lt y))
  | .str => (x.str s).map .text

/-! ## 整数の上の正確な操作 -/

/-- 絶対値 `m` に、`w` の符号を付ける。 -/
def signedBy (w : Int) (m : Nat) : Int := if w < 0 then -m else m

/-- `TOTAL` 桁に収まらなければ、`fault` になる。 -/
def bounded (p : Params) (fault : Fault) (w : Int) : Except Fault DecimalResult :=
  if w.natAbs < 10 ^ p.total then .ok (.value w) else .error fault

def quotientProduct (p : Params) (a b : Nat) : Nat := a * 10 ^ p.fraction / b * b / 10 ^ p.fraction

/-- 正確な操作。`fault` は、結果が `TOTAL` 桁に収まらないときの失敗である。 -/
def DecimalOp.exact (p : Params) (fault : Fault) (op : DecimalOp) (u v : Int) : Except Fault DecimalResult :=
  match op with
  | .add => bounded p fault (u + v)
  | .sub => bounded p fault (u - v)
  | .mul dmr => bounded p fault (signedBy (u * v) (exactProduct p dmr (u.natAbs * v.natAbs)))
  | .div ddr =>
      if v = 0 then .error .overflow else bounded p fault (signedBy (u * v) (exactQuotient p ddr u.natAbs v.natAbs))
  | .divRemainder =>
      if v = 0 then .error .overflow
      else if exactQuotient p .floor u.natAbs v.natAbs < 10 ^ p.total then
        .ok (.pair (signedBy (u * v) (exactQuotient p .floor u.natAbs v.natAbs))
          (u - signedBy u (quotientProduct p u.natAbs v.natAbs)))
      else .error fault
  | .floor fraction =>
      .ok (.value (signedBy u (u.natAbs / 10 ^ (p.fraction - fraction) * 10 ^ (p.fraction - fraction))))
  | .ceil fraction => bounded p fault (signedBy u (ceilMagnitude (p.fraction - fraction) u.natAbs))
  | .eq => .ok (.flag (u = v))
  | .lt => .ok (.flag (u < v))
  | .str => .ok (.text (decimalText p.fraction (u < 0) u.natAbs))

/-- 正確な結果が `TOTAL` 桁に収まるか、零で割る。 -/
def DecimalOp.Fits (p : Params) (op : DecimalOp) (u v : Int) : Prop :=
  match op with
  | .add => (u + v).natAbs < 10 ^ p.total
  | .sub => (u - v).natAbs < 10 ^ p.total
  | .mul dmr => exactProduct p dmr (u.natAbs * v.natAbs) < 10 ^ p.total
  | .div ddr => v = 0 ∨ exactQuotient p ddr u.natAbs v.natAbs < 10 ^ p.total
  | .divRemainder => v = 0 ∨ exactQuotient p .floor u.natAbs v.natAbs < 10 ^ p.total
  | .ceil fraction => ceilMagnitude (p.fraction - fraction) u.natAbs < 10 ^ p.total
  | .floor _ | .eq | .lt | .str => True

theorem natAbs_signedBy {w : Int} {m : Nat} : (signedBy w m).natAbs = m := by
  unfold signedBy
  split <;> omega

theorem bounded_eq_iff {p : Params} {fault : Fault} {w : Int} :
    bounded p .overflow w = bounded p fault w ↔ w.natAbs < 10 ^ p.total ∨ fault = .overflow := by
  unfold bounded
  split
  · next h => simp [h]
  · next h =>
    simp [h]
    exact eq_comm

theorem DecimalOp.exact_eq_iff {p : Params} {fault : Fault} {op : DecimalOp} {u v : Int} :
    op.exact p .overflow u v = op.exact p fault u v ↔ op.Fits p u v ∨ fault = .overflow := by
  cases op with
  | add => exact bounded_eq_iff
  | sub => exact bounded_eq_iff
  | mul dmr =>
      unfold DecimalOp.exact DecimalOp.Fits
      dsimp only
      rw [bounded_eq_iff, natAbs_signedBy]
  | div ddr =>
      unfold DecimalOp.exact DecimalOp.Fits
      dsimp only
      by_cases hv : v = 0
      · simp [hv]
      · rw [if_neg hv, if_neg hv, bounded_eq_iff, natAbs_signedBy]
        simp [hv]
  | divRemainder =>
      unfold DecimalOp.exact DecimalOp.Fits
      dsimp only
      by_cases hv : v = 0
      · simp [hv]
      · rw [if_neg hv, if_neg hv]
        split
        · next h => simp [h]
        · next h =>
          simp [h, hv]
          exact eq_comm
  | ceil fraction =>
      unfold DecimalOp.exact DecimalOp.Fits
      dsimp only
      rw [bounded_eq_iff, natAbs_signedBy]
  | floor fraction => exact ⟨fun _ => Or.inl trivial, fun _ => rfl⟩
  | eq => exact ⟨fun _ => Or.inl trivial, fun _ => rfl⟩
  | lt => exact ⟨fun _ => Or.inl trivial, fun _ => rfl⟩
  | str => exact ⟨fun _ => Or.inl trivial, fun _ => rfl⟩

end UnixCommons.Generics
