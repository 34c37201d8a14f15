import Mathlib
import UnixCommons.Lib.Spec

/-! # 十進数 -/

/-!
## 十進数の共通の部分

`CommonDecimal.hpp` の写しと、`Decimal` の定数。要素の型は符号のない整数であり、代入のたびに `2 ^ bits` で切られる。
-/

namespace UnixCommons.Generics

/-- 計算が止まる理由。`assertion` は `assert` の失敗、`outOfBuffer` は局所の配列の外への書き込みである。 -/
inductive Fault
  | overflow
  | assertion
  | diverges
  | outOfBuffer
  deriving DecidableEq, Repr

inductive DecimalMulRemainder
  | floor
  | round
  | ceil
  deriving DecidableEq, Repr

inductive DecimalDivRemainder
  | floor
  | ceil
  deriving DecidableEq, Repr

def assert (c : Bool) : Except Fault PUnit := if c then pure () else throw .assertion

/-- `Element` と `Base` に許される、符号のない整数の型。 -/
inductive Element
  | uint8
  | uint16
  | uint32
  | uint64
  deriving DecidableEq, Repr

def Element.bits : Element → Nat
  | .uint8 => 8
  | .uint16 => 16
  | .uint32 => 32
  | .uint64 => 64

def Element.digits10 : Element → Nat
  | .uint8 => 2
  | .uint16 => 4
  | .uint32 => 9
  | .uint64 => 19

def Element.modulus (e : Element) : Nat := 2 ^ e.bits

def Element.cast (e : Element) (x : Nat) : Nat := x % e.modulus

def Element.add (e : Element) (x y : Nat) : Nat := e.cast (x + y)

/-- 下にあふれる引き算は、`2 ^ bits` を足したものになる。 -/
def Element.sub (e : Element) (x y : Nat) : Nat := e.cast (x + (e.modulus - y))

/-- `DIGITS_PER_ELEMENT`。二つの要素の和が `Element` に収まるように選ばれる。 -/
def Element.digitsPerElement (e : Element) : Nat :=
  if (e.modulus - 1) / 10 ^ e.digits10 ≥ 2 then e.digits10 else e.digits10 - 1

def Element.base (e : Element) : Nat := 10 ^ e.digitsPerElement

def Element.maxSum (e : Element) : Nat := (e.modulus - 1) / e.base

def DecimalHelper.pow10 (e : Element) (pow : Nat) : Nat := e.cast (10 ^ pow)

/-- 64 ビットの積で足りる型か。足りなければ `mulq` と `divq` で 128 ビットの積を使う。 -/
def Element.isNarrow (e : Element) : Bool := e.digits10 ≤ 19 / 2

def DecimalHelper.mul (narrow : Bool) (factor1 factor2 base : Nat) : Nat × Nat :=
  if narrow then
    let major := factor1 * factor2 % 2 ^ 64
    (major / base, major % base)
  else
    (factor1 * factor2 / base, factor1 * factor2 % base)

def DecimalHelper.div (narrow : Bool) (major minor base divisor : Nat) : Nat × Nat :=
  if narrow then
    let quotient := (major * base + minor) % 2 ^ 64
    (quotient / divisor, quotient % divisor)
  else
    ((major * base + minor) / divisor, (major * base + minor) % divisor)

def Element.mulElements (e : Element) (multiplier factor : Nat) : Nat × Nat :=
  let (h, l) := DecimalHelper.mul e.isNarrow multiplier factor e.base
  (e.cast l, e.cast h)

def Element.divElements (e : Element) (major minor divisor : Nat) : Nat × Nat :=
  let (q, r) := DecimalHelper.div e.isNarrow major minor e.base divisor
  (e.cast q, e.cast r)

structure Ranks where
  total : Nat
  fraction : Nat
  total_pos : 0 < total
  fraction_le : fraction ≤ total

def Ranks.integer (r : Ranks) : Nat := r.total - r.fraction

structure Params extends Ranks where
  element : Element

variable (p : Params)

def Params.digitsPerElement : Nat := p.element.digitsPerElement

def Params.base : Nat := p.element.base

def Params.size : Nat := (p.total + p.digitsPerElement - 1) / p.digitsPerElement

def Params.integerMaxOver : Nat :=
  10 ^ (p.digitsPerElement - (p.size * p.digitsPerElement - p.total))

def Params.fractionEnd : Nat := p.fraction / p.digitsPerElement

def Params.fractionRemainder : Nat := 10 ^ (p.fraction % p.digitsPerElement)

def Params.fractionOver : Nat := 10 ^ (p.digitsPerElement - p.fraction % p.digitsPerElement)

def Params.tmpTotalRank : Nat := p.integer + 2 * p.fraction

def Params.tmpSize : Nat :=
  p.tmpTotalRank / p.digitsPerElement + (if p.tmpTotalRank % p.digitsPerElement ≠ 0 then 1 else 0)

def Params.tmpIntegerMaxOver : Nat :=
  10 ^ (p.digitsPerElement - (p.tmpSize * p.digitsPerElement - p.tmpTotalRank))

def Params.divTmpTotalRank : Nat := p.integer + 2 * p.fraction + p.digitsPerElement

def Params.divTmpSize : Nat :=
  p.divTmpTotalRank / p.digitsPerElement + (if p.divTmpTotalRank % p.digitsPerElement ≠ 0 then 1 else 0)

end UnixCommons.Generics

/-!
## 固定小数点の十進数

`Decimal.hpp` と `Decimal.tpp` の写し。`array_` は、`BASE` を底とする `SIZE` 個の要素であり、下の桁から並ぶ。
`add` と `sub` の三つの引数は同じ物を指しうるので、物の置き場を状態とする計算で書く。
-/

namespace UnixCommons.Generics

open Lib

/-- `Decimal`。`SIZE` 以上の番地の要素は意味を持たない。 -/
structure Decimal where
  negative : Bool
  array : Nat → Nat

def fill (first last x : Nat) (a : Nat → Nat) : Nat → Nat := fun i => if first ≤ i ∧ i < last then x else a i

variable (p : Params)

/-- 引数のないコンストラクタ。`INVALID_FLAG_` の後ろの要素は定まらない。 -/
def Decimal.invalid : Decimal := ⟨false, fun i => if i = 0 then p.element.modulus - 1 else 0⟩

def Decimal.isZero (d : Decimal) : Bool := (List.range p.size).all fun i => d.array i == 0

def isLessThanLoop (a b : Nat → Nat) : Nat → Bool × Nat
  | 0 => if a 0 < b 0 then (true, 0) else if a 0 > b 0 then (false, 0) else (false, 0)
  | i + 1 =>
      if a (i + 1) < b (i + 1) then (true, i + 1)
      else if a (i + 1) > b (i + 1) then (false, i + 1)
      else isLessThanLoop a b i

def Decimal.isLessThan (d test : Decimal) : Bool × Nat := isLessThanLoop d.array test.array (p.size - 1)

def Decimal.eq (left right : Decimal) : Bool :=
  if left.negative = right.negative then
    (List.range p.size).all fun i => left.array i == right.array i
  else
    (List.range p.size).all fun i => left.array i == 0 && right.array i == 0

def Decimal.lt (left right : Decimal) : Bool :=
  if left.negative then
    if right.negative then (right.isLessThan p left).1 else !left.isZero p || !right.isZero p
  else
    !right.negative && (left.isLessThan p right).1

def Decimal.ne (left right : Decimal) : Bool := !left.eq p right

def Decimal.gt (left right : Decimal) : Bool := right.lt p left

def Decimal.ge (left right : Decimal) : Bool := !left.lt p right

def Decimal.le (left right : Decimal) : Bool := !right.lt p left

/-- `hash_add` が渡すバイトの並び。要素は、下のバイトから並ぶ。 -/
def Decimal.hashInput (d : Decimal) : List Nat :=
  (List.range p.size).flatMap fun i =>
    (List.range (p.element.bits / 8)).map fun j => d.array i / 256 ^ j % 256

section Store

variable {ι : Type} [DecidableEq ι]

def setElement (target : ι) (i x : Nat) (m : ι → Decimal) : ι → Decimal :=
  Function.update m target { m target with array := Function.update (m target).array i x }

def setArray (target : ι) (a : Nat → Nat) (m : ι → Decimal) : ι → Decimal :=
  Function.update m target { m target with array := a }

def setNegative (target : ι) (negative : Bool) (m : ι → Decimal) : ι → Decimal :=
  Function.update m target { m target with negative := negative }

/-- `internal_add_` のループの中。 -/
def internalAddBody (summand1 summand2 target : ι) (i : Nat) (s : (ι → Decimal) × Nat) : (ι → Decimal) × Nat :=
  let num := p.element.cast ((s.1 summand1).array i + (s.1 summand2).array i + s.2)
  if num ≥ p.base then
    (setElement target i (p.element.sub num p.base) s.1, 1)
  else
    (setElement target i num s.1, 0)

def internalAdd (summand1 summand2 target : ι) (m : ι → Decimal) : Bool × (ι → Decimal) :=
  let (m, overflow) := forUp (internalAddBody p summand1 summand2 target) p.size (m, 0)
  (overflow ≠ 0 || (m target).array (p.size - 1) ≥ p.integerMaxOver, m)

/-- `internal_sub_` のループの中。 -/
def internalSubBody (minuend subtrahend target : ι) (i : Nat) (s : (ι → Decimal) × Nat) : (ι → Decimal) × Nat :=
  let realSubtrahend := p.element.cast ((s.1 subtrahend).array i + s.2)
  if (s.1 minuend).array i < realSubtrahend then
    (setElement target i (p.element.sub p.base (p.element.sub realSubtrahend ((s.1 minuend).array i))) s.1, 1)
  else
    (setElement target i (p.element.sub ((s.1 minuend).array i) realSubtrahend) s.1, 0)

def internalSub (minuend subtrahend target : ι) (diffIndex : Nat) (m : ι → Decimal) : Except Fault (ι → Decimal) := do
  let (m, underflow) := forUp (internalSubBody p minuend subtrahend target) (diffIndex + 1) (m, 0)
  let m := if diffIndex < p.size then setArray target (fill (diffIndex + 1) p.size 0 (m target).array) m else m
  assert (underflow = 0)
  return m

def Decimal.add (summand1 summand2 target : ι) : EStateM Fault (ι → Decimal) PUnit := do
  let m ← get
  if (m summand1).negative = (m summand2).negative then
    let (overflow, m) := internalAdd p summand1 summand2 target m
    set m
    if overflow then
      throw .overflow
    else
      modify fun m => setNegative target (m summand1).negative m
  else
    let (less, diffIndex) := (m summand1).isLessThan p (m summand2)
    if less then
      set (← lift (internalSub p summand2 summand1 target diffIndex m))
      modify fun m => setNegative target (m summand2).negative m
    else
      set (← lift (internalSub p summand1 summand2 target diffIndex m))
      modify fun m => setNegative target (m summand1).negative m

def Decimal.sub (minuend subtrahend target : ι) : EStateM Fault (ι → Decimal) PUnit := do
  let m ← get
  if (m minuend).negative = (m subtrahend).negative then
    let (less, diffIndex) := (m minuend).isLessThan p (m subtrahend)
    if less then
      set (← lift (internalSub p subtrahend minuend target diffIndex m))
      modify fun m => setNegative target (!(m subtrahend).negative) m
    else
      set (← lift (internalSub p minuend subtrahend target diffIndex m))
      modify fun m => setNegative target (m minuend).negative m
  else
    let (overflow, m) := internalAdd p minuend subtrahend target m
    set m
    if overflow then
      throw .overflow
    else
      modify fun m => setNegative target (m minuend).negative m

def Decimal.addAssign (self summand : ι) : EStateM Fault (ι → Decimal) PUnit := Decimal.add p self summand self

def Decimal.subAssign (self subtrahend : ι) : EStateM Fault (ι → Decimal) PUnit := Decimal.sub p self subtrahend self

end Store

inductive Place
  | left
  | right
  | result
  deriving DecidableEq

def Place.store (left right result : Decimal) : Place → Decimal
  | .left => left
  | .right => right
  | .result => result

def withResult (x : EStateM Fault (Place → Decimal) PUnit) (left right : Decimal) : Except Fault Decimal :=
  match x.run (Place.store left right (Decimal.invalid p)) with
  | .ok _ m => .ok (m .result)
  | .error e _ => .error e

def Decimal.plus (left right : Decimal) : Except Fault Decimal :=
  withResult p (Decimal.add p .left .right .result) left right

def Decimal.minus (left right : Decimal) : Except Fault Decimal :=
  withResult p (Decimal.sub p .left .right .result) left right

end UnixCommons.Generics
