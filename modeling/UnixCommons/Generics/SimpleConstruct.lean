import UnixCommons.Generics.SimpleDecimal
import UnixCommons.Generics.DecimalMul

/-! # `SimpleDecimal` の構成と、狭い型への変換 -/

/-!
## `SimpleDecimal` の構成と符号

`SimpleDecimal::construct_` の写しと、二つの十進数の型の符号の検査の写し。
-/

namespace UnixCommons.Generics

/-! ### 整数からの `SimpleDecimal` の構成

`SimpleDecimal::construct_` のうち、整数部と端数から作るものと、整数と十の冪から作るものの写し。例外の文に書く整数部も求める。
-/

section

/-- 構成の失敗。`Overflow` の文に書く `integer` を持つ。 -/
inductive ConstructFault
  | overflow (integer : Nat)
  | assertion
  deriving DecidableEq, Repr

/-- `DecimalHelper::exceeds`。引数は `unsigned long long` になる。 -/
def DecimalHelper.exceeds (a b : Nat) : Bool := a % 2 ^ 64 ≥ b % 2 ^ 64

/-- `DecimalHelper::pow10<Integer>`。収まらない冪は、下のビットだけが残る。 -/
def IntegerType.pow10 (t : IntegerType) (pow : Nat) : Nat := 10 ^ pow % 2 ^ t.digits

variable (s : SimpleParams)

def SimpleDecimal.invalid : SimpleDecimal := ⟨false, s.invalidFlag⟩

/-- `construct_(bool, Integer, Fraction)`。 -/
def SimpleDecimal.constructParts (negative : Bool) (integer fraction : Nat) : Except ConstructFault SimpleDecimal :=
  if DecimalHelper.exceeds fraction s.maxFraction then
    throw (.overflow fraction)
  else if DecimalHelper.exceeds integer s.maxInteger then
    throw (.overflow integer)
  else
    return ⟨negative, s.base.add (s.base.cast (s.base.cast integer * s.maxFraction)) (s.base.cast fraction)⟩

/-- `construct_(Integer, unsigned)` の、符号を分けた後の部分。 -/
def SimpleDecimal.constructScaled (t : IntegerType) (negative : Bool) (integer power : Nat) :
    Except ConstructFault SimpleDecimal :=
  if power = s.fraction then
    if DecimalHelper.exceeds integer s.maxValue then
      throw (.overflow (integer / t.pow10 power))
    else
      return ⟨negative, s.base.cast integer⟩
  else if power > s.fraction then
    let integer := integer / t.pow10 (power - s.fraction)
    if DecimalHelper.exceeds integer s.maxValue then
      throw (.overflow (integer / s.maxFraction))
    else
      return ⟨negative, s.base.cast integer⟩
  else
    let mul := DecimalHelper.pow10 s.base (s.fraction - power)
    if DecimalHelper.exceeds integer (s.maxValue / mul) then
      throw (.overflow (integer / t.pow10 power))
    else
      return ⟨negative, s.base.cast (s.base.cast integer * mul)⟩

/-- `construct_(Integer, unsigned)`。 -/
def SimpleDecimal.constructPower (t : IntegerType) (v : Int) (power : Nat) : Except ConstructFault SimpleDecimal :=
  if power ≥ t.digits10 + s.fraction ∨ v = 0 then
    return ⟨false, 0⟩
  else
    match split t v with
    | .error _ => throw .assertion
    | .ok (negative, integer) => SimpleDecimal.constructScaled s t negative integer power

end

/-! ### 符号の検査

二つの十進数の型の `ZERO`、`is_nonnegative`、`is_nonpositive` と、`SimpleDecimal` の残りの比較の写し。
-/

section

section Wide

variable (p : Params)

def Decimal.zero : Decimal :=
  match (constructParts p false 0 0).run ⟨Decimal.invalid p, 0⟩ with
  | .ok _ c => c.decimal
  | .error _ c => c.decimal

def Decimal.isNonnegative (d : Decimal) : Bool := !d.negative

def Decimal.isNonpositive (d : Decimal) : Bool := d.negative

end Wide

section Simple

variable (s : SimpleParams)

def SimpleDecimal.zero : SimpleDecimal :=
  match SimpleDecimal.constructParts s false 0 0 with
  | .ok d => d
  | .error _ => SimpleDecimal.invalid s

def SimpleDecimal.isZero (d : SimpleDecimal) : Bool := d.data = 0

def SimpleDecimal.isNonnegative (d : SimpleDecimal) : Bool := !d.negative

def SimpleDecimal.isNonpositive (d : SimpleDecimal) : Bool := d.negative

def SimpleDecimal.ge (left right : SimpleDecimal) : Bool := !left.lt right

def SimpleDecimal.le (left right : SimpleDecimal) : Bool := !right.lt left

end Simple

end

end UnixCommons.Generics

/-!
## 狭い型への変換

`Decimal::integer` と `narrow_decimal` の写し。狭い型への変換は、`10 ^ FRACTION_RANK` を掛けた整数部を `int64_t` で取り出す。
-/

namespace UnixCommons.Generics

open Lib

inductive IntegerFault
  | overflow
  | sign
  deriving DecidableEq, Repr

def IntegerType.max (t : IntegerType) : Nat := 2 ^ t.digits - 1

def int64Type : IntegerType := ⟨63, true⟩

variable (p : Params) (s : SimpleParams)

def integerBody (t : IntegerType) (array : Nat → Nat) (j ret : Nat) : Except IntegerFault Nat :=
  let elem := array (p.fractionEnd + 1 + j)
  if t.max ≥ elem ∧ ret ≤ (t.max - elem) / p.base then return ret * p.base + elem else throw .overflow

def Decimal.integer (t : IntegerType) (d : Decimal) : Except IntegerFault Int :=
  if p.integer = 0 then
    return 0
  else do
    let ret ← forDownM (integerBody p t d.array) (p.size - 1 - p.fractionEnd) 0
    let elem := d.array p.fractionEnd / p.fractionRemainder
    if t.max < elem ∨ ret > (t.max - elem) / p.fractionOver then
      throw .overflow
    else
      let ret := ret * (p.fractionOver % 2 ^ t.digits) + elem
      if d.negative ∧ ret ≠ 0 ∧ ¬ t.signed then throw .sign else return if d.negative then -ret else ret

def Decimal.ofPower (t : IntegerType) (v : Int) (power : Nat) : Except Fault Decimal :=
  match (constructPower p t v power).run ⟨Decimal.invalid p, 0⟩ with
  | .ok _ c => .ok c.decimal
  | .error e _ => .error e

/-- `narrow_decimal` の各段階の失敗。 -/
inductive NarrowFault
  | construct (e : Fault)
  | product (e : Fault)
  | extract (e : IntegerFault)
  | narrow (e : ConstructFault)
  deriving DecidableEq, Repr

/-- `narrow_decimal`。失敗すれば、`s` は変わらない。 -/
def narrowDecimal (d : Decimal) : Except NarrowFault SimpleDecimal := do
  let factor ← (Decimal.ofPower p int64Type (10 ^ s.fraction) 0).mapError .construct
  let product ← (Decimal.mul p d factor .floor).mapError .product
  let integer ← (product.integer p int64Type).mapError .extract
  (SimpleDecimal.constructPower s int64Type integer s.fraction).mapError .narrow

end UnixCommons.Generics
