import Mathlib.Data.Nat.Log
import UnixCommons.Generics.Decimal
import UnixCommons.Lib.Numeral

/-! # 十進数の構成と文字列 -/

/-!
## 整数からの構成

`Decimal::construct_` のうち、整数部と端数から作るものと、整数と十の冪から作るものの写し。配列の外への書き込みを
見分けるために、書いた番地の上限を記録する。
-/

namespace UnixCommons.Generics

open Lib

/-- 作りかけの `Decimal` と、書いた番地より一つ大きい数の最大 `written`。 -/
structure Construction where
  decimal : Decimal
  written : Nat

def Construction.put (i x : Nat) (c : Construction) : Construction :=
  ⟨{ c.decimal with array := Function.update c.decimal.array i x }, max c.written (i + 1)⟩

def Construction.fill (first last x : Nat) (c : Construction) : Construction :=
  ⟨{ c.decimal with array := Generics.fill first last x c.decimal.array }, max c.written last⟩

def Construction.setNegative (negative : Bool) (c : Construction) : Construction :=
  { c with decimal := { c.decimal with negative := negative } }

variable (p : Params)

/-- 番地 `first + j` に、下の桁から書くループの中。 -/
def putDigit (first j : Nat) (s : Construction × Nat) : Construction × Nat :=
  (s.1.put (first + j) (p.element.cast (s.2 % p.base)), s.2 / p.base)

/-- `construct_(bool, Integer, Fraction)` の、整数部の残りを書く部分。 -/
def putInteger (integer : Nat) (c : Construction) : Construction × Nat :=
  let (c, integer) := forUp (putDigit p (p.fractionEnd + 1)) (p.size - 1 - (p.fractionEnd + 1))
    (c, integer / p.fractionOver)
  let i := max (p.fractionEnd + 1) (p.size - 1)
  if i = p.size - 1 then
    (c.put i (p.element.cast (integer % p.integerMaxOver)), integer / p.integerMaxOver)
  else
    (c, integer)

/-- `construct_(bool, Integer, Fraction)`。 -/
def constructParts (negative : Bool) (integer fraction : Nat) : EStateM Fault Construction PUnit := do
  let (c, fraction) := forUp (putDigit p 0) p.fractionEnd (← get, fraction)
  set c
  if fraction ≥ p.fractionRemainder then
    throw .overflow
  else
    modify fun c => c.put p.fractionEnd
      (p.element.cast (fraction + p.element.cast (integer % p.fractionOver) * p.fractionRemainder))
    let c ← get
    let (c, integer) := if p.integer ≠ 0 then putInteger p integer c else (c, integer)
    set c
    if integer ≠ 0 then
      throw .overflow
    else
      modify fun c => c.setNegative negative

def Decimal.epsilon : Decimal :=
  match (constructParts p false (if p.fraction ≠ 0 then 0 else 1)
    (if p.fraction ≠ 0 then 1 else 0)).run ⟨Decimal.invalid p, 0⟩ with
  | .ok _ c => c.decimal
  | .error _ c => c.decimal

/-- `Integer`。`digits` は、符号を除いたビットの数である。 -/
structure IntegerType where
  digits : Nat
  signed : Bool

def IntegerType.digits10 (t : IntegerType) : Nat := Nat.log 10 (2 ^ t.digits)

def IntegerType.Fits (t : IntegerType) (v : Int) : Prop :=
  (if t.signed then -(2 : Int) ^ t.digits else 0) ≤ v ∧ v < 2 ^ t.digits

instance (t : IntegerType) (v : Int) : Decidable (t.Fits v) := inferInstanceAs (Decidable (_ ∧ _))

/-- `DecimalHelper::split`。符号と絶対値を返す。 -/
def split (t : IntegerType) (v : Int) : Except Fault (Bool × Nat) :=
  if t.signed ∧ v < 0 then do
    assert (v ≥ -(2 ^ t.digits - 1))
    return (true, v.natAbs)
  else
    return (false, v.natAbs)

/-- `integer` が零になるか、上の端の要素に着くまで書くループ。 -/
def putWhile : Nat → Nat → Nat → Construction → Construction × Nat × Nat
  | 0, i, integer, c => (c, integer, i)
  | n + 1, i, integer, c =>
      if integer ≠ 0 then
        putWhile n (i + 1) (integer / p.base) (c.put i (p.element.cast (integer % p.base)))
      else
        (c, integer, i)

/-- `construct_(Integer, unsigned)` の、`10 ^ diff` 倍した `integer` を書く部分。 -/
def putScaled (integer diff : Nat) (c : Construction) : Construction × Nat :=
  let i := diff / p.digitsPerElement
  let c := c.fill 0 i 0
  let diff := diff % p.digitsPerElement
  let (c, integer, i) :=
    if diff ≠ 0 then
      let mask := DecimalHelper.pow10 p.element (p.digitsPerElement - diff)
      (c.put i (p.element.cast (p.element.cast (integer % mask) * (p.base / mask))), integer / mask, i + 1)
    else
      (c, integer, i)
  let (c, integer, i) := putWhile p (p.size - 1 - i) i integer c
  if i = p.size - 1 then
    (c.put i (p.element.cast (integer % p.integerMaxOver)), integer / p.integerMaxOver)
  else
    (c.fill i p.size 0, integer)

/-- `construct_(Integer, unsigned)`。 -/
def constructPower (t : IntegerType) (v : Int) (power : Nat) : EStateM Fault Construction PUnit := do
  if power ≥ t.digits10 + p.fraction ∨ v = 0 then
    modify fun c => (c.setNegative false).fill 0 p.size 0
  else
    let (negative, integer) ← lift (split t v)
    modify fun c => c.setNegative negative
    let integer := if power > p.fraction then integer / 10 ^ (power - p.fraction) else integer
    let (c, integer) := putScaled p integer (p.fraction - min power p.fraction) (← get)
    set c
    if integer ≠ 0 then
      throw .overflow

end UnixCommons.Generics

/-!
## 文字列との変換

`Decimal::str` と、文字列からの `Decimal::construct_` の写し。文字列は文字の並びであり、`begin` と `end` の指す範囲は、その一部の
並びとして渡す。
-/

namespace UnixCommons.Generics

open Lib

inductive ParseFault
  | overflow
  | notNumber
  deriving DecidableEq, Repr

variable (p : Params)

/-- `DecimalHelper::disassemble_decimal` のループの中。 -/
def disassembleBody (first i : Nat) (s : (Nat → Nat) × Nat) : (Nat → Nat) × Nat :=
  (Function.update s.1 (first + i) (s.2 % 10), s.2 / 10)

def disassembleDecimal (digits elem first : Nat) (num : Nat → Nat) : Nat → Nat :=
  if digits ≠ 0 then (forDown (disassembleBody first) digits (num, elem)).1 else num

/-- `str` の最初のループの中。 -/
def strBody (array : Nat → Nat) (i : Nat) (s : (Nat → Nat) × Nat × Bool) : (Nat → Nat) × Nat × Bool :=
  let digits := if i = p.size - 1 then s.2.1 else p.digitsPerElement
  let numCur := s.2.1 - digits
  (disassembleDecimal digits (array i) numCur s.1, numCur, s.2.2 || array i ≠ 0)

/-- 整数部の上の零を飛ばすループ。 -/
def skipZeros (num : Nat → Nat) : Nat → Nat → Nat
  | 0, i => i
  | n + 1, i => if num i = 0 then skipZeros num n (i + 1) else i

/-- 小数点の下を書くループの中。 -/
def strFraction (num : Nat → Nat) (i : Nat) (s : List Char × Nat) : List Char × Nat :=
  let last := if num (p.integer + i) ≠ 0 then s.1.length else s.2
  (s.1 ++ [digitChar (num (p.integer + i))], last)

def strInteger (num : Nat → Nat) (res : List Char) : List Char :=
  let i := skipZeros num p.integer 0
  if i = p.integer then res ++ ['0']
  else res ++ (List.range' i (p.integer - i)).map fun i => digitChar (num i)

def Params.strSize : Nat := p.total + 3 + if p.integer = 0 then 1 else 0

def Decimal.str (d : Decimal) : Except Fault (List Char) :=
  let (num, _, notNull) := forUp (strBody p d.array) p.size (fun _ => 0, p.total, false)
  let res := strInteger p num (if d.negative ∧ notNull then ['-'] else [])
  if p.fraction ≠ 0 then
    let res := res ++ ['.']
    let (res, last) := forUp (strFraction p num) p.fraction (res, res.length)
    -- `last[1]` に終わりの印を書く。
    if max res.length (last + 2) > p.strSize then throw .outOfBuffer else return res.take (last + 1)
  else
    if res.length > p.strSize then throw .outOfBuffer else return res

def isSign (c : Char) : Bool := c = '-' || c = '+'

def skipSign : List Char → List Char
  | [] => []
  | c :: cs => if isSign c then cs else c :: cs

def isZeroDigit (c : Char) : Bool := c = '0'

def isPoint (c : Char) : Bool := c = '.'

/-- `begin` から `end` まで、`begin` から `integer_end` まで、`fraction_begin` から `end` までの並び。`begin` の前には小数点が
ないので、`str` の最初の小数点は `rest` の最初の小数点である。 -/
def splitPoint (rest : List Char) : List Char × List Char × List Char :=
  if rest.any isPoint then
    let text := rest.rdropWhile isZeroDigit
    if text.getLast? = some '.' then
      (text.dropLast, text.dropLast, [])
    else
      (text, text.takeWhile fun c => !isPoint c, (text.dropWhile fun c => !isPoint c).tail)
  else
    (rest, rest, [])

def assembleDecimal (digits : Nat) (num : List Nat) : Nat :=
  (num.take digits).foldl (fun ret x => p.element.cast (ret * 10 + x)) 0

/-- `num` から要素を作るループの中。 -/
def assembleBody (num : List Nat) (i : Nat) (s : (Nat → Nat) × Nat) : (Nat → Nat) × Nat :=
  let digits := if s.2 ≥ p.digitsPerElement then p.digitsPerElement else s.2
  (Function.update s.1 i (assembleDecimal p digits (num.drop (s.2 - digits))), s.2 - digits)

/-- 文字列からの `construct_`。 -/
def Decimal.constructText (str : List Char) (array : Nat → Nat) : Except ParseFault Decimal :=
  if str = [] then
    throw .notNumber
  else if skipSign str = [] then
    throw .notNumber
  else
    let negative : Bool := str.head? = some '-'
    let (text, integer, fraction) := splitPoint ((skipSign str).dropWhile isZeroDigit)
    if text = [] then
      return ⟨negative, fill 0 p.size 0 array⟩
    else if p.fraction < fraction.length then
      throw .overflow
    else if p.integer < integer.length then
      throw .overflow
    else if fraction.any fun c => !c.isDigit then
      throw .notNumber
    else if integer.any fun c => !c.isDigit then
      throw .notNumber
    else
      let num := List.replicate (p.integer - integer.length) 0 ++ integer.map (fun c => c.toNat - 48) ++
        fraction.map (fun c => c.toNat - 48) ++ List.replicate (p.fraction - fraction.length) 0
      return ⟨negative, (forUp (assembleBody p num) p.size (array, p.total)).1⟩

end UnixCommons.Generics
