import UnixCommons.Generics.DecimalConstruct

/-!
# 一つの整数による固定小数点の十進数

`SimpleDecimal.hpp` と `SimpleDecimal.tpp` の写し。絶対値は、`10 ^ FRACTION` 倍した `Base` 型の整数 `data_` である。`add` と `sub` は
符号を書く前に読むので、三つの引数が同じ物でも結果は変わらず、値の計算として書く。
-/

namespace UnixCommons.Generics

open Lib

structure SimpleParams extends Ranks where
  base : Element
  total_fits : total ≤ base.digits10

structure SimpleDecimal where
  negative : Bool
  data : Nat
  deriving DecidableEq, Repr

variable (s : SimpleParams)

def SimpleParams.maxValue : Nat := 10 ^ s.total

def SimpleParams.maxFraction : Nat := 10 ^ s.fraction

def SimpleParams.maxInteger : Nat := 10 ^ s.integer

def SimpleParams.invalidFlag : Nat := s.base.modulus - 1

/-- `DecimalHelper::muldiv`。商が 64 ビットに収まらないかどうか、商、余りの順に返す。 -/
def DecimalHelper.muldiv (factor1 factor2 divisor : Nat) : Bool × Nat × Nat :=
  let product := factor1 * factor2
  if product / 2 ^ 64 ≥ divisor then (divisor ≠ 0, product % 2 ^ 64, product / 2 ^ 64)
  else (false, product / divisor, product % divisor)

/-! ## 文字列にする -/

/-- 下の零を飛ばすループ。 -/
def trimLoop : Nat → Nat → Nat → Except Fault (Nat × Nat × Nat)
  | 0, _, _ => throw .diverges
  | n + 1, fractionPart, fracIndex =>
      if fractionPart % 10 = 0 then trimLoop n (fractionPart / 10) (fracIndex + 1)
      else return (fractionPart % 10, fractionPart / 10, fracIndex + 1)

/-- 残りの端数を書くループ。 -/
def fractionLoop : Nat → Nat → Nat → List Char → Except Fault (List Char × Nat)
  | 0, fractionPart, fracIndex, buf => if fractionPart ≠ 0 then throw .diverges else return (buf, fracIndex)
  | n + 1, fractionPart, fracIndex, buf =>
      if fractionPart ≠ 0 then
        fractionLoop n (fractionPart / 10) (fracIndex + 1) (digitChar (fractionPart % 10) :: buf)
      else
        return (buf, fracIndex)

def integerLoop : Nat → Nat → List Char → Except Fault (List Char)
  | 0, _, _ => throw .diverges
  | n + 1, elem, buf =>
      let buf := digitChar (elem % 10) :: buf
      if elem / 10 ≠ 0 then integerLoop n (elem / 10) buf else return buf

/-- `decimal_to_char_` の、端数を書く部分。 -/
def fractionToChar (fractionPart : Nat) : Except Fault (List Char) :=
  if fractionPart ≠ 0 then do
    let (rest, fractionPart, fracIndex) ← trimLoop s.fraction fractionPart 0
    let (buf, fracIndex) ← fractionLoop s.fraction fractionPart fracIndex [digitChar rest]
    return List.replicate (s.fraction - fracIndex) '0' ++ buf
  else
    return ['0']

/-- `decimal_to_char_`。`buf_end` の前に書いた文字を返す。 -/
def SimpleDecimal.decimalToChar (d : SimpleDecimal) : Except Fault (List Char) := do
  assert (d.data ≠ s.invalidFlag)
  if d.data = 0 then
    return if s.fraction ≠ 0 then ['0', '.', '0'] else ['0']
  else
    let (buf, elem) ← (if s.fraction ≠ 0 then do
        let buf ← fractionToChar s (d.data % s.maxFraction)
        return ('.' :: buf, d.data / s.maxFraction)
      else
        return ([], d.data) : Except Fault (List Char × Nat))
    let buf ← integerLoop (s.total + 1) elem buf
    return if d.negative then '-' :: buf else buf

def SimpleDecimal.str (d : SimpleDecimal) : Except Fault (List Char) := do
  let text ← d.decimalToChar s
  if text.length > s.total + 2 then throw .outOfBuffer else return text

def throwOverflow {α : Type} (d1 d2 : SimpleDecimal) : Except Fault α := do
  let _ ← d1.str s
  let _ ← d2.str s
  throw .overflow

/-! ## 比較 -/

def SimpleDecimal.eq (left right : SimpleDecimal) : Bool :=
  if left.negative = right.negative then left.data = right.data else left.data = 0 ∧ right.data = 0

def SimpleDecimal.lt (left right : SimpleDecimal) : Bool :=
  if left.negative then
    if right.negative then left.data > right.data else left.data ≠ 0 ∨ right.data ≠ 0
  else
    ¬ right.negative ∧ left.data < right.data

/-! ## 計算 -/

def SimpleDecimal.add (summand1 summand2 : SimpleDecimal) : Except Fault SimpleDecimal :=
  if summand1.negative = summand2.negative then
    if s.base.sub s.maxValue summand1.data ≤ summand2.data then
      throwOverflow s summand1 summand2
    else
      return ⟨summand1.negative, s.base.add summand1.data summand2.data⟩
  else if summand1.data < summand2.data then
    return ⟨summand2.negative, s.base.sub summand2.data summand1.data⟩
  else
    return ⟨summand1.negative, s.base.sub summand1.data summand2.data⟩

def SimpleDecimal.sub (minuend subtrahend : SimpleDecimal) : Except Fault SimpleDecimal :=
  if minuend.negative ≠ subtrahend.negative then
    if s.base.sub s.maxValue minuend.data ≤ subtrahend.data then
      throwOverflow s subtrahend minuend
    else
      return ⟨minuend.negative, s.base.add minuend.data subtrahend.data⟩
  else if minuend.data < subtrahend.data then
    return ⟨!subtrahend.negative, s.base.sub subtrahend.data minuend.data⟩
  else
    return ⟨minuend.negative, s.base.sub minuend.data subtrahend.data⟩

def SimpleDecimal.mul (factor1 factor2 : SimpleDecimal) (dmr : DecimalMulRemainder) : Except Fault SimpleDecimal :=
  let (overflow, res, rem) := DecimalHelper.muldiv factor1.data factor2.data s.maxFraction
  if overflow ∨ res ≥ s.maxValue then
    throwOverflow s factor1 factor2
  else if dmr ≠ .floor ∧ s.fraction ≠ 0 ∧ (if dmr = .round then rem ≥ s.maxFraction / 2 else rem ≠ 0) then
    if (res + 1) % 2 ^ 64 = s.maxValue then
      throwOverflow s factor1 factor2
    else
      return ⟨factor1.negative != factor2.negative, s.base.cast ((res + 1) % 2 ^ 64)⟩
  else
    return ⟨factor1.negative != factor2.negative, s.base.cast res⟩

def SimpleDecimal.div (dividend divisor : SimpleDecimal) (ddr : DecimalDivRemainder) : Except Fault SimpleDecimal :=
  if divisor.data = 0 then
    throw .overflow
  else
    let (overflow, quot, rem) := DecimalHelper.muldiv dividend.data s.maxFraction divisor.data
    if overflow ∨ quot ≥ s.maxValue then
      throwOverflow s dividend divisor
    else if ddr = .ceil ∧ rem ≠ 0 then
      if (quot + 1) % 2 ^ 64 = s.maxValue then
        throwOverflow s dividend divisor
      else
        return ⟨dividend.negative != divisor.negative, s.base.cast ((quot + 1) % 2 ^ 64)⟩
    else
      return ⟨dividend.negative != divisor.negative, s.base.cast quot⟩

def SimpleDecimal.divRemainder (dividend divisor : SimpleDecimal) : Except Fault (SimpleDecimal × SimpleDecimal) := do
  let quotient ← dividend.div s divisor .floor
  let product ← quotient.mul s divisor .floor
  let remainder ← dividend.sub s product
  return (quotient, remainder)

/-! ## 端数の切り捨てと切り上げ -/

def SimpleDecimal.floor (fraction : Nat) (d : SimpleDecimal) : SimpleDecimal :=
  if fraction > s.fraction ∨ fraction = s.fraction then d
  else
    let pow := DecimalHelper.pow10 s.base (s.fraction - fraction)
    if d.data % pow ≠ 0 then ⟨d.negative, s.base.cast (d.data / pow * pow)⟩ else d

def SimpleDecimal.ceil (fraction : Nat) (d : SimpleDecimal) : Except Fault SimpleDecimal :=
  if fraction > s.fraction ∨ fraction = s.fraction then
    return d
  else
    let pow := DecimalHelper.pow10 s.base (s.fraction - fraction)
    if d.data % pow ≠ 0 then
      let data := s.base.cast ((d.data / pow + 1) * pow)
      if data = s.maxValue then do
        let _ ← d.str s
        throw .overflow
      else
        return ⟨d.negative, data⟩
    else
      return d

/-! ## 文字列から作る -/

/-- `*cur - '0'`。`unsigned` に入るので、数字でない文字は 10 以上になる。 -/
def charDigit (c : Char) : Nat := (c.toNat + (2 ^ 32 - 48)) % 2 ^ 32

/-- `extract_decimal` の、整数部を読むループ。長すぎれば `none` である。 -/
def extractInteger : List Char → Nat → Option (Nat × List Char)
  | [], decimal => some (decimal, [])
  | c :: cs, decimal =>
      if charDigit c < 10 then
        if decimal < s.maxInteger / 10 then extractInteger cs (s.base.cast (decimal * 10 + charDigit c)) else none
      else
        some (decimal, c :: cs)

/-- `extract_decimal` の、端数を読むループ。 -/
def extractFraction : List Char → Nat → Nat → Option (Nat × Nat × List Char)
  | [], digitsLeft, decimal => some (decimal, digitsLeft, [])
  | c :: cs, digitsLeft, decimal =>
      if charDigit c < 10 then
        if digitsLeft ≠ 0 then extractFraction cs (digitsLeft - 1) (s.base.cast (decimal * 10 + charDigit c)) else none
      else
        some (decimal, digitsLeft, c :: cs)

/-- `extract_decimal` の、小数点から後ろの部分。 -/
def extractScale (decimal : Nat) (rest : List Char) : Option (Nat × List Char) :=
  if s.fraction ≠ 0 ∧ rest.head? = some '.' then do
    let (decimal, digitsLeft, rest) ← extractFraction s rest.tail s.fraction decimal
    if s.fraction > 1 ∧ digitsLeft > 0 then
      return (s.base.cast (decimal * DecimalHelper.pow10 s.base digitsLeft), rest)
    else
      return (decimal, rest)
  else
    return (s.base.cast (decimal * s.maxFraction), rest)

def DecimalHelper.extractDecimal (str : List Char) : Option (SimpleDecimal × List Char) :=
  match skipSign str with
  | [] => none
  | c :: cs =>
      if charDigit c > 9 then none
      else do
        let (decimal, rest) ← extractInteger s (c :: cs) 0
        let (decimal, rest) ← extractScale s decimal rest
        return (⟨str.head? = some '-', decimal⟩, rest)

def SimpleDecimal.constructText (str : List Char) : Except ParseFault SimpleDecimal :=
  match DecimalHelper.extractDecimal s str with
  | none => throw .overflow
  | some (d, rest) => if rest ≠ [] then throw .notNumber else return d

end UnixCommons.Generics
