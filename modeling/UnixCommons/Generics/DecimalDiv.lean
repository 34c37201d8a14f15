import UnixCommons.Generics.DecimalConstruct
import UnixCommons.Generics.DecimalMul

/-!
# 割り算

`Decimal::DivTmpDividend`、`Decimal::DivTmpDivisor` と `Decimal::div` の写し。除数が二つ以上の要素を持つときは、`scale` 倍して
上の端の要素を大きくし、商の要素を上から一つずつ見積もって引く。
-/

namespace UnixCommons.Generics

open Lib

variable (p : Params)

/-! ## 作業用の配列 -/

/-- `DivTmpArrayBase`。 -/
structure DivTmp where
  tmpArray : Nat → Nat
  size : Nat
  initialSize : Nat

def shrinkLoop (tmpArray : Nat → Nat) : Nat → Nat
  | 0 => 0
  | size + 1 => if size + 1 > 1 ∧ tmpArray size = 0 then shrinkLoop tmpArray size else size + 1

def DivTmp.shrink (t : DivTmp) : DivTmp :=
  let size := shrinkLoop t.tmpArray t.size
  ⟨t.tmpArray, size, if t.initialSize = 0 then size else t.initialSize⟩

/-- `mul_elements_` の結果に `overflow` を足す。`DivTmpArrayBase::mul` と `apply_next_quotient` に共通である。 -/
def mulCarry (x factor overflow : Nat) : Nat × Nat :=
  let (result, overElement) := p.element.mulElements x factor
  let result := p.element.add result overflow
  if result ≥ p.base then (p.element.sub result p.base, p.element.add overElement 1) else (result, overElement)

/-- `DivTmpArrayBase::mul` のループの中。 -/
def divTmpMulBody (multiplicator i : Nat) (s : (Nat → Nat) × Nat) : (Nat → Nat) × Nat :=
  let (result, overElement) := mulCarry p (s.1 i) multiplicator s.2
  (Function.update s.1 i result, overElement)

def DivTmp.mul (tmpDivSize multiplicator : Nat) (t : DivTmp) : Except Fault DivTmp := do
  let (tmpArray, overflow) := forUp (divTmpMulBody p multiplicator) t.size (t.tmpArray, 0)
  if overflow ≠ 0 then
    assert (t.size < tmpDivSize)
    return ⟨Function.update tmpArray t.size overflow, t.size + 1, t.initialSize⟩
  else
    return ⟨tmpArray, t.size, t.initialSize⟩

/-- `DivTmpArrayBase::div` のループの中。 -/
def divTmpDivBody (divisor i : Nat) (s : (Nat → Nat) × Nat) : (Nat → Nat) × Nat :=
  let (quotient, r) := p.element.divElements s.2 (s.1 i) divisor
  (Function.update s.1 i quotient, r)

def DivTmp.div (divisor : Nat) (t : DivTmp) : DivTmp × Nat :=
  let (tmpArray, r) := forDown (divTmpDivBody p divisor) t.size (t.tmpArray, 0)
  (DivTmp.shrink ⟨tmpArray, t.size, t.initialSize⟩, r)

/-- `DivTmpDividend` のコンストラクタのループの中。 -/
def dividendBody (array : Nat → Nat) (i : Nat) (s : (Nat → Nat) × Nat) : (Nat → Nat) × Nat :=
  (Function.update s.1 (p.fractionEnd + i) (p.element.cast (array i % p.fractionOver * p.fractionRemainder + s.2)),
    array i / p.fractionOver)

/-- `DivTmpDividend` のコンストラクタ。`10 ^ FRACTION` 倍する。 -/
def DivTmp.dividend (dividend : Decimal) : DivTmp :=
  if p.fractionRemainder = 1 then
    ⟨fun i => if p.fractionEnd ≤ i ∧ i < p.fractionEnd + p.size then dividend.array
      (i - p.fractionEnd) else 0, p.divTmpSize, 0⟩
  else
    let (tmpArray, overElement) := forUp (dividendBody p dividend.array) p.size (fun _ => 0, 0)
    ⟨Function.update tmpArray (p.fractionEnd + p.size) overElement, p.divTmpSize, 0⟩

def DivTmp.divisor (divider : Decimal) : DivTmp :=
  ⟨fun i => if i < p.size then divider.array i else 0, p.size + 1, 0⟩

def DivTmp.maxElement (t : DivTmp) : Nat := t.tmpArray (t.size - 1)

def DivTmp.preMaxElement (t : DivTmp) : Nat := t.tmpArray (t.size - 2)

/-! ## 商の見積もり -/

/-- `guess_next_quotient` のループ。 -/
def guessLoop (index maxDiv preMaxDiv : Nat) (tmpArray : Nat → Nat) : Nat → Nat → Nat → Nat → Except Fault Nat
  | 0, _, _, _ => throw .diverges
  | n + 1, guess, guessHigh, r =>
      if r < p.base then do
        assert (index ≥ 2)
        let (minor, major) := p.element.mulElements preMaxDiv guess
        let major := p.element.add major (guessHigh * preMaxDiv)
        if (major < r ∨ (major = r ∧ minor ≤ tmpArray (index - 2))) ∧ (guessHigh ≠ 1 ∨ guess ≠ 0) then
          return guess
        else if guess = 0 then
          guessLoop index maxDiv preMaxDiv tmpArray n (p.base - 1) (p.element.sub guessHigh 1) (p.element.add r maxDiv)
        else
          guessLoop index maxDiv preMaxDiv tmpArray n (guess - 1) guessHigh (p.element.add r maxDiv)
      else
        return guess

/-- `guess_next_quotient`。ループは、`r` が増え続けるので `BASE + 1` 回より多くは回らない。 -/
def guessNextQuotient (index maxDiv preMaxDiv : Nat) (tmpArray : Nat → Nat) : Except Fault Nat := do
  assert (index ≥ 1)
  assert (tmpArray index ≤ maxDiv ∨ maxDiv / 2 < tmpArray index)
  if tmpArray index ≥ maxDiv then
    let (guess, r) := p.element.divElements (p.element.sub (tmpArray index) maxDiv) (tmpArray (index - 1)) maxDiv
    guessLoop p index maxDiv preMaxDiv tmpArray (p.base + 1) guess 1 r
  else
    let (guess, r) := p.element.divElements (tmpArray index) (tmpArray (index - 1)) maxDiv
    guessLoop p index maxDiv preMaxDiv tmpArray (p.base + 1) guess 0 r

/-- `apply_next_quotient` の、要素から `temp` を引く部分。 -/
def borrowElement (x temp : Nat) : Nat × Nat :=
  if x < temp then (p.element.add x (p.element.sub p.base temp), 1) else (p.element.sub x temp, 0)

/-- `apply_next_quotient` のループの中。 -/
def applyBody (index guess : Nat) (divisor : Nat → Nat) (i : Nat) (s : (Nat → Nat) × Nat × Nat) :
    (Nat → Nat) × Nat × Nat :=
  let (temp, carry) := mulCarry p (divisor i) guess s.2.1
  let (x, borrow) := borrowElement p (s.1 (index + i)) (p.element.add temp s.2.2)
  (Function.update s.1 (index + i) x, carry, borrow)

def applyNextQuotient (index guess : Nat) (divisor : DivTmp) (tmpArray : Nat → Nat) :
    Except Fault (Bool × (Nat → Nat)) := do
  assert (index + divisor.initialSize ≤ p.divTmpSize)
  let size := divisor.initialSize
  let (tmpArray, carry, borrow) := forUp (applyBody p index guess divisor.tmpArray) size (tmpArray, 0, 0)
  let (x, borrow) := borrowElement p (tmpArray (index + size)) (p.element.add carry borrow)
  return (borrow ≠ 0, Function.update tmpArray (index + size) x)

/-- `fix_next_quotient` のループの中。 -/
def fixBody (index : Nat) (divisor : Nat → Nat) (i : Nat) (s : (Nat → Nat) × Nat) : (Nat → Nat) × Nat :=
  let temp := p.element.cast (s.1 (index + i) + divisor i + s.2)
  if temp ≥ p.base then
    (Function.update s.1 (index + i) (p.element.sub temp p.base), 1)
  else
    (Function.update s.1 (index + i) temp, 0)

def fixNextQuotient (index : Nat) (divisor : DivTmp) (tmpArray : Nat → Nat) : Nat → Nat :=
  let size := divisor.initialSize
  let (tmpArray, carry) := forUp (fixBody p index divisor.tmpArray) size (tmpArray, 0)
  Function.update tmpArray (index + size) (p.element.sub (tmpArray (index + size)) (p.element.sub p.base carry))

def DivTmp.exportTo (t : DivTmp) (array : Nat → Nat) : Option (Nat → Nat) :=
  if t.tmpArray (p.size - 1) ≥ p.integerMaxOver then
    none
  else if (List.range' p.size (p.divTmpSize - p.size)).any fun i => t.tmpArray i ≠ 0 then
    none
  else
    some fun i => if i < p.size then t.tmpArray i else array i

/-! ## 割り算 -/

def nextQuotient (i maxDiv preMaxDiv : Nat) (divisor : DivTmp) (tmpArray : Nat → Nat) :
    Except Fault (Nat × (Nat → Nat)) := do
  let guess ← guessNextQuotient p (i + divisor.initialSize) maxDiv preMaxDiv tmpArray
  let (borrow, tmpArray) ← applyNextQuotient p i guess divisor tmpArray
  if borrow then
    return (p.element.sub guess 1, fixNextQuotient p i divisor tmpArray)
  else
    return (guess, tmpArray)

def divBody (maxDiv preMaxDiv : Nat) (divisor : DivTmp) (i : Nat) (s : DivTmp × (Nat → Nat)) :
    Except Fault (DivTmp × (Nat → Nat)) := do
  let (guess, tmpArray) ← nextQuotient p i maxDiv preMaxDiv divisor s.1.tmpArray
  let dividend : DivTmp := ⟨tmpArray, s.1.size, s.1.initialSize⟩
  if i = p.size then
    if guess ≠ 0 then throw .overflow else return (dividend, s.2)
  else if i = p.size - 1 ∧ guess ≥ p.integerMaxOver then
    throw .overflow
  else
    return (dividend.shrink, Function.update s.2 i guess)

/-- `div_` の、除数が二つ以上の要素を持つ場合の、`scale` 倍した後の部分。 -/
def divScaled (scale : Nat) (dividend divisor : DivTmp) (array : Nat → Nat) : Except Fault (Nat → Nat) := do
  let i := dividend.initialSize - divisor.initialSize
  if i > p.size then
    throw .overflow
  else
    let array := if i < p.size then fill (i + 1) p.size 0 array else array
    let (dividend, array) ←
      forDownM (divBody p divisor.maxElement divisor.preMaxElement divisor) (i + 1) (dividend, array)
    if scale > 1 then
      let (_, junk) := dividend.div p scale
      assert (junk = 0)
      return array
    else
      return array

def divLong (dividend divisor : DivTmp) (array : Nat → Nat) : Except Fault (Nat → Nat) := do
  let scale := p.base / (divisor.maxElement + 1)
  assert (scale > 0 ∧ scale < p.base)
  if scale > 1 then
    let dividend ← dividend.mul p p.divTmpSize scale
    let divisor ← divisor.mul p (p.size + 1) scale
    divScaled p scale dividend divisor array
  else
    divScaled p scale dividend divisor array

/-- `div_`。被除数が除数より小さいとすぐに分かったかどうかと、`quotient` に作った商を返す。 -/
def Decimal.divInner (dividend divisor quotient : Decimal) : Except Fault (Bool × Decimal) :=
  let divisorTmp := (DivTmp.divisor p divisor).shrink
  if divisorTmp.maxElement = 0 then
    throw .overflow
  else
    let dividendTmp := (DivTmp.dividend p dividend).shrink
    let negative := dividend.negative != divisor.negative
    if dividendTmp.size < divisorTmp.size then
      return (true, ⟨negative, fill 0 p.size 0 quotient.array⟩)
    else if divisorTmp.size = 1 then
      match (dividendTmp.div p divisorTmp.maxElement).1.exportTo p quotient.array with
      | none => throw .overflow
      | some array => return (false, ⟨negative, array⟩)
    else do
      let array ← divLong p dividendTmp divisorTmp quotient.array
      return (false, ⟨negative, array⟩)

def Decimal.divRemainder (dividend divisor : Decimal) : Except Fault (Decimal × Decimal) := do
  let (less, quotient) ← dividend.divInner p divisor (Decimal.invalid p)
  if less then
    return (quotient, dividend)
  else
    let product ← Decimal.mul p quotient divisor .floor
    let remainder ← Decimal.minus p dividend product
    return (quotient, remainder)

def Decimal.div (dividend divisor : Decimal) (ddr : DecimalDivRemainder) : Except Fault Decimal := do
  let (_, quotient) ← dividend.divInner p divisor (Decimal.invalid p)
  if ddr = .ceil then
    let product ← Decimal.mul p quotient divisor .floor
    if dividend.ne p product then
      let (overflow, m) := internalAdd p Place.left .right .left (Place.store quotient (Decimal.epsilon p) quotient)
      if overflow then throw .overflow else return m .left
    else
      return quotient
  else
    return quotient

end UnixCommons.Generics
