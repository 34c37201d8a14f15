import UnixCommons.Generics.Decimal

/-! # 丸めと掛け算 -/

/-!
## 端数の切り捨てと切り上げ

`Decimal::floor` と `Decimal::ceil` の写し。絶対値を、小数点の下の与えられた桁数に丸める。
-/

namespace UnixCommons.Generics

open Lib

variable (p : Params)

def floorArray (fraction : Nat) (array : Nat → Nat) : Nat → Nat :=
  let index := fraction / p.digitsPerElement
  let array := fill 0 index 0 array
  if index < p.size then
    let pow := DecimalHelper.pow10 p.element (fraction % p.digitsPerElement)
    if array index % pow ≠ 0 then
      Function.update array index (p.element.cast (array index / pow * pow))
    else
      array
  else
    array

def Decimal.floor (fraction : Nat) (d : Decimal) : Decimal :=
  if fraction > p.fraction ∨ fraction = p.fraction then d
  else ⟨d.negative, floorArray p (p.fraction - fraction) d.array⟩

/-- `ceil` の最初のループの中。 -/
def clearBody (i : Nat) (s : (Nat → Nat) × Bool) : (Nat → Nat) × Bool :=
  if s.1 i ≠ 0 then (Function.update s.1 i 0, true) else s

/-- `ceil` の、繰り上がりを上へ送るループ。 -/
def ceilCarry (array : Nat → Nat) (i : Nat) : Nat → (Nat → Nat) × Bool
  | 0 => (array, true)
  | n + 1 =>
      if array i < p.base - 1 then (Function.update array i (array i + 1), false)
      else ceilCarry (Function.update array i 0) (i + 1) n

/-- `ceil` の、番地 `index` の要素を切り上げる部分。 -/
def ceilElement (index pow : Nat) (array : Nat → Nat) : (Nat → Nat) × Bool :=
  let res := p.element.cast ((array index / pow + 1) * pow)
  let (array, overflow) :=
    if res < p.base then (Function.update array index res, false)
    else ceilCarry p (Function.update array index 0) (index + 1) (p.size - (index + 1))
  (array, overflow || array (p.size - 1) ≥ p.integerMaxOver)

/-- `ceil` の、下の `fraction` 桁を切り上げる部分。 -/
def ceilArray (fraction : Nat) (array : Nat → Nat) : (Nat → Nat) × Bool :=
  let index := fraction / p.digitsPerElement
  let (array, overflow) := forUp clearBody index (array, false)
  if index < p.size then
    let pow := DecimalHelper.pow10 p.element (fraction % p.digitsPerElement)
    if overflow ∨ array index % pow ≠ 0 then ceilElement p index pow array else (array, overflow)
  else
    (array, overflow)

def Decimal.ceil (fraction : Nat) : EStateM Fault Decimal PUnit := do
  if fraction > p.fraction ∨ fraction = p.fraction then
    return
  else
    let d ← get
    let (array, overflow) := ceilArray p (p.fraction - fraction) d.array
    set (⟨d.negative, array⟩ : Decimal)
    if overflow then throw .overflow

end UnixCommons.Generics

/-!
## 掛け算

`Decimal::MulTmpArray` と `Decimal::mul` の写し。積は `TMP_SIZE` 個の要素に足し込まれ、下の `FRACTION` 桁が丸められる。
-/

namespace UnixCommons.Generics

open Lib

variable (p : Params)

/-- `MulTmpArray::add` の、繰り上がりを上へ送るループ。 -/
def carryLoop (tmpArray : Nat → Nat) (overflow i : Nat) : Nat → Bool × (Nat → Nat)
  | 0 => (overflow ≠ 0 || tmpArray (p.tmpSize - 1) ≥ p.tmpIntegerMaxOver, tmpArray)
  | n + 1 =>
      let x := p.element.add (tmpArray i) overflow
      if x < p.base then
        let tmpArray := Function.update tmpArray i x
        if i ≠ p.tmpSize - 1 then (false, tmpArray)
        else (tmpArray (p.tmpSize - 1) ≥ p.tmpIntegerMaxOver, tmpArray)
      else
        carryLoop (Function.update tmpArray i (p.element.sub x p.base)) 1 (i + 1) n

/-- `MulTmpArray::add` の、番地 `index` に足す部分。 -/
def addElement (x value : Nat) : Except Fault (Nat × Nat) :=
  if p.element.maxSum > 2 ∨ p.element.modulus - 1 - value ≥ x then
    let x := p.element.add x value
    if x ≥ p.base then return (x % p.base, x / p.base) else return (x, 0)
  else do
    assert (value > p.base)
    let overflow := value / p.base
    let x := p.element.add x (value % p.base)
    if x ≥ p.base then return (p.element.sub x p.base, overflow + 1) else return (x, overflow)

def MulTmpArray.add (value index : Nat) (tmpArray : Nat → Nat) : Except Fault (Bool × (Nat → Nat)) :=
  if index ≥ p.tmpSize then
    return (true, tmpArray)
  else do
    let (x, overflow) ← addElement p (tmpArray index) value
    return carryLoop p (Function.update tmpArray index x) overflow (index + 1) (p.tmpSize - (index + 1))

def MulTmpArray.round (tmpArray : Nat → Nat) : Except Fault (Bool × (Nat → Nat)) :=
  if (if p.fractionRemainder = 1 then tmpArray (p.fractionEnd - 1) ≥ p.base / 2
      else tmpArray p.fractionEnd % p.fractionRemainder ≥ p.fractionRemainder / 2) then
    MulTmpArray.add p p.fractionRemainder p.fractionEnd tmpArray
  else
    return (false, tmpArray)

def MulTmpArray.ceil (tmpArray : Nat → Nat) : Except Fault (Bool × (Nat → Nat)) :=
  if (if p.fractionRemainder = 1 then tmpArray (p.fractionEnd - 1) ≠ 0
      else tmpArray p.fractionEnd % p.fractionRemainder ≠ 0) then
    MulTmpArray.add p p.fractionRemainder p.fractionEnd tmpArray
  else
    return (false, tmpArray)

/-- `MulTmpArray::export_to` の、端数が要素の途中で終わる場合のループ。 -/
def exportLoop (tmpArray : Nat → Nat) (result : Nat → Nat) (last i : Nat) : Nat → Nat → Nat
  | 0 => result
  | n + 1 =>
      let index := p.fractionEnd + 1 + i
      if index = p.tmpSize then Function.update result i last
      else
        exportLoop tmpArray
          (Function.update result i
            (p.element.cast (last + tmpArray index % p.fractionRemainder * p.fractionOver)))
          (tmpArray index / p.fractionRemainder) (i + 1) n

def MulTmpArray.exportTo (tmpArray : Nat → Nat) (result : Nat → Nat) : Nat → Nat :=
  if p.fractionRemainder = 1 then
    fun i => if i < p.size then tmpArray (p.fractionEnd + i) else result i
  else
    exportLoop p tmpArray result (tmpArray p.fractionEnd / p.fractionRemainder) 0 p.size

def addOrThrow (value index : Nat) (tmpArray : Nat → Nat) : Except Fault (Nat → Nat) := do
  let (exceeds, tmpArray) ← MulTmpArray.add p value index tmpArray
  if exceeds then throw .overflow else return tmpArray

/-- `mul` の内側のループの中。 -/
def mulBody (array1 : Nat → Nat) (factor i j : Nat) (s : (Nat → Nat) × Nat) : Except Fault ((Nat → Nat) × Nat) :=
  let (tmpArray, overflow) := s
  if array1 j ≠ 0 then do
    let (result, overElement) := p.element.mulElements (array1 j) factor
    let tmpArray ← addOrThrow p (p.element.add result overflow) (i + j) tmpArray
    return (tmpArray, overElement)
  else if overflow ≠ 0 then do
    let tmpArray ← addOrThrow p overflow (i + j) tmpArray
    return (tmpArray, 0)
  else
    return (tmpArray, overflow)

def mulRow (array1 array2 : Nat → Nat) (i : Nat) (tmpArray : Nat → Nat) : Except Fault (Nat → Nat) :=
  if array2 i = 0 then
    return tmpArray
  else do
    let (tmpArray, overflow) ← forUpM (mulBody p array1 (array2 i) i) p.size (tmpArray, 0)
    if overflow ≠ 0 then addOrThrow p overflow (i + p.size) tmpArray else return tmpArray

/-- `mul` の、丸める部分。 -/
def roundOrThrow (dmr : DecimalMulRemainder) (tmpArray : Nat → Nat) : Except Fault (Nat → Nat) :=
  if p.fraction ≠ 0 ∧ dmr ≠ .floor then do
    let (exceeds, tmpArray) ← (if dmr = .round then MulTmpArray.round p tmpArray else MulTmpArray.ceil p tmpArray)
    if exceeds then throw .overflow else return tmpArray
  else
    return tmpArray

def Decimal.mul (factor1 factor2 : Decimal) (dmr : DecimalMulRemainder) : Except Fault Decimal := do
  let mulTmp ← forUpM (mulRow p factor1.array factor2.array) p.size (fun _ => 0)
  let mulTmp ← roundOrThrow p dmr mulTmp
  return ⟨factor1.negative != factor2.negative, MulTmpArray.exportTo p mulTmp (Decimal.invalid p).array⟩

end UnixCommons.Generics
