import Mathlib.Data.Nat.Log
import Mathlib.Logic.Function.Basic
import UnixCommons.String.UTF8Handler

/-!
# 整数の文字列と連結

`StringManip.tpp` と `StringManip.ipp` の、整数の読み書きと、緩衝域への連結の写し。
-/

/-!
## 整数の読み取り

`StringManip.tpp` の `str_to_int` の写し。読み取りに失敗しても、`value` は途中の値に変わる。桁の検査で溢れは起こらないので、値は整数で表す。
-/

namespace UnixCommons.String.StrToInt

open Lib

structure IntegerType where
  min : Int
  max : Int
  isSigned : Bool

def unsignedShort : IntegerType := ⟨0, 2 ^ 16 - 1, false⟩

def IntegerType.limit (T : IntegerType) : Int := T.max / 10

/-- `*src - '0'`。 -/
def digit (ch : UInt8) : Nat := (ch - 0x30).toNat

def negativeLoop (T : IntegerType) : Bytes → Int → Bool × Int
  | [], value => (true, value)
  | ch :: src, value =>
      if digit ch > 9 ∨ value < -T.limit ∨ (value = -T.limit ∧ (digit ch : Int) > (-(T.min + T.limit * 10)) % 256) then
        (false, value)
      else
        negativeLoop T src (value * 10 - digit ch)

def positiveLoop (T : IntegerType) : Bytes → Int → Bool × Int
  | [], value => (true, value)
  | ch :: src, value =>
      if digit ch > 9 ∨ value > T.limit ∨ (value = T.limit ∧ (digit ch : Int) > (T.max - T.limit * 10) % 256) then
        (false, value)
      else
        positiveLoop T src (value * 10 + digit ch)

def strToInt (T : IntegerType) (str : Bytes) (value : Int) : Bool × Int :=
  match str with
  | [] => (false, value)
  | ch :: src =>
      if ch = 0x2D ∧ ¬ T.isSigned then
        (false, value)
      else if ch = 0x2D ∨ ch = 0x2B then
        if src = [] then (false, value) else if ch = 0x2D then negativeLoop T src 0 else positiveLoop T src 0
      else
        positiveLoop T (ch :: src) 0

end UnixCommons.String.StrToInt

/-!
## 整数の文字列

`StringManip.tpp` の `str_to_int` と `int_to_str` の写し。`str_to_int` の計算は、途中の値が型に収まることを確かめながら行う。緩衝域は、番地からバイトへの写像である。
-/

namespace UnixCommons.String.IntText

open Lib StrToInt

/-- `numeric_limits` の表す整数の型。 -/
structure BinaryType where
  digits : Nat
  isSigned : Bool
  valid : 7 ≤ digits ∨ (digits = 1 ∧ isSigned = false)

namespace BinaryType

def bool : BinaryType := ⟨1, false, .inr ⟨rfl, rfl⟩⟩

def int : BinaryType := ⟨31, true, .inl (by decide)⟩

variable (B : BinaryType)

def limits : IntegerType := ⟨if B.isSigned then -2 ^ B.digits else 0, 2 ^ B.digits - 1, B.isSigned⟩

def min : Int := B.limits.min

def max : Int := B.limits.max

def limit : Int := B.limits.limit

def digits10 : Nat := Nat.log 10 (2 ^ B.digits)

/-- 計算が行われる型。`int` に収まる型は `int` になる。 -/
def promoted : BinaryType := if B.digits ≤ 31 then int else B

/-- `static_cast<Integer>`。`bool` では、零でない数は 1 になる。 -/
def cast (n : Nat) : Int := if B.digits = 1 then (if n = 0 then 0 else 1) else n

end BinaryType

inductive Fault
  | overflow
  deriving DecidableEq, Repr

def checked (B : BinaryType) (x : Int) : Except Fault Int := if B.min ≤ x ∧ x ≤ B.max then return x else throw .overflow

/-- `negative` のループの条件。真であれば `false` を返す。 -/
def negativeGuard (B : BinaryType) (value : Int) (ch : Nat) : Except Fault Bool := do
  if ch > 9 then
    return true
  else
    let low ← checked B.promoted (-B.limit)
    if value < low then
      return true
    else if value = low then
      let tens ← checked B.promoted (B.limit * 10)
      let rest ← checked B.promoted (B.min + tens)
      let last ← checked B.promoted (-rest)
      return (ch : Int) > last % 256
    else
      return false

def negativeLoop (B : BinaryType) : Bytes → Int → Except Fault (Bool × Int)
  | [], value => return (true, value)
  | ch :: src, value => do
      if ← negativeGuard B value (digit ch) then
        return (false, value)
      else
        let product ← checked B.promoted (value * B.cast 10)
        let sum ← checked B.promoted (product - B.cast (digit ch))
        let value ← checked B sum
        negativeLoop B src value

def positiveGuard (B : BinaryType) (value : Int) (ch : Nat) : Except Fault Bool := do
  if ch > 9 then
    return true
  else if value > B.limit then
    return true
  else if value = B.limit then
    let tens ← checked B.promoted (B.limit * 10)
    let last ← checked B.promoted (B.max - tens)
    return (ch : Int) > last % 256
  else
    return false

def positiveLoop (B : BinaryType) : Bytes → Int → Except Fault (Bool × Int)
  | [], value => return (true, value)
  | ch :: src, value => do
      if ← positiveGuard B value (digit ch) then
        return (false, value)
      else
        let product ← checked B.promoted (value * B.cast 10)
        let sum ← checked B.promoted (product + B.cast (digit ch))
        let value ← checked B sum
        positiveLoop B src value

def strToInt (B : BinaryType) (str : Bytes) (value : Int) : Except Fault (Bool × Int) :=
  match str with
  | [] => return (false, value)
  | ch :: src =>
      if ch = 0x2D ∧ ¬ B.isSigned then
        return (false, value)
      else if ch = 0x2D ∨ ch = 0x2B then
        if src = [] then return (false, value) else if ch = 0x2D then negativeLoop B src 0 else positiveLoop B src 0
      else
        positiveLoop B (ch :: src) 0

abbrev Memory := Nat → UInt8

/-- 下の桁から書くループ。 -/
def digitLoop (value : Nat) (memory : Memory) (ptr : Nat) : Memory × Nat :=
  let memory := Function.update memory ptr (UInt8.ofNat (0x30 + value % 10))
  if value / 10 = 0 then (memory, ptr + 1) else digitLoop (value / 10) memory (ptr + 1)
termination_by value

def swap (memory : Memory) (str ptr : Nat) : Memory :=
  Function.update (Function.update memory str (memory ptr)) ptr (memory str)

def swapLoop (memory : Memory) (str ptr : Nat) : Memory := if str < ptr then swapLoop
    (swap memory str ptr) (str + 1) (ptr - 1) else memory
termination_by ptr - str

/-- `IntToStrSign<Integer, false>::convert`。 -/
def convertUnsigned (value : Nat) (memory : Memory) (str : Nat) : Memory × Nat :=
  let (memory, ptr) := digitLoop value memory str
  let size := ptr - str
  let memory := Function.update memory ptr 0
  (swapLoop memory str (ptr - 1), size)

/-- `IntToStrSign<Integer, true>::convert`。 -/
def convertSigned (B : BinaryType) (value : Int) (memory : Memory) (str : Nat) : Memory × Nat :=
  if value < -B.max then
    (memory, 0)
  else if value < 0 then
    let (memory, size) := convertUnsigned (-value).toNat (Function.update memory str 0x2D) (str + 1)
    (memory, size + 1)
  else
    convertUnsigned value.toNat memory str

def intToStr (B : BinaryType) (value : Int) (memory : Memory) (str size : Nat) : Memory × Nat :=
  if size < B.digits10 + 3 then (memory, 0)
  else if B.isSigned then convertSigned B value memory str
  else convertUnsigned value.toNat memory str

end UnixCommons.String.IntText

/-!
## 緩衝域への連結

`StringManip.ipp` の `strlcpy`、四つの `append`、`concat` の写し。引数は、文字列か整数である。
-/

namespace UnixCommons.String.Concat

open Lib UTF8Handler IntText

/-- 計算が止まる理由。`outOfBounds` は、緩衝域の外に写すことである。 -/
inductive Fault
  | assertion
  | outOfBounds
  deriving DecidableEq, Repr

/-- `concat` の引数。`const char*` と `char*` は同じである。 -/
inductive Arg
  | cstr (str : CString)
  | sub (str : Bytes)
  | str (str : Bytes)
  | int (B : BinaryType) (value : Int) (hvalue : B.min ≤ value ∧ value ≤ B.max)

/-- `strlcpy` の、写すループ。 -/
def strlcpyLoop : Nat → Bytes → Memory → Nat → Memory
  | 0, _, memory, dst => Function.update memory dst 0
  | _ + 1, [], memory, dst => Function.update memory dst 0
  | left + 1, ch :: src, memory, dst => strlcpyLoop left src (Function.update memory dst ch) (dst + 1)

/-- `strlcpy`。返される長さは、常に `src` の長さである。 -/
def strlcpy (memory : Memory) (dst : Nat) (src : Bytes) (size : Nat) : Memory × Nat :=
  (if size ≠ 0 then strlcpyLoop (size - 1) src memory dst else memory, src.length)

def appendPointer (memory : Memory) (buffer size : Nat) (str : Bytes) : Memory × Nat :=
  let (memory, length) := strlcpy memory buffer str size
  (memory, if length < size then length else size)

/-- `SubString` の `append`。`size` が 0 であれば、`size - 1` は巻き戻る。 -/
def appendSubString (memory : Memory) (buffer size : Nat) (str : Bytes) : Except Fault (Memory × Nat) :=
  if str.length ≥ size then
    if size = 0 then throw .outOfBounds
    else return (Function.update (writeBytes memory buffer (str.take (size - 1))) (buffer + (size - 1)) 0, size)
  else
    return (writeBytes memory buffer str, str.length)

def appendInteger (memory : Memory) (buffer size : Nat) (B : BinaryType) (integer : Int) : Memory × Nat :=
  let (memory, res) := intToStr B integer memory buffer size
  if res = 0 then (Function.update memory buffer 0, size) else (memory, res - 1)

def append (memory : Memory) (buffer size : Nat) : Arg → Except Fault (Memory × Nat)
  | .cstr str => return appendPointer memory buffer size str.bytes
  | .sub str => appendSubString memory buffer size str
  | .str str => appendSubString memory buffer size str
  | .int B value _ => return appendInteger memory buffer size B value

def concat (memory : Memory) (buffer size : Nat) : List Arg → Except Fault Memory
  | [] => if size = 0 then throw .assertion else return Function.update memory buffer 0
  | f :: args => do
      let (memory, length) ← append memory buffer size f
      if length < size then concat memory (buffer + length) (size - length) args else return memory

end UnixCommons.String.Concat
