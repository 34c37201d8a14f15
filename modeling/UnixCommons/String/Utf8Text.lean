import UnixCommons.Generics.ArrayAutoPtr
import UnixCommons.String.XmlEncode

/-!
# UTF-8 の文字列

`StringManip` の `utf8_to_wchar`、二つの `wchar_to_utf8`、`utf8_substr` の写し。読む所は、残りのバイトの並びで表し、`src.size()` から数えた残りの数とは別に持つ。
-/

namespace UnixCommons.String.Utf8Text

open Lib UTF8Handler
open Generics (arraySize)

/-- `InvalidFormatException` の二つの場合と、計算が止まる理由。`outOfBounds` は文字列か配列の外に触れること、`overflow` は `int` の `pos` が溢れることである。 -/
inductive Fault
  | incomplete
  | invalidOctet
  | outOfBounds
  | overflow
  deriving DecidableEq, Repr

/-! ## `utf8_to_wchar` -/

/-- `utf8_char_to_wchar` の、後に続くバイトを読むループ。 -/
def charTailLoop : Nat → Bytes → Nat → Except Fault (Bool × Nat)
  | 0, _, dest => return (true, dest)
  | _ + 1, [], _ => throw .outOfBounds
  | n + 1, ch :: src, dest =>
      if ch.toNat &&& 0xC0 ≠ 0x80 then return (false, dest) else charTailLoop n src ((dest <<< 6) ||| (ch.toNat &&& 0x3F))

/-- `utf8_char_to_wchar`。 -/
def charToWchar (src : Bytes) (octetsCount : Nat) : Except Fault (Bool × Nat) :=
  if octetsCount ≠ 0 ∧ octetsCount ≤ 6 then
    match src with
    | [] => throw .outOfBounds
    | ch :: src => charTailLoop (octetsCount - 1) src (ch.toNat &&& firstByteMasks.getD octetsCount 0)
  else
    return (false, 0)

/-- `dst[pos] = wch`。 -/
def putWchar (capacity : Nat) (dst : List Nat) (wch : Nat) : Except Fault (List Nat) :=
  if dst.length < capacity then return dst ++ [wch] else throw .outOfBounds

def pushWchar (capacity : Nat) (dst : List Nat) (wch : Nat) : Except Fault (List Nat) :=
  if dst.length + 1 < 2 ^ 31 then putWchar capacity dst wch else throw .overflow

def toWcharLoop (capacity size : Nat) (cur : Bytes) (dst : List Nat) : Except Fault (List Nat) :=
  if _ : size = 0 then
    return dst
  else
    match cur with
    | [] => throw .outOfBounds
    | ch :: cur =>
        let length := getOctetCount ch.toNat
        if size < length then
          throw .incomplete
        else if _ : length = 0 then
          throw .invalidOctet
        else do
          let (result, wch) ← charToWchar (ch :: cur) length
          if ¬ result then
            throw .invalidOctet
          else
            let dst ← pushWchar capacity dst wch
            toWcharLoop capacity (size - length) ((ch :: cur).drop length) dst
termination_by size

def utf8ToWchar (src : Bytes) : Except Fault (List Nat) := do
  let size := src.length
  let capacity := arraySize (size + 1)
  let dst ← toWcharLoop capacity size src []
  putWchar capacity dst 0

/-! ## `wchar_to_utf8` -/

/-- `const wchar_t*` の `wchar_to_utf8` のループ。 -/
def pointerLoop : List Nat → Bytes → Except Fault Bytes
  | [], _ => throw .outOfBounds
  | current :: src, utf8Res => if current = 0 then return utf8Res
      else pointerLoop src (utf8Res ++ XmlEncode.wcharToUtf8 current)

/-- `const wchar_t*` の `wchar_to_utf8`。 -/
def wcharToUtf8Pointer : Option (List Nat) → Except Fault Bytes
  | none => return []
  | some src => pointerLoop src []

/-- `WSubString` の `wchar_to_utf8` のループ。 -/
def subStringLoop : List Nat → Bytes → Bytes
  | [], utf8Res => utf8Res
  | current :: src, utf8Res => subStringLoop src (utf8Res ++ XmlEncode.wcharToUtf8 current)

/-- `WSubString` の `wchar_to_utf8`。 -/
def wcharToUtf8 (src : List Nat) : Bytes := subStringLoop src []

/-! ## `utf8_substr` -/

/-- `utf8_substr` の、後に続くバイトを調べるループ。`left` は `--left` の後の値である。 -/
def tailsLoop : Nat → Bytes → Except Fault Bool
  | 0, _ => return true
  | _ + 1, [] => throw .outOfBounds
  | left + 1, ch :: src => if ch.toNat &&& 0xC0 ≠ 0x80 then return false else tailsLoop left src

/-- `utf8_substr` のループ。`src` は位置 `length` から後のバイトで、`size` はその数である。 -/
def substrLoop (maxOctets length size : Nat) (src : Bytes) : Except Fault (Option Nat) :=
  if maxOctets = 0 ∨ size = 0 then
    return some length
  else
    match src with
    | [] => throw .outOfBounds
    | ch :: src =>
        let octets := getOctetCount ch.toNat
        if octets > maxOctets then
          return some length
        else if _ : octets = 0 ∨ octets > size then
          return none
        else do
          if ← tailsLoop (octets - 1) src then
            substrLoop (maxOctets - octets) (length + octets) (size - octets) ((ch :: src).drop octets)
          else
            return none
termination_by size

def utf8Substr (src : Bytes) (maxOctets : Nat) : Except Fault (Option Bytes) := do
  let length ← substrLoop maxOctets 0 src.length src
  return length.map fun length => src.take length

end UnixCommons.String.Utf8Text
