import UnixCommons.Lib.Bytes

/-!
# UTF-8 の検査

`UTF8Handler.hpp` の `is_correct_utf8_sequence`、`is_correct_utf8_string`、`get_octet_count` と、一つの文字の変換の写し。文字列は NUL で
終わり、指す先は NUL までの残りのバイトで表す。`unsigned char` の値は自然数で、`wchar_t` の値は 32 ビットの符号なしの値で表す。
-/

namespace UnixCommons.String.UTF8Handler

open Lib

structure CString where
  bytes : Bytes
  nonzero : 0 ∉ bytes

/-- 計算が止まる理由。`pastNul` は NUL の後を読むこと、`fuel` はループが終わらないことである。 -/
inductive Fault
  | pastNul
  | fuel
  deriving DecidableEq, Repr

def byteAt (src : Bytes) (i : Nat) : Except Fault Nat :=
  if i < src.length then return (src.getD i 0).toNat else if i = src.length then return 0 else throw .pastNul

/-- `switch (B1)` の、二つ目のバイトの検査。 -/
def checkSecond (b1 b2 : Nat) : Bool :=
  if b1 = 0xE0 then b2 &&& 0xE0 = 0xA0
  else if b1 = 0xED then b2 &&& 0xE0 = 0x80
  else if b1 = 0xF0 then b2 ≥ 0x90 ∧ b2 ≤ 0xBF
  else if b1 = 0xF4 then b2 &&& 0xF0 = 0x80
  else if b1 ≤ 0xEF then b2 &&& 0xC0 = 0x80
  else b2 &&& 0xC0 = 0x80

/-- 結果と `octets_count`。 -/
def isCorrectUtf8Sequence (src : Bytes) : Except Fault (Bool × Nat) := do
  let b1 ← byteAt src 0
  if b1 ≤ 0x7F then
    return (true, 1)
  else if b1 < 0xC2 ∨ b1 > 0xF4 then
    return (false, 0)
  else
    let b2 ← byteAt src 1
    if b1 ≤ 0xDF then
      if b2 &&& 0xC0 = 0x80 then return (true, 2) else return (false, 0)
    else if ¬ checkSecond b1 b2 then
      return (false, 0)
    else if b1 < 0xF0 then
      if (← byteAt src 2) &&& 0xC0 ≠ 0x80 then return (false, 0) else return (true, 3)
    else
      -- 四つのバイトの並びでは、`src[2]` は検査されない。
      if (← byteAt src 3) &&& 0xC0 ≠ 0x80 then return (false, 0) else return (true, 4)

/-- `is_correct_utf8_string` のループ。 -/
def stringLoop : Nat → Nat → Bytes → Except Fault (Option Nat)
  | 0, _, _ => throw .fuel
  | fuel + 1, pos, str => do
      if (← byteAt str 0) = 0 then
        return none
      else
        let (correct, octetsCount) ← isCorrectUtf8Sequence str
        if ¬ correct then
          return some pos
        else if octetsCount ≤ str.length then
          stringLoop fuel (pos + octetsCount) (str.drop octetsCount)
        else
          throw .pastNul

/-- `is_correct_utf8_string`。`none` は 0、`some pos` は `str + pos` である。 -/
def isCorrectUtf8String (str : Bytes) : Except Fault (Option Nat) := stringLoop (str.length + 1) 0 str

def trailingBytesForUtf8 : List Nat :=
  List.replicate 128 1 ++ List.replicate 66 0 ++ List.replicate 30 2 ++ List.replicate 16 3 ++
    List.replicate 8 4 ++ List.replicate 4 5 ++ List.replicate 2 6 ++ List.replicate 2 0

def getOctetCount (ch : Nat) : Nat := trailingBytesForUtf8.getD ch 0

theorem getOctetCount_table (n : Nat) : getOctetCount n =
    if n < 128 then 1 else if n < 194 then 0 else if n < 224 then 2 else if n < 240 then 3
      else if n < 248 then 4 else if n < 252 then 5 else if n < 254 then 6 else 0 := by
  simp only [getOctetCount, trailingBytesForUtf8, List.getD_eq_getElem?_getD, List.getElem?_append,
    List.getElem?_replicate, List.length_append, List.length_replicate]
  split_ifs <;> first | rfl | omega

/-! ## 一つの文字の変換 -/

def firstByteMasks : List Nat := [0, 0x7F, 0x1F, 0x0F, 0x07, 0x03, 0x01]

/-- `utf8_char_to_wchar` の、後に続くバイトを読むループ。 -/
def tailLoop : Nat → Bytes → Nat → Bool × Nat
  | 0, _, dest => (true, dest)
  | n + 1, src, dest =>
      let ch := (src.headD 0).toNat
      if ch &&& 0xC0 ≠ 0x80 then (false, dest) else tailLoop n src.tail ((dest <<< 6) ||| (ch &&& 0x3F))

/-- 結果と `dest`。 -/
def utf8CharToWchar (src : Bytes) (octetsCount : Nat) : Bool × Nat :=
  if octetsCount ≠ 0 ∧ octetsCount ≤ 6 then
    tailLoop (octetsCount - 1) src.tail ((src.headD 0).toNat &&& firstByteMasks.getD octetsCount 0)
  else
    (false, 0)

/-- 結果と、`dest_buff` の中身。 -/
def wcharToUtf8Char (src : Nat) : Option Bytes :=
  if src < 0x80 then
    some [UInt8.ofNat (src &&& 0x7F)]
  else if src < 0x800 then
    some [UInt8.ofNat (((src >>> 6) &&& 0x1F) ||| 0xC0), UInt8.ofNat ((src &&& 0x3F) ||| 0x80)]
  else if src < 0x10000 then
    some [UInt8.ofNat (((src >>> 12) &&& 0x0F) ||| 0xE0),
      UInt8.ofNat (((src >>> 6) &&& 0x3F) ||| 0x80), UInt8.ofNat ((src &&& 0x3F) ||| 0x80)]
  else if src < 0x200000 then
    some [UInt8.ofNat (((src >>> 18) &&& 0x07) ||| 0xF0), UInt8.ofNat (((src >>> 12) &&& 0x3F) ||| 0x80),
      UInt8.ofNat (((src >>> 6) &&& 0x3F) ||| 0x80), UInt8.ofNat ((src &&& 0x3F) ||| 0x80)]
  else
    none

end UnixCommons.String.UTF8Handler
