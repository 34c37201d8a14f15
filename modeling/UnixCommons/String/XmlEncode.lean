import UnixCommons.String.AsciiStringManip
import UnixCommons.String.UTF8Handler

/-!
# XML の符号化

`StringManip.cpp` の二つの `xml_encode` と `xml_decode` の写し。文字列は NUL の前のバイト、広い文字列は NUL の前の `wchar_t` の値で表す。
復号の位置は、読み残したバイトの並びで表す。
-/

namespace UnixCommons.String.XmlEncode

open Lib AsciiStringManip UTF8Handler

/-- `InvalidFormatException` の五つの場合と、計算が止まる理由。`overflow` は `wchar_to_hex` の `buf` をはみ出すことである。 -/
inductive Fault
  | invalidSource
  | absentSemicolon
  | emptySequence
  | invalidCharCode
  | unknownSequence
  | assertion
  | overflow
  | utf8 (fault : UTF8Handler.Fault)
  | fuel
  deriving DecidableEq, Repr

def xuText : Nat := 0x1

def xuAttribute : Nat := 0x2

def xuPreserveUtf8 : Nat := 0x4

def initUnits (units : Nat) : Nat := if units = 0 then xuText ||| xuAttribute else units

/-! ## 符号化 -/

def special (symbol : UInt8) (units : Nat) : Bytes :=
  if symbol = ascii '<' then ['&', 'l', 't', ';'].map ascii
  else if symbol = ascii '>' then ['&', 'g', 't', ';'].map ascii
  else if symbol = ascii '&' then ['&', 'a', 'm', 'p', ';'].map ascii
  else if units &&& xuAttribute ≠ 0 ∧ symbol = ascii '\'' then ['&', 'a', 'p', 'o', 's', ';'].map ascii
  else if units &&& xuAttribute ≠ 0 ∧ symbol = ascii '"' then ['&', 'q', 'u', 'o', 't', ';'].map ascii
  else [symbol]

/-- `wchar_to_hex` の、上位の零を飛ばすループ。 -/
def skipLoop (ucs : Nat) : Nat → Nat
  | 0 => 0
  | i + 1 => if ucs &&& (0xF <<< (4 * (i + 1))) = 0 then skipLoop ucs i else i + 1

/-- `wchar_to_hex` の、数字を書くループ。 -/
def hexLoop (ucs : Nat) : Nat → Bytes
  | 0 => [hexDigits.getD (ucs &&& 0xF) 0]
  | i + 1 => hexDigits.getD ((ucs &&& (0xF <<< (4 * (i + 1)))) >>> (4 * (i + 1))) 0 :: hexLoop ucs i

def wcharToHex (ucs : Nat) : Except Fault Bytes :=
  if ¬ (ucs > 0 ∧ ucs ≤ 0xFFFFFFFF) then
    throw .assertion
  else
    let digits := hexLoop ucs (skipLoop ucs 7)
    if 3 + digits.length + 1 > 11 then throw .overflow
    else return ['&', '#', 'x'].map ascii ++ digits ++ [ascii ';']

def encodeLoop (units : Nat) : Nat → Bytes → Bytes → Except Fault Bytes
  | 0, _, _ => throw .fuel
  | fuel + 1, src, dest => do
      let current := src.headD 0
      if current = 0 then
        return dest
      else
        let (correct, octetsCount) ← (isCorrectUtf8Sequence src).mapError .utf8
        if ¬ correct then
          throw .invalidSource
        else if octetsCount = 1 ∧ charValue current ≥ 0x20 ∧ charValue current ≤ 0x7E then
          encodeLoop units fuel (src.drop octetsCount) (dest ++ special current units)
        else if units &&& xuPreserveUtf8 ≠ 0 then
          encodeLoop units fuel (src.drop octetsCount) (dest ++ src.take octetsCount)
        else
          let ref ← wcharToHex (utf8CharToWchar src octetsCount).2
          encodeLoop units fuel (src.drop octetsCount) (dest ++ ref)

def xmlEncode (src : Bytes) (units : Nat) : Except Fault Bytes := encodeLoop (initUnits units) (src.length + 1) src []

def wcharToUtf8 (ucs : Nat) : Bytes :=
  if ucs < 0x80 then
    [UInt8.ofNat (ucs &&& 0x7F)]
  else if ucs < 0x10000 then
    if ucs < 0x800 then
      [UInt8.ofNat (((ucs >>> 6) &&& 0x1F) ||| 0xC0), UInt8.ofNat ((ucs &&& 0x3F) ||| 0x80)]
    else
      [UInt8.ofNat (((ucs >>> 12) &&& 0x0F) ||| 0xE0),
        UInt8.ofNat (((ucs >>> 6) &&& 0x3F) ||| 0x80), UInt8.ofNat ((ucs &&& 0x3F) ||| 0x80)]
  else if ucs < 0x200000 then
    [UInt8.ofNat (((ucs >>> 18) &&& 0x07) ||| 0xF0), UInt8.ofNat (((ucs >>> 12) &&& 0x3F) ||| 0x80),
      UInt8.ofNat (((ucs >>> 6) &&& 0x3F) ||| 0x80), UInt8.ofNat ((ucs &&& 0x3F) ||| 0x80)]
  else if ucs < 0x4000000 then
    [UInt8.ofNat (((ucs >>> 24) &&& 0x03) ||| 0xF8), UInt8.ofNat (((ucs >>> 18) &&& 0x3F) ||| 0x80),
      UInt8.ofNat (((ucs >>> 12) &&& 0x3F) ||| 0x80), UInt8.ofNat (((ucs >>> 6) &&& 0x3F) ||| 0x80),
      UInt8.ofNat ((ucs &&& 0x3F) ||| 0x80)]
  else
    [UInt8.ofNat (((ucs >>> 30) &&& 0x01) ||| 0xFC), UInt8.ofNat (((ucs >>> 24) &&& 0x3F) ||| 0x80),
      UInt8.ofNat (((ucs >>> 18) &&& 0x3F) ||| 0x80), UInt8.ofNat (((ucs >>> 12) &&& 0x3F) ||| 0x80),
      UInt8.ofNat (((ucs >>> 6) &&& 0x3F) ||| 0x80), UInt8.ofNat ((ucs &&& 0x3F) ||| 0x80)]

def encodeWideLoop (units : Nat) : List Nat → Bytes → Except Fault Bytes
  | [], dest => return dest
  | current :: src, dest =>
      if current = 0 then
        return dest
      else
        let lByte := convert current
        if current >>> 8 = 0 ∧ charValue lByte ≥ 0x20 ∧ charValue lByte ≤ 0x7E then
          encodeWideLoop units src (dest ++ special lByte units)
        else if units &&& xuPreserveUtf8 ≠ 0 then
          encodeWideLoop units src (dest ++ wcharToUtf8 current)
        else do
          let ref ← wcharToHex current
          encodeWideLoop units src (dest ++ ref)

def xmlEncodeWide (src : List Nat) (units : Nat) : Except Fault Bytes := encodeWideLoop (initUnits units) src []

/-! ## 復号 -/

def hexValueLoop : Bytes → Nat → Except Fault Nat
  | [], value => return value
  | ch :: digits, value =>
      if ¬ isOwned hexNumber ch then throw .invalidCharCode else hexValueLoop digits ((value <<< 4) ||| hexToInt ch)

def decodeHex (digits : Bytes) : Except Fault Bytes :=
  if digits = [] then
    throw .unknownSequence
  else
    let digits := digits.dropWhile (· = ascii '0')
    if digits = [] then
      return [0]
    else if digits.length > 6 then
      throw .invalidCharCode
    else do
      let value ← hexValueLoop digits 0
      match wcharToUtf8Char value with
      | some buf => return buf
      | none => throw .invalidCharCode

/-- 一つの参照の表す文字。 -/
def decodeTag (tag : Bytes) : Except Fault Bytes :=
  if tag.headD 0 = ascii '#' then
    if tag.getD 1 0 = ascii 'x' then decodeHex (tag.drop 2) else throw .unknownSequence
  else if tag = ['a', 'm', 'p'].map ascii then return [ascii '&']
  else if tag = ['a', 'p', 'o', 's'].map ascii then return [ascii '\'']
  else if tag = ['g', 't'].map ascii then return [ascii '>']
  else if tag = ['l', 't'].map ascii then return [ascii '<']
  else if tag = ['q', 'u', 'o', 't'].map ascii then return [ascii '"']
  else throw .unknownSequence

/-- `xml_decode` のループ。 -/
def decodeLoop : Nat → Bytes → Bytes → Except Fault Bytes
  | 0, _, _ => throw .fuel
  | fuel + 1, src, dst =>
      match src.dropWhile (· ≠ ascii '&') with
      | [] => return dst ++ src
      | _ :: found =>
          let dst := dst ++ src.takeWhile (· ≠ ascii '&')
          match found.dropWhile (· ≠ ascii ';') with
          | [] => throw .absentSemicolon
          | _ :: next =>
              let tag := found.takeWhile (· ≠ ascii ';')
              if tag = [] then
                throw .emptySequence
              else do
                let symbol ← decodeTag tag
                decodeLoop fuel next (dst ++ symbol)

def xmlDecode (src : Bytes) : Except Fault Bytes := decodeLoop (src.length + 1) src []

end UnixCommons.String.XmlEncode
