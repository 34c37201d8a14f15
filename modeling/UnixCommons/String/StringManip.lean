import Mathlib
import UnixCommons.Generics.ArrayAutoPtr
import UnixCommons.String.AsciiStringManip
import UnixCommons.String.UTF8Handler

/-!
# 文字列の符号化

`StringManip.cpp` の、十六進、URL、CSV、JSON、JavaScript の符号化と復号の写し。
-/

/-!
## 十六進の符号化

`StringManip.cpp` の `hex_encode` と `hex_decode`、`AsciiStringManip.hpp` の `hex_to_buf`、`ArrayAutoPtr.hpp` の配列の大きさの写し。
`ArrayByte` の大きさは 32 ビットの符号なしの値であり、書き込みは、配列の中にあることを確かめてから行う。
-/

namespace UnixCommons.String.HexEncode

open Lib AsciiStringManip
open Generics (arraySize)

/-- `hex_encode` の、二つずつ数字を書くループ。 -/
def encodeLoop : Bytes → Bytes
  | [] => []
  | data :: rest => hexDigits.getD (data.toNat >>> 4) 0 :: hexDigits.getD (data.toNat &&& 0xF) 0 :: encodeLoop rest

def hexEncode (data : Bytes) (skipLeadingZeroes : Bool) : Bytes :=
  if data = [] then
    []
  else if skipLeadingZeroes then
    match data.dropWhile (· = 0) with
    | [] => [ascii '0']
    | ch :: data => if ch.toNat &&& 0xF0 = 0 then hexDigits.getD ch.toNat 0 :: encodeLoop data else encodeLoop (ch :: data)
  else
    encodeLoop data

/-- `InvalidFormatException` と、計算が止まる理由。`outOfBounds` は、配列の外に書くことである。 -/
inductive Fault
  | oddLength
  | assertion
  | outOfBounds
  deriving DecidableEq, Repr

/-- `*buf++ = ch`。 -/
def put (capacity : Nat) (buf : Bytes) (ch : UInt8) : Except Fault Bytes :=
  if buf.length < capacity then return buf ++ [ch] else throw .outOfBounds

def hexToBufLoop (capacity : Nat) : Bytes → Bytes → Except Fault Bytes
  | [], buf => return buf
  | [_], buf => return buf
  | major :: minor :: data, buf => do
      let buf ← put capacity buf (hexToChar major minor)
      hexToBufLoop capacity data buf

def hexToBuf (capacity : Nat) (data buf : Bytes) : Except Fault Bytes :=
  if data.length % 2 ≠ 0 then throw .assertion else hexToBufLoop capacity data buf

def hexDecode (src : Bytes) (allowOddString : Bool) : Except Fault (Nat × Bytes) :=
  let oddString := src.length % 2 ≠ 0
  if oddString ∧ ¬ allowOddString then
    throw .oddLength
  else do
    let size := (src.length + 1) / 2
    let capacity := arraySize size
    let buf ← if oddString then put capacity [] (UInt8.ofNat (hexToInt (src.headD 0))) else pure []
    let buf ← hexToBuf capacity (if oddString then src.tail else src) buf
    return (size, buf)

end UnixCommons.String.HexEncode

/-!
## URL の符号化

`StringManip.cpp` の `mime_url_encode` と、二つの `mime_url_decode` の写し。写しを作る版は読み残したバイトの並びで、その場で書き換える
版は一つの緩衝域と二つの位置で表す。
-/

namespace UnixCommons.String.MimeUrl

open Lib AsciiStringManip

def mime : Bytes := charCategory ['A', '-', 'Z', 'a', '-', 'z', '0', '-', '9', '_', '*', '.', ',', '-']

/-- 符号化のループ。 -/
def encodeLoop (cur : Bytes) : Bytes :=
  let run := cur.takeWhile (isOwned mime)
  match h : cur.dropWhile (isOwned mime) with
  | [] => run
  | ch :: rest =>
      have : rest.length < cur.length := by
        have hlen := (List.dropWhile_sublist (l := cur) (isOwned mime)).length_le
        rw [h, List.length_cons] at hlen
        omega
      if ch = ascii ' ' then
        run ++ ascii '+' :: encodeLoop rest
      else
        run ++ ascii '%' :: hexDigits.getD ((ch.toNat >>> 4) &&& 0x0F) 0 :: hexDigits.getD
          (ch.toNat &&& 0x0F) 0 :: encodeLoop rest
termination_by cur.length

def mimeUrlEncode (src : Bytes) : Bytes := encodeLoop src

/-- `InvalidFormatException`。 -/
inductive Fault
  | brokenEncoding
  deriving DecidableEq, Repr

/-- 写しを作る `mime_url_decode` のループ。 -/
def decodeLoop (strict : Bool) : Bytes → Bytes → Except Fault Bytes
  | [], dst => return dst
  | ch :: cur, dst =>
      if ch = ascii '+' then
        decodeLoop strict cur (dst ++ [ascii ' '])
      else if ch = ascii '%' then
        if cur.length < 2 ∨ ¬ isOwned hexNumber (cur.getD 0 0) ∨ ¬ isOwned hexNumber (cur.getD 1 0) then
          if strict then throw .brokenEncoding else decodeLoop strict cur (dst ++ [ch])
        else
          decodeLoop strict (cur.drop 2) (dst ++ [hexToChar (cur.getD 0 0) (cur.getD 1 0)])
      else
        decodeLoop strict cur (dst ++ [ch])
termination_by cur => cur.length

def mimeUrlDecode (src : Bytes) (strict : Bool) : Except Fault Bytes := decodeLoop strict src []

/-- その場で書き換える `mime_url_decode` のループ。`dest` と `src` は `text` の中の位置、`size` は残りの数である。 -/
def inPlaceLoop (text : Bytes) (dest src size : Nat) : Except Fault (Bytes × Nat) :=
  if h : size = 0 then
    return (text, dest)
  else
    let size' := size - 1
    if text.getD src 0 = ascii '+' then
      inPlaceLoop (text.set dest (ascii ' ')) (dest + 1) (src + 1) size'
    else if text.getD src 0 = ascii '%' then
      if size' < 2 ∨ ¬ isOwned hexNumber (text.getD (src + 1) 0) ∨ ¬ isOwned hexNumber (text.getD (src + 2) 0) then
        throw .brokenEncoding
      else
        inPlaceLoop (text.set dest (hexToChar (text.getD (src + 1) 0) (text.getD (src + 2) 0)))
          (dest + 1) (src + 3) (size' - 2)
    else
      inPlaceLoop (text.set dest (text.getD src 0)) (dest + 1) (src + 1) size'
termination_by size

def mimeUrlDecodeInPlace (text : Bytes) : Except Fault Bytes :=
  if text.length = 0 then
    return text
  else do
    let (text, dest) ← inPlaceLoop text 0 0 text.length
    return text.take dest

end UnixCommons.String.MimeUrl

/-!
## CSV の符号化

`StringManip.cpp` の `csv_encode` の写し。
-/

namespace UnixCommons.String.CsvEncode

open Lib AsciiStringManip UTF8Handler

def cNonCsv : Bytes := charCategory [',', '"', '\n', '\r']

def pcNonCsv : Bytes := charCategory [';', '"', '\n', '\r']

def nonCsvChars (separator : UInt8) : Bytes := [separator, ascii '"', ascii '\n', ascii '\r', 0]

/-- `non_csv`。二つの区切りのほかは、NUL の前の文字から集合を作る。 -/
def nonCsv (separator : UInt8) : Bytes :=
  if separator = ascii ',' then cNonCsv
  else if separator = ascii ';' then pcNonCsv
  else charTable 0 ((nonCsvChars separator).takeWhile (· ≠ 0))

/-- 引用符を重ねるループ。`run` は、まだ写していない `src` から `ptr` までである。 -/
def quoteLoop (run dest : Bytes) : Bytes → Bytes
  | [] => if run ≠ [] then dest ++ run else dest
  | ch :: ptr =>
      if ch = ascii '"' then quoteLoop [] (dest ++ run ++ List.replicate 2 (ascii '"')) ptr
        else quoteLoop (run ++ [ch]) dest ptr

def csvEncode (src : Option CString) (separator : UInt8) : Bytes :=
  match src with
  | none => []
  | some src =>
      if ¬ src.bytes.any (isOwned (nonCsv separator)) then src.bytes
      else quoteLoop [] [ascii '"'] src.bytes ++ [ascii '"']

end UnixCommons.String.CsvEncode

/-!
## JSON と JavaScript の文字列の符号化

`StringManip.cpp` の `json_escape` と `js_encode` の写し。ループは、写していないバイト `run` と、調べている所から後のバイトで表す。
-/

namespace UnixCommons.String.JsEncode

open Lib AsciiStringManip UTF8Handler

def nonJs : Bytes := charCategoryZero ['\\', '"', '\'', '/', '\n', '\r', '<', '>', Char.ofNat 0xE2]

def nonJson : Bytes := charCategoryZero ['\\', '"', '\n', '\r', Char.ofNat 0x01, '-', Char.ofNat 0x1F]

def repl : List Bytes := List.map (List.map ascii) [
  ['\\', 'u', '0', '0', '0', '0'], ['\\', 'u', '0', '0', '0', '1'], ['\\', 'u', '0', '0', '0', '2'],
  ['\\', 'u', '0', '0', '0', '3'],
  ['\\', 'u', '0', '0', '0', '4'], ['\\', 'u', '0', '0', '0', '5'], ['\\', 'u', '0', '0', '0', '6'],
  ['\\', 'u', '0', '0', '0', '7'],
  ['\\', 'b'], ['\\', 't'], ['\\', 'n'], ['\\', 'u', '0', '0', '0', 'B'], ['\\', 'f'], ['\\', 'r'],
  ['\\', 'u', '0', '0', '0', 'E'],
  ['\\', 'u', '0', '0', '0', 'F'], ['\\', 'u', '0', '0', '1', '0'], ['\\', 'u', '0', '0', '1', '1'],
  ['\\', 'u', '0', '0', '1', '2'],
  ['\\', 'u', '0', '0', '1', '3'], ['\\', 'u', '0', '0', '1', '4'], ['\\', 'u', '0', '0', '1', '5'],
  ['\\', 'u', '0', '0', '1', '6'],
  ['\\', 'u', '0', '0', '1', '7'], ['\\', 'u', '0', '0', '1', '8'], ['\\', 'u', '0', '0', '1', '9'],
  ['\\', 'u', '0', '0', '1', 'A'],
  ['\\', 'u', '0', '0', '1', 'B'], ['\\', 'u', '0', '0', '1', 'C'], ['\\', 'u', '0', '0', '1', 'D'],
  ['\\', 'u', '0', '0', '1', 'E'], ['\\', 'u', '0', '0', '1', 'F'], [], [], ['\\', '"']]

/-- `json_escape` のループ。`run` は `cur` から `ptr` までである。`none` は、表の外を読むことである。 -/
def jsonLoop (run dest : Bytes) : Bytes → Option Bytes
  | [] => some (dest ++ run)
  | ch :: ptr =>
      if ¬ isOwned nonJson ch then
        jsonLoop (run ++ [ch]) dest ptr
      else if ch = ascii '\\' then
        jsonLoop [] (dest ++ run ++ ['\\', '\\'].map ascii) ptr
      else
        match repl[ch.toNat]? with
        | some text => jsonLoop [] (dest ++ run ++ text) ptr
        | none => none

def jsonEscape (src : Bytes) : Option Bytes := jsonLoop [] [] src

def u2028 : Bytes := ['\\', 'u', '2', '0', '2', '8'].map ascii

def u2029 : Bytes := ['\\', 'u', '2', '0', '2', '9'].map ascii

/-- `js_encode` のループ。`run` は `src` から `ptr` までで、`from` の前の `0xE2` を含むことがある。並びの終わりは NUL である。 -/
def jsLoop (run dst : Bytes) : Bytes → Bytes
  | [] => dst ++ run
  | ch :: ptr =>
      if ¬ isOwned nonJs ch then
        jsLoop (run ++ [ch]) dst ptr
      else if ch = 0xE2 then
        match ptr with
        | c₁ :: c₂ :: ptr =>
            if c₁ = 0x80 ∧ c₂ = 0xA9 then jsLoop [] (dst ++ run ++ u2029) ptr
            else if c₁ = 0x80 ∧ c₂ = 0xA8 then jsLoop [] (dst ++ run ++ u2028) ptr
            else jsLoop [ch] (dst ++ run) (c₁ :: c₂ :: ptr)
        | ptr => jsLoop [ch] (dst ++ run) ptr
      else
        jsLoop [] (dst ++ run ++
          [ascii '\\', ascii 'x', hexDigits.getD ((ch.toNat >>> 4) &&& 0x0F) 0, hexDigits.getD (ch.toNat &&& 0x0F) 0]) ptr

def jsEncode (src : CString) : Bytes := jsLoop [] [] src.bytes

end UnixCommons.String.JsEncode

/-!
## JavaScript の文字の表し方

`StringManip.cpp` の `js_unicode_encode` と `js_unicode_decode` の写し。符号化の `src` は NUL の前のバイトで、復号の位置は読み残したバイトの
並びで表す。
-/

namespace UnixCommons.String.JsUnicode

open Lib AsciiStringManip UTF8Handler

/-- `InvalidFormatException` の四つの場合と、計算が止まる理由。 -/
inductive Fault
  | nonUnicode
  | invalidSymbol
  | unpairedSurrogate
  | brokenEncoding
  | pastNul
  | outOfBounds
  | fuel
  deriving DecidableEq, Repr

def alphaNum : Bytes := charCategory ['A', '-', 'Z', 'a', '-', 'z'] ++ charCategory ['0', '-', '9']

def addUnicodeSymbol (dest : Nat) : Bytes :=
  [ascii '\\', ascii 'u', hexDigits.getD ((dest >>> 12) &&& 0x0F) 0, hexDigits.getD ((dest >>> 8) &&& 0x0F) 0,
    hexDigits.getD ((dest >>> 4) &&& 0x0F) 0, hexDigits.getD (dest &&& 0x0F) 0]

def addSymbol (dest : Nat) : Bytes :=
  if dest < 0x10000 then addUnicodeSymbol dest
  else addUnicodeSymbol (0xD7C0 + (dest >>> 10)) ++ addUnicodeSymbol (0xDC00 + (dest &&& 0x3FF))

def encodeLoop : Nat → Bytes → Bytes → Except Fault Bytes
  | 0, _, _ => throw .fuel
  | fuel + 1, src, dst =>
      let dst := dst ++ src.takeWhile (isOwned alphaNum)
      match src.dropWhile (isOwned alphaNum) with
      | [] => return dst
      | ch :: ptr =>
          let octetsCount := getOctetCount ch.toNat
          if octetsCount = 0 then
            throw .nonUnicode
          else
            let dest := (utf8CharToWchar (ch :: ptr) octetsCount).2
            if octetsCount ≤ (ch :: ptr).length then
              encodeLoop fuel ((ch :: ptr).drop octetsCount) (dst ++ addSymbol dest)
            else
              throw .pastNul

def jsUnicodeEncode (src : Bytes) : Except Fault Bytes := if src = [] then return [] else encodeLoop (src.length + 1) src []

def addWchar (dst : Bytes) (ch : Nat) (strict : Bool) : Except Fault Bytes :=
  match wcharToUtf8Char ch with
  | some buf => return dst ++ buf
  | none => if strict then throw .invalidSymbol else return dst

def addSurrogate (surrogate : Nat) (dest : Bytes) (strict : Bool) : Except Fault Bytes :=
  if strict then throw .unpairedSurrogate else addWchar dest surrogate strict

def hexValue (digits : Bytes) : Nat := digits.foldl (fun ch digit => (ch <<< 4) ||| hexToInt digit) 0

/-- 二つの代用符号の値。 -/
def joinSurrogates (lastSurrogate ch : Nat) : Nat :=
  (((lastSurrogate + 2 ^ 32 - 0xD7C0) % 2 ^ 32) <<< 10) % 2 ^ 32 ||| (ch - 0xDC00)

/-- 復号のループ。`lastSurrogate` が 0 であることは、待っている代用符号がないことである。 -/
def decodeLoop (strict : Bool) (special : UInt8) : Bytes → Nat → Bytes → Except Fault Bytes
  | [], lastSurrogate, dest => if lastSurrogate ≠ 0 then addSurrogate lastSurrogate dest strict else return dest
  | ch :: src, lastSurrogate, dest =>
      if ch = special ∧ (ch :: src).length ≥ 5 ∧ src.headD 0 = ascii 'u' then
        match src with
        | _ :: d₁ :: d₂ :: d₃ :: d₄ :: src =>
            let ch := hexValue [d₁, d₂, d₃, d₄]
            if lastSurrogate ≠ 0 then
              if ch ≥ 0xDC00 ∧ ch < 0xE000 then do
                let dest ← addWchar dest (joinSurrogates lastSurrogate ch) strict
                decodeLoop strict special src 0 dest
              else do
                let dest ← addSurrogate lastSurrogate dest strict
                let dest ← addWchar dest ch strict
                decodeLoop strict special src 0 dest
            else if ch ≥ 0xD700 ∧ ch < 0xDC00 then
              decodeLoop strict special src ch dest
            else if ch ≥ 0xDC00 ∧ ch < 0xE000 then do
              let dest ← addSurrogate ch dest strict
              decodeLoop strict special src 0 dest
            else do
              let dest ← addWchar dest ch strict
              decodeLoop strict special src 0 dest
        -- `src.size() - i` が 5 であれば、`src[i + 5]` は文字列の後を読む。
        | _ => throw .outOfBounds
      else if ch = special ∧ strict then
        throw .brokenEncoding
      else do
        let dest ← if lastSurrogate ≠ 0 then addSurrogate lastSurrogate dest strict else pure dest
        decodeLoop strict special src 0 (dest ++ [ch])

/-- `dest` の始めの中身の後に加える。 -/
def jsUnicodeDecode (src dest : Bytes) (strict : Bool) (special : UInt8) : Except Fault Bytes :=
  decodeLoop strict special src 0 dest

end UnixCommons.String.JsUnicode

/-!
## base64

`StringManip.cpp` の `base64_encode`、`base64mod_encode`、`base64mod_decode` と、`StringManip.ipp` の大きさの計算の写し。`unsigned char` の
値は自然数で表し、入力の文字列は読み残したバイトの並びで表す。
-/

namespace UnixCommons.String.Base64

open Lib AsciiStringManip

def stdEncodeTable : Bytes := List.map ascii [
  'A', 'B', 'C', 'D', 'E', 'F', 'G', 'H', 'I', 'J', 'K', 'L', 'M', 'N', 'O', 'P',
  'Q', 'R', 'S', 'T', 'U', 'V', 'W', 'X', 'Y', 'Z', 'a', 'b', 'c', 'd', 'e', 'f',
  'g', 'h', 'i', 'j', 'k', 'l', 'm', 'n', 'o', 'p', 'q', 'r', 's', 't', 'u', 'v',
  'w', 'x', 'y', 'z', '0', '1', '2', '3', '4', '5', '6', '7', '8', '9', '+', '/']

def modEncodeTable : Bytes := List.map ascii [
  'A', 'B', 'C', 'D', 'E', 'F', 'G', 'H', 'I', 'J', 'K', 'L', 'M', 'N', 'O', 'P',
  'Q', 'R', 'S', 'T', 'U', 'V', 'W', 'X', 'Y', 'Z', 'a', 'b', 'c', 'd', 'e', 'f',
  'g', 'h', 'i', 'j', 'k', 'l', 'm', 'n', 'o', 'p', 'q', 'r', 's', 't', 'u', 'v',
  'w', 'x', 'y', 'z', '0', '1', '2', '3', '4', '5', '6', '7', '8', '9', '-', '_']

def modPadding : UInt8 := ascii '.'

def stdEncode (ch : Nat) : UInt8 := stdEncodeTable.getD (ch &&& 0o77) 0

def modEncode (ch : Nat) : UInt8 := modEncodeTable.getD (ch &&& 0o77) 0

def decodeTable : List Nat := [
  0o100, 0o177, 0o177, 0o177, 0o177, 0o177, 0o177, 0o177, 0o177, 0o177, 0o177, 0o177, 0o177, 0o177, 0o177, 0o177,
  0o177, 0o177, 0o177, 0o177, 0o177, 0o177, 0o177, 0o177, 0o177, 0o177, 0o177, 0o177, 0o177, 0o177, 0o177, 0o177,
  0o177, 0o177, 0o177, 0o177, 0o177, 0o177, 0o177, 0o177, 0o177, 0o177, 0o177, 0o076, 0o177, 0o076, 0o100, 0o077,
  0o064, 0o065, 0o066, 0o067, 0o070, 0o071, 0o072, 0o073, 0o074, 0o075, 0o177, 0o177, 0o177, 0o177, 0o177, 0o177,
  0o177, 0o000, 0o001, 0o002, 0o003, 0o004, 0o005, 0o006, 0o007, 0o010, 0o011, 0o012, 0o013, 0o014, 0o015, 0o016,
  0o017, 0o020, 0o021, 0o022, 0o023, 0o024, 0o025, 0o026, 0o027, 0o030, 0o031, 0o177, 0o177, 0o177, 0o177, 0o077,
  0o177, 0o032, 0o033, 0o034, 0o035, 0o036, 0o037, 0o040, 0o041, 0o042, 0o043, 0o044, 0o045, 0o046, 0o047, 0o050,
  0o051, 0o052, 0o053, 0o054, 0o055, 0o056, 0o057, 0o060, 0o061, 0o062, 0o063, 0o177, 0o100, 0o177, 0o177, 0o177] ++
  List.replicate 128 0o177

def funcEncode (padding : Bool) (encode : Nat → UInt8) (pad : UInt8) (fill : Nat) : Bytes → Bytes
  | [] => []
  | [c1] =>
      let buf := [encode (c1.toNat >>> 2), encode (((c1.toNat <<< 4) &&& 0o60) ||| (fill &&& 0x0F)), pad, pad]
      if padding then buf else buf.take 2
  | [c1, c2] =>
      let buf := [encode (c1.toNat >>> 2), encode (((c1.toNat <<< 4) &&& 0o60) ||| ((c2.toNat >>> 4) &&& 0o17)),
        encode (((c2.toNat <<< 2) &&& 0o74) ||| (fill &&& 0x03)), pad]
      if padding then buf else buf.take 3
  | p0 :: p1 :: p2 :: p =>
      [encode (p0.toNat >>> 2), encode (((p0.toNat <<< 4) &&& 0o60) ||| ((p1.toNat >>> 4) &&& 0o17)),
        encode (((p1.toNat <<< 2) &&& 0o74) ||| ((p2.toNat >>> 6) &&& 0o3)),
        encode (p2.toNat &&& 0o77)] ++ funcEncode padding encode pad fill p

def base64Encode (src : Bytes) (padding : Bool) : Bytes := funcEncode padding stdEncode (ascii '=') 0 src

def base64modEncode (src : Bytes) (padding : Bool) (fill : UInt8) : Bytes :=
  funcEncode padding modEncode modPadding fill.toNat src

def base64modEncodedSize (originalSize : Nat) (padding : Bool) : Nat :=
  if padding then (originalSize + 2) / 3 * 4
  else originalSize / 3 * 4 + if originalSize % 3 ≠ 0 then originalSize % 3 + 1 else 0

def base64modFillSize (originalSize : Nat) : Nat := (8 >>> (originalSize % 3)) &&& 6

/-- `InvalidFormatException` の三つの場合。`fuel` はループが終わらないことである。 -/
inductive Fault
  | unexpectedSymbol
  | unexpectedEnd
  | paddingExpected
  | fuel
  deriving DecidableEq, Repr

/-- `Iterator`。`length_` は `ptr` の長さであり、`offset` は `ptr_ - src` である。 -/
structure Iterator where
  ptr : Bytes
  offset : Nat
  deriving DecidableEq, Repr

def Iterator.get (p : Iterator) : Nat := decodeTable.getD (p.ptr.headD 0).toNat 0

def Iterator.next (p : Iterator) : Iterator := ⟨p.ptr.tail, p.offset + 1⟩

def skipBlanks : Bytes → Nat → Nat × Iterator
  | [], offset => (Iterator.get ⟨[], offset⟩, ⟨[], offset⟩)
  | b :: ptr, offset =>
      let ch := Iterator.get ⟨b :: ptr, offset⟩
      if ch = 0o177 then skipBlanks ptr (offset + 1) else (ch, ⟨b :: ptr, offset⟩)

def strncmpEq : Nat → Bytes → Bytes → Bool
  | 0, _, _ => true
  | n + 1, a, b => a.headD 0 = b.headD 0 ∧ (a.headD 0 = 0 ∨ strncmpEq n a.tail b.tail)

def Iterator.checkPadding (p : Iterator) : Except Fault Unit :=
  let length := p.ptr.length
  let padSize := (4 - p.offset % 4) % 4
  if (length ≠ padSize ∧ length ≠ padSize + 4) ∨
      (¬ strncmpEq length p.ptr (List.replicate 6 (ascii '.')) ∧ ¬ strncmpEq length p.ptr (List.replicate 6 (ascii '|')) ∧
        ¬ strncmpEq length p.ptr (List.replicate 6 (ascii '='))) then
    throw .paddingExpected
  else
    return ()

/-- 余ったビットの検査。`fill` は、ポインタが与えられたかどうかである。 -/
def leftBits (fill : Bool) (left : Nat) : Except Fault (Option Nat) :=
  if fill then return some left else if left ≠ 0 then throw .unexpectedEnd else return none

/-- `base64mod_decode` のループ。 -/
def decodeLoop (fill : Bool) : Nat → Iterator → Bytes → Except Fault (Bytes × Option Nat × Iterator)
  | 0, _, _ => throw .fuel
  | fuel + 1, p, dst =>
      if p.ptr = [] then
        return (dst, none, p)
      else
        let (c1, p) := skipBlanks p.ptr p.offset
        if c1 = 0o100 then
          return (dst, none, p)
        else
          let p := p.next
          let (c2, p) := skipBlanks p.ptr p.offset
          if c2 = 0o100 then
            throw .unexpectedSymbol
          else
            let p := p.next
            let (c3, p) := skipBlanks p.ptr p.offset
            if c3 = 0o100 then do
              let left ← leftBits fill (c2 &&& 0x0F)
              return (dst ++ [convert (c1 <<< 2 ||| c2 >>> 4)], left, p)
            else
              let p := p.next
              let (c4, p) := skipBlanks p.ptr p.offset
              let dst := dst ++ [convert (c1 <<< 2 ||| c2 >>> 4), convert (c2 <<< 4 ||| c3 >>> 2)]
              if c4 = 0o100 then do
                let left ← leftBits fill (c3 &&& 0x03)
                return (dst, left, p)
              else
                decodeLoop fill fuel p.next (dst ++ [convert (c3 <<< 6 ||| c4)])

def base64modDecode (src : Bytes) (padding fill : Bool) : Except Fault (Bytes × Option Nat) := do
  let (dst, left, p) ← decodeLoop fill (src.length + 1) ⟨src, 0⟩ []
  if padding ∨ p.ptr ≠ [] then
    p.checkPadding
    return (dst, left)
  else
    return (dst, left)

end UnixCommons.String.Base64
