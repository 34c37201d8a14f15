import UnixCommons.String.AsciiStringManip
import UnixCommons.Lib.Bootstring

/-!
# Punycode

`StringManip.cpp` の `punycode_encode` と `punycode_decode`、`Punycode::adapt` の写し。`wchar_t` の値は 32 ビットの符号なしの値で表し、負の値は
`2 ^ 31` 以上である。計算の値が負でない `wchar_t` の範囲を出ることは、`overflow` である。`size_t` の和は `2 ^ 64` に届かないので、
自然数で表す。
-/

namespace UnixCommons.String.Punycode

open Lib AsciiStringManip

inductive Fault
  | overflow
  | divideByZero
  | outOfBounds
  | fuel
  deriving DecidableEq, Repr

def wchar (n : Nat) : Except Fault Nat := if n < 2 ^ 31 then return n else throw .overflow

def decodeTable : List Nat := [
  26, 27, 28, 29, 30, 31, 32, 33, 34, 35, 36, 36, 36, 36, 36,
  36, 36, 0, 1, 2, 3, 4, 5, 6, 7, 8, 9, 10, 11, 12,
  13, 14, 15, 16, 17, 18, 19, 20, 21, 22, 23, 24, 25, 36, 36,
  36, 36, 36, 36, 0, 1, 2, 3, 4, 5, 6, 7, 8, 9, 10,
  11, 12, 13, 14, 15, 16, 17, 18, 19, 20, 21, 22, 23, 24, 25]

def encodeTable : Bytes := List.map ascii [
  'a', 'b', 'c', 'd', 'e', 'f', 'g', 'h', 'i', 'j', 'k', 'l', 'm', 'n', 'o', 'p', 'q', 'r', 's',
    't', 'u', 'v', 'w', 'x', 'y', 'z',
  '0', '1', '2', '3', '4', '5', '6', '7', '8', '9']

def maxWchar : Nat := 2 ^ 31 - 1

/-! ## `adapt` -/

def adaptLoop : Nat → Nat → Nat → Except Fault (Nat × Nat)
  | 0, _, _ => throw .fuel
  | fuel + 1, delta, k => do
      if delta > 455 then
        let k ← wchar (k + 36)
        adaptLoop fuel (delta / 35) k
      else
        return (delta, k)

def adapt (delta numpoints : Nat) (firsttime : Bool) : Except Fault Nat := do
  let delta ← wchar delta
  let numpoints ← wchar numpoints
  let delta := if firsttime then delta / 700 else delta >>> 1
  if numpoints = 0 then
    throw .divideByZero
  else
    let delta ← wchar (delta + delta / numpoints)
    let (delta, k) ← adaptLoop 32 delta 0
    let scaled ← wchar (36 * delta)
    wchar (k + scaled / (delta + 38))

def threshold (k bias : Nat) : Except Fault Nat := do
  if k ≤ bias then
    return 1
  else
    let top ← wchar (bias + 26)
    if k ≥ top then return 26 else return k - bias

/-! ## 符号化 -/

def encodeChar (i : Nat) : Except Fault UInt8 :=
  if i < encodeTable.length then return encodeTable.getD i 0 else throw .outOfBounds

def pushDelta (bias : Nat) : Nat → Nat → Nat → Except Fault Bytes
  | 0, _, _ => throw .fuel
  | fuel + 1, k, q => do
      let t ← threshold k bias
      if q < t then
        let ch ← encodeChar q
        return [ch]
      else
        let ch ← encodeChar (t + (q - t) % (36 - t))
        let k ← wchar (k + 36)
        let rest ← pushDelta bias fuel k ((q - t) / (36 - t))
        return ch :: rest

structure EncodeState where
  output : Bytes
  handled : Nat
  delta : Nat
  bias : Nat
  first : Bool
  deriving DecidableEq, Repr

def scan (notLessThan : Nat) : List Nat → EncodeState → Except Fault EncodeState
  | [], s => return s
  | ch :: input, s =>
      if ch < notLessThan then do
        let delta ← wchar (s.delta + 1)
        scan notLessThan input { s with delta := delta }
      else if ch = notLessThan then do
        let ext ← pushDelta s.bias 32 36 s.delta
        let bias ← adapt s.delta (s.handled + 1) s.first
        scan notLessThan input ⟨s.output ++ ext, s.handled + 1, 0, bias, false⟩
      else
        scan notLessThan input s

/-- `notLessThan` 以上の最も小さい値。 -/
def leastFound (notLessThan : Nat) (input : List Nat) : Nat :=
  input.foldl (fun least ch => if ch ≥ notLessThan ∧ ch < least then ch else least) maxWchar

def encodeLoop (input : List Nat) : Nat → Nat → EncodeState → Except Fault Bytes
  | 0, _, _ => throw .fuel
  | fuel + 1, notLessThan, s => do
      if s.handled < input.length then
        let least := leastFound notLessThan input
        let points ← wchar (s.handled + 1)
        let product ← wchar ((least - notLessThan) * points)
        let delta ← wchar (s.delta + product)
        let s ← scan least input { s with delta := delta }
        let delta ← wchar (s.delta + 1)
        let notLessThan ← wchar (least + 1)
        encodeLoop input fuel notLessThan { s with delta := delta }
      else
        return s.output

/-- 基本の文字を写すループ。 -/
def basicPart : List Nat → Option Bytes
  | [] => some []
  | ch :: input =>
      if ch ≥ 2 ^ 31 then
        none
      else do
        let rest ← basicPart input
        if ch < 0x80 then some (toLower (UInt8.ofNat ch) :: rest) else some rest

def punycodeEncode (input : List Nat) : Except Fault (Option Bytes) :=
  match basicPart input with
  | none => return none
  | some basic => do
      let output := if basic = [] then [] else basic ++ [ascii '-']
      let output ← encodeLoop input (input.length + 1) 0x80 ⟨output, basic.length, 0, 72, true⟩
      return some output

/-! ## 復号 -/

def digitValue (ch : UInt8) : Nat :=
  let digit := charValue ch - 48
  if digit ≥ 0 ∧ digit ≤ 74 then decodeTable.getD digit.toNat 36 else 36

/-- 一つの `delta` を読むループ。`out` と、残りの入力を返す。`none` は `false` を返すことである。 -/
def readDelta (bias : Nat) : Bytes → Nat → Nat → Nat → Except Fault (Option (Nat × Bytes))
  | [], _, _, _ => return none
  | ch :: input, w, k, out =>
      let digit := digitValue ch
      if digit ≥ 36 then
        return none
      else do
        let increment ← wchar (digit * w)
        let out := out + increment
        let t ← threshold k bias
        if digit < t then
          return some (out, input)
        else
          let w ← wchar (w * (36 - t))
          let k ← wchar (k + 36)
          readDelta bias input w k out

/-- `memmove(&l[dst], &l[src], n)`。 -/
def memmove (l : List Nat) (dst src n : Nat) : Except Fault (List Nat) :=
  if dst + n ≤ l.length ∧ src + n ≤ l.length then return l.take dst ++ (l.drop src).take n ++ l.drop (dst + n)
  else throw .outOfBounds

/-- `output[out]` に `decoded` を挿し込む。 -/
def insertAt (output : List Nat) (out decoded : Nat) : Except Fault (List Nat) := do
  let storage ← memmove (output ++ [0]) (out + 1) out (output.length - out)
  let output := storage.take output.length
  if out < output.length then return output.set out decoded else throw .outOfBounds

def decodeLoop : Nat → Bytes → Nat → Nat → Nat → List Nat → Except Fault (Option (List Nat))
  | 0, _, _, _, _, _ => throw .fuel
  | fuel + 1, input, decoded, bias, oldout, output => do
      if input = [] then
        return some output
      else
        match ← readDelta bias input 1 36 oldout with
        | none => return none
        | some (out, input) =>
            let output := output ++ [0]
            let bias ← adapt (out - oldout) output.length (oldout = 0)
            let decoded ← wchar (decoded + out / output.length)
            let out := out % output.length
            let output ← insertAt output out decoded
            decodeLoop fuel input decoded bias (out + 1) output

def rfind (ch : UInt8) : Bytes → Option (Bytes × Bytes)
  | [] => none
  | b :: input =>
      match rfind ch input with
      | some (before, after) => some (b :: before, after)
      | none => if b = ch then some ([], input) else none

def punycodeDecode (input : Bytes) : Except Fault (Option (List Nat)) :=
  match rfind (ascii '-') input with
  | none => decodeLoop (input.length + 1) input 0x80 72 0 []
  | some (basic, rest) =>
      if basic.any (fun b => b.toNat &&& 0x80 ≠ 0) then
        return none
      else
        decodeLoop (rest.length + 1) rest 0x80 72 0 (basic.map UInt8.toNat)

end UnixCommons.String.Punycode

/-!
## Punycode の正確な読み方

`wchar_t` の大きさに限りがないとした時の、桁の列の意味。閾値と補正は自然数の関数である。
-/

namespace UnixCommons.String.Punycode

open Lib AsciiStringManip

/-- `i` 番目の桁の閾値。 -/
def thresholdAt (bias i : Nat) : Nat :=
  if 36 * (i + 1) ≤ bias then 1 else if 36 * (i + 1) ≥ bias + 26 then 26 else 36 * (i + 1) - bias

def scale (delta : Nat) : Nat := if 455 < delta then 36 + scale (delta / 35) else 36 * delta / (delta + 38)
termination_by delta
decreasing_by omega

/-- 整数を読んだ後の `bias`。 -/
def adaptOf (delta numpoints : Nat) (firsttime : Bool) : Nat :=
  let delta := if firsttime then delta / 700 else delta / 2
  scale (delta + delta / numpoints)

/-- 最後の `-` の後の桁の列の読み方。 -/
def textReading (input : Bytes) : Bootstring.Reading :=
  match rfind (ascii '-') input with
  | none => Bootstring.reading 36 thresholdAt adaptOf (input.map digitValue) 0x80 72 0 0
  | some (basic, rest) => Bootstring.reading 36 thresholdAt adaptOf (rest.map digitValue) 0x80 72 0 basic.length

/-- 読み方の値が `wchar_t` に収まる。終わりまで読めた整数はその全体が、読めなかった整数は桁ごとの値が収まる。 -/
structure InRange (r : Bootstring.Reading) : Prop where
  deltas : ∀ delta ∈ r.deltas, delta < 2 ^ 31
  points : ∀ point ∈ r.points, point < 2 ^ 31
  pending : ∀ terms ∈ r.pending, ∀ x ∈ terms, x < 2 ^ 31

/-- 文字列の読み方が、復号の限りの中にある。終わりまで読める文字列は、符号点が Unicode の中にあることだけである。 -/
def Fits (r : Bootstring.Reading) : Prop :=
  match r.pending with
  | none => ∀ point ∈ r.points, point ≤ 0x10FFFF
  | some _ => InRange r

/-- 最後の `-` の前に ASCII でない文字がある。 -/
def HighBasic (input : Bytes) : Prop := ∃ basic rest, rfind (ascii '-') input = some (basic, rest) ∧
    ∃ b ∈ basic, 0x80 ≤ b.toNat

/-- 復号が溢れず、`false` を返すか、Unicode の符号点だけを出力する。 -/
def DecodeSafe (input : Bytes) : Prop := ∃ r, punycodeDecode input = .ok r ∧ ∀ output ∈ r, ∀ ch ∈ output, ch ≤ 0x10FFFF

def lowerCode (ch : Nat) : Nat := if 0x41 ≤ ch ∧ ch ≤ 0x5A then ch + 32 else ch

end UnixCommons.String.Punycode
