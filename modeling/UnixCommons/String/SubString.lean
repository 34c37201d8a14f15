import UnixCommons.Lib.Search
import UnixCommons.String.UTF8Handler

/-!
# 部分文字列

`SubStringFind.tpp` の六つの検索と `SubString.tpp` の比較の写しと、比べる相手の `std::string` の検索。
-/

namespace UnixCommons.String

structure SubString where
  bytes : Lib.Bytes
  size_lt : bytes.length < 2 ^ 63

namespace SubString

/-! ## 部分文字列の中の検索

`SubStringFind.tpp` の六つの検索の写し。`size_t` の値は `2 ^ 64` より小さい自然数で表す。ポインタは始まりからの位置で表し、指す先を読むことは、
範囲の外では止まる。
-/

section

open Lib UTF8Handler

/-- 計算が止まる理由。`invalidRange` は、終わりより後から始まる範囲を渡すこと、`undefined` は、定義のない関数を呼ぶことである。 -/
inductive Fault
  | outside
  | invalidRange
  | undefined
  deriving DecidableEq, Repr

def npos : Nat := 2 ^ 64 - 1

/-! ## 文字の操作 -/

def charAt (bytes : Bytes) (i : Nat) : Except Fault UInt8 :=
  if i < bytes.length then return bytes.getD i 0 else throw .outside

/-- `Traits::find(ptr + begin, count, ch)`。 -/
def traitsFind (bytes : Bytes) (first count : Nat) (ch : UInt8) : Except Fault (Option Nat) :=
  if first + count ≤ bytes.length then return lowest (fun x => first ≤ x ∧ bytes.getD x 0 = ch) (first + count)
  else throw .outside

/-- `Traits::compare(ptr + begin, str, str.length_)` が 0 である。 -/
def traitsEqual (bytes : Bytes) (first : Nat) (str : Bytes) : Except Fault Bool :=
  if first + str.length ≤ bytes.length then return (bytes.drop first).take str.length = str else throw .outside

/-- `std::search(ptr + first, ptr + length, str)`。 -/
def stdSearch (bytes : Bytes) (first : Nat) (str : Bytes) : Except Fault Nat :=
  if first ≤ bytes.length then
    return (lowest (fun x => first ≤ x ∧ (bytes.drop x).take str.length = str) bytes.length).getD bytes.length
  else
    throw .invalidRange

/-- `Traits::length`。NUL の前の長さである。`bytes` は、読むことのできる文字である。 -/
def traitsLength (bytes : Bytes) : Except Fault Nat :=
  if 0 ∈ bytes then return (bytes.takeWhile (· ≠ 0)).length else throw .outside

def getAvailableLength (length pos count : Nat) : Nat := min count ((length + 2 ^ 64 - pos) % 2 ^ 64)

/-! ## ループ -/

def forwardLoop (test : Nat → Except Fault Bool) (length : Nat) : Nat → Nat → Except Fault Nat
  | 0, _ => return npos
  | fuel + 1, pos => do
      if pos < length then
        if ← test pos then return pos else forwardLoop test length fuel (pos + 1)
      else
        return npos

def backwardLoop (test : Nat → Except Fault Bool) : Nat → Except Fault Nat
  | 0 => do if ← test 0 then return 0 else return npos
  | pos + 1 => do if ← test (pos + 1) then return pos + 1 else backwardLoop test pos

/-- `begin_[pos]` が `str` の中にある。 -/
def isOneOf (bytes str : Bytes) (pos : Nat) : Except Fault Bool := do
  let ch ← charAt bytes pos
  return (← traitsFind str 0 str.length ch).isSome

def isNotOneOf (bytes str : Bytes) (pos : Nat) : Except Fault Bool := do return !(← isOneOf bytes str pos)

/-! ## `find` と `rfind` -/

def findChar (bytes : Bytes) (ch : UInt8) (pos : Nat) : Except Fault Nat := do
  if pos < bytes.length then
    match ← traitsFind bytes pos (bytes.length - pos) ch with
    | some ptr => return ptr
    | none => return npos
  else
    return npos

def find (bytes str : Bytes) (pos : Nat) : Except Fault Nat := do
  if str.length = 0 then
    if pos ≥ bytes.length then return npos else return 0
  else
    let length := getAvailableLength bytes.length pos bytes.length
    if str.length > length then
      return npos
    else
      let found ← stdSearch bytes pos str
      if found ≠ bytes.length then return found else return npos

def rfindChar (bytes : Bytes) (ch : UInt8) (pos : Nat) : Except Fault Nat :=
  if bytes.length ≠ 0 then
    backwardLoop (fun last => do return (← charAt bytes last) = ch) (min (bytes.length - 1) pos)
  else
    return npos

def rfind (bytes str : Bytes) (pos : Nat) : Except Fault Nat :=
  if str.length > bytes.length then
    return npos
  else
    let pos := if pos > bytes.length then bytes.length else pos
    if str.length = 0 then
      return pos
    else
      let pos := if pos > bytes.length - str.length then bytes.length - str.length else pos
      backwardLoop (fun data => traitsEqual bytes data str) pos

/-! ## `find_first_of` と `find_first_not_of` -/

def findFirstOfChar (bytes : Bytes) (ch : UInt8) (pos : Nat) : Except Fault Nat := findChar bytes ch pos

def findFirstOf (bytes str : Bytes) (pos : Nat) : Except Fault Nat :=
  forwardLoop (isOneOf bytes str) bytes.length (bytes.length + 1) pos

def findFirstNotOfChar (bytes : Bytes) (ch : UInt8) (pos : Nat) : Except Fault Nat :=
  forwardLoop (fun pos => do return (← charAt bytes pos) ≠ ch) bytes.length (bytes.length + 1) pos

def findFirstNotOf (bytes str : Bytes) (pos : Nat) : Except Fault Nat :=
  forwardLoop (isNotOneOf bytes str) bytes.length (bytes.length + 1) pos

/-! ## `find_last_of` と `find_last_not_of` -/

def findLastOfChar (bytes : Bytes) (ch : UInt8) (pos : Nat) : Except Fault Nat := rfindChar bytes ch pos

/-- `find_last_of` と `find_last_not_of` の形。 -/
def findLast (test : Nat → Except Fault Bool) (bytes str : Bytes) (pos : Nat) : Except Fault Nat :=
  if bytes.length ≠ 0 ∧ str.length ≠ 0 then
    backwardLoop test (if pos ≥ bytes.length then bytes.length - 1 else pos)
  else
    return npos

def findLastOf (bytes str : Bytes) (pos : Nat) : Except Fault Nat := findLast (isOneOf bytes str) bytes str pos

def findLastNotOfChar (_ : Bytes) (_ : UInt8) (_ : Nat) : Except Fault Nat := throw .undefined

def findLastNotOf (bytes str : Bytes) (pos : Nat) : Except Fault Nat := findLast (isNotOneOf bytes str) bytes str pos

/-! ## 呼び出し -/

inductive Function
  | find
  | rfind
  | findFirstOf
  | findFirstNotOf
  | findLastOf
  | findLastNotOf
  deriving DecidableEq, Repr

/-- 探す物の渡し方。`counted` は、ポインタと、指す先の文字の数である。 -/
inductive Argument
  | char (ch : UInt8)
  | str (t : Bytes)
  | pointer (t : CString)
  | counted (ptr : Bytes) (count : UInt64) (h : count.toNat ≤ ptr.length)

structure Call where
  function : Function
  argument : Argument
  pos : UInt64

def searchChar (f : Function) (bytes : Bytes) (ch : UInt8) (pos : Nat) : Except Fault Nat :=
  match f with
  | .find => findChar bytes ch pos
  | .rfind => rfindChar bytes ch pos
  | .findFirstOf => findFirstOfChar bytes ch pos
  | .findFirstNotOf => findFirstNotOfChar bytes ch pos
  | .findLastOf => findLastOfChar bytes ch pos
  | .findLastNotOf => findLastNotOfChar bytes ch pos

/-- `BasicSubString` を受ける版。 -/
def search (f : Function) (bytes str : Bytes) (pos : Nat) : Except Fault Nat :=
  match f with
  | .find => find bytes str pos
  | .rfind => rfind bytes str pos
  | .findFirstOf => findFirstOf bytes str pos
  | .findFirstNotOf => findFirstNotOf bytes str pos
  | .findLastOf => findLastOf bytes str pos
  | .findLastNotOf => findLastNotOf bytes str pos

def ofPointer (readable : Bytes) : Except Fault Bytes := do return readable.take (← traitsLength readable)

/-- ポインタと文字の数を受ける版。読むことのできるのは、始めの `count` 文字である。 -/
def searchCounted (f : Function) (bytes readable : Bytes) (pos : Nat) : Except Fault Nat :=
  match f with
  -- `rfind` は `count` を渡さずに `BasicSubString(ptr)` を作る。
  | .rfind => do rfind bytes (← ofPointer readable) pos
  | f => search f bytes readable pos

def Call.run (c : Call) (s : SubString) : Except Fault Nat :=
  match c.argument with
  | .char ch => searchChar c.function s.bytes ch c.pos.toNat
  | .str t => search c.function s.bytes t c.pos.toNat
  | .pointer t => do search c.function s.bytes (← ofPointer (t.bytes ++ [0])) c.pos.toNat
  | .counted ptr count _ => searchCounted c.function s.bytes (ptr.take count.toNat) c.pos.toNat

end

/-! ## 比較

`compare` の、`BasicSubString` を受ける版とポインタを受ける版の写し。ポインタは、指す先から読むことのできる文字で表す。文字の順序は、
`char_traits<char>` の、符号のない値の順序である。
-/

section

open Lib UTF8Handler

def readChar : Bytes → Except Fault (UInt8 × Bytes)
  | [] => throw .outside
  | ch :: str => return (ch, str)

/-- `Traits::compare(str1, str2, size)`。 -/
def traitsCompare : Nat → Bytes → Bytes → Except Fault Int
  | 0, _, _ => return 0
  | size + 1, str1, str2 => do
      let (ch1, str1) ← readChar str1
      let (ch2, str2) ← readChar str2
      if ch1 ≠ ch2 then return if ch1 < ch2 then -1 else 1 else traitsCompare size str1 str2

/-- `BasicSubString` を受ける版。 -/
def compare (bytes str : Bytes) : Except Fault Int := do
  let result ← traitsCompare (min bytes.length str.length) bytes str
  if result ≠ 0 then
    return result
  else
    return if bytes.length = str.length then 0 else if bytes.length < str.length then -1 else 1

def comparePointer : Bytes → Bytes → Except Fault Int
  | [], str => do
      let (ch, _) ← readChar str
      return if ch = 0 then 0 else -1
  | ch2 :: ptr, str => do
      let (ch, str) ← readChar str
      if ch = 0 then
        return -1
      else if ch2 ≠ ch then
        return if ch2 < ch then -1 else 1
      else
        comparePointer ptr str

def orderSign (s t : Bytes) : Int := if s < t then -1 else if s = t then 0 else 1

end

/-! ## `std::string` の検索

C++ の規格の、`std::string` の検索の値。位置の範囲と、そこで成り立つ条件によって、最初または最後の位置を定める。
-/

section

open Lib

def occursAt (s t : Bytes) (x : Nat) : Bool := x + t.length ≤ s.length ∧ (s.drop x).take t.length = t

/-- `x` の文字が `t` の中にある。 -/
def charIn (s t : Bytes) (x : Nat) : Bool := t.contains (s.getD x 0)

def stdValue (f : Function) (s t : Bytes) (pos : Nat) : Nat :=
  match f with
  | .find => (lowest (fun x => pos ≤ x ∧ occursAt s t x) (s.length + 1)).getD npos
  | .rfind => (highest (fun x => x ≤ pos ∧ occursAt s t x) (s.length + 1)).getD npos
  | .findFirstOf => (lowest (fun x => pos ≤ x ∧ charIn s t x) s.length).getD npos
  | .findFirstNotOf => (lowest (fun x => pos ≤ x ∧ ¬ charIn s t x) s.length).getD npos
  | .findLastOf => (highest (fun x => x ≤ pos ∧ charIn s t x) s.length).getD npos
  | .findLastNotOf => (highest (fun x => x ≤ pos ∧ ¬ charIn s t x) s.length).getD npos

def Argument.needle : Argument → Bytes
  | .char ch => [ch]
  | .str t => t
  | .pointer t => t.bytes
  | .counted ptr count _ => ptr.take count.toNat

/-- `std::string` の同じ名前の関数が、同じ引数で返す値。 -/
def Call.std (c : Call) (s : SubString) : Nat := stdValue c.function s.bytes c.argument.needle c.pos.toNat

/-! ## 一致する条件 -/

/-- `find` が一致する条件。空の `t` は、`0` が答えであるか、位置が長さを超える時だけ、空でない `t` は、位置が長さを超えないか、`t` の方が長い時だけである。 -/
def FindAgrees (s t : Bytes) (pos : Nat) : Prop :=
  if t = [] then s.length < pos ∨ (pos = 0 ∧ s ≠ []) else pos ≤ s.length ∨ s.length < t.length

def SearchAgrees (f : Function) (s t : Bytes) (pos : Nat) : Prop :=
  match f with
  | .find => FindAgrees s t pos
  | .findLastNotOf => t ≠ [] ∨ s = []
  | _ => True

def Call.Agrees (c : Call) (s : SubString) : Prop :=
  match c.function, c.argument with
  | .findLastNotOf, .char _ => False
  -- NUL の前だけを探すので、NUL があり、かつ両方の最後の位置が同じ時だけである。
  | .rfind, .counted ptr count _ =>
      0 ∈ ptr.take count.toNat ∧
        stdValue .rfind s.bytes ((ptr.take count.toNat).takeWhile (· ≠ 0)) c.pos.toNat =
        stdValue .rfind s.bytes (ptr.take count.toNat) c.pos.toNat
  | _, .char _ => True
  | f, a => SearchAgrees f s.bytes a.needle c.pos.toNat

end

end SubString

end UnixCommons.String
