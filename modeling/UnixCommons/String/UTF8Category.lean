import UnixCommons.Generics.CompressedSet
import UnixCommons.String.UTF8Handler
import UnixCommons.Lib.Utf8

/-!
# UTF-8 の文字の集合

`UTF8Category.cpp` と `UTF8NArcTree.hpp` の写し。文字は、そのバイトを上位から詰めた `uint32_t` の値で集合に入り、集合は先頭のバイトで
256 に、後のバイトで 64 に分かれる木になる。木の節は共用体であり、書いたのと異なる項目を読むことは `misread` である。五つ以上の
バイトの先頭では 32 ビットの値を 32 以上ずらすことがあり、その結果は定まらないので、任意の関数 `wide` で表す。
-/

namespace UnixCommons.String.UTF8Category

open Lib Generics.CompressedSet UTF8Handler

def utf8Char : IntegerType := ⟨0, 2 ^ 32 - 1, by decide⟩

inductive Fault
  | pastEnd
  | misread
  | outside
  | dangling
  | fuel
  deriving DecidableEq, Repr

/-! ## 集合を作る -/

def octetAt : Bytes → Except Fault Nat
  | [] => throw .pastEnd
  | b :: _ => return b.toNat

def getCharLoop : Nat → Bytes → Nat → Except Fault Nat
  | 0, _, utf8char => return utf8char
  | n + 1, symbol, utf8char => do
      let b ← octetAt symbol
      getCharLoop n symbol.tail ((utf8char <<< 8) % 2 ^ 32 ||| b)

/-- 文字の値と `*poctets`。 -/
def getChar (symbol : Bytes) : Except Fault (Nat × Nat) := do
  let octets := getOctetCount (← octetAt symbol)
  if octets = 0 ∨ octets > 4 then
    return (2 ^ 32 - 1, 0)
  else
    return (← getCharLoop octets symbol 0, octets)

def addSymbol (symbol : Bytes) (chars : State) : Except Fault State := do
  let (char, _) ← getChar symbol
  return chars.add utf8Char char char

def addSymbols (first last : Bytes) (chars : State) : Except Fault State := do
  let (low, _) ← getChar first
  let (high, _) ← getChar last
  return chars.add utf8Char low high

structure Symbol where
  octets : Bytes
  isSequence : Utf8.IsSequence octets

inductive Addition
  | symbol (c : Symbol)
  | symbols (first last : Symbol)

def Addition.apply (chars : State) : Addition → Except Fault State
  | .symbol c => addSymbol c.octets chars
  | .symbols first last => addSymbols first.octets last.octets chars

def build (additions : List Addition) : Except Fault State := additions.foldlM Addition.apply State.init

/-! ## 木 -/

inductive Node
  | null
  | stop
  | leaf (bits : Nat)
  | middle (nodes : List Node)

/-- `unsigned long` の `depth--`。 -/
def decrement (depth : Nat) : Nat := (depth + (2 ^ 64 - 1)) % 2 ^ 64

def belongLoop (depth : Nat) (current : Node) (str : Bytes) : Except Fault Bool :=
  if depth = 2 then
    match current, str with
    | .leaf bits, b :: _ => return bits &&& ((1 <<< (b.toNat &&& 0x3F)) % 2 ^ 64) ≠ 0
    | .leaf _, [] => throw .pastEnd
    | _, _ => throw .misread
  else
    match current, str with
    | .null, _ => return false
    | .stop, _ => return true
    | .leaf _, _ => throw .misread
    | .middle _, [] => throw .pastEnd
    | .middle nodes, b :: str =>
        match nodes[b.toNat &&& 0x3F]? with
        | none => throw .outside
        | some node => belongLoop (decrement depth) node str

def belong (tree : List Node) (str : Bytes) : Except Fault Bool :=
  match str with
  | [] => throw .pastEnd
  | b :: rest =>
      match tree[b.toNat]? with
      | none => throw .outside
      | some node => belongLoop (getOctetCount b.toNat) node rest

/-- 集合を調べる計算。`belongs` は `last_found_` を変える。 -/
abbrev Scan := EStateM Fault State

def belongs (value : Nat) : Scan Bool := do
  match (← get).belongs value with
  | none => throw .dangling
  | some (chars, b) =>
      set chars
      return b

def shiftLeft (wide : Nat → Nat → Nat) (value shift : Nat) : Nat :=
  (if shift < 32 then value <<< shift else wide value shift) % 2 ^ 32

/-- `prefix <<= 8; prefix += 0x80`。 -/
def lengthen (pre : Nat) : Nat := ((pre <<< 8) % 2 ^ 32 + 0x80) % 2 ^ 32

/-- `prefix` から `prefix + 64` の前までの値。 -/
def sixtyFour (pre : Nat) : List Nat := List.range' pre ((pre + 64) % 2 ^ 32 - pre)

/-- `check_interval_` の、`all` と `none` のループ。 -/
def statusLoop (check : Nat → CheckStatus) : List Nat → Bool → Bool → CheckStatus
  | [], _, isNone => if isNone then .none else .all
  | pre :: rest, isAll, isNone =>
      match check pre with
      | .none => if !isNone then .some else statusLoop check rest false isNone
      | .all => if !isAll then .some else statusLoop check rest isAll false
      | .some => .some

def checkInterval (wide : Nat → Nat → Nat) (chars : State) : Nat → Nat → CheckStatus
  | 0, pre => chars.checkPresence (lengthen pre) ((lengthen pre + 63) % 2 ^ 32 : Nat)
  | depthLeft + 1, pre =>
      let shift := (depthLeft + 2) * 8
      let status := chars.checkPresence (shiftLeft wide pre shift)
        ((shiftLeft wide ((pre + 1) % 2 ^ 32) shift + (2 ^ 32 - 1)) % 2 ^ 32 : Nat)
      if status ≠ .some then
        status
      else
        statusLoop (checkInterval wide chars depthLeft) (sixtyFour (lengthen pre)) true true

/-- `init_interval_` の、`leaf` を埋めるループ。 -/
def leafLoop : List Nat → Nat → Nat → Scan Nat
  | [], _, leaf => pure leaf
  | pre :: rest, flag, leaf => do
      let b ← belongs pre
      leafLoop rest ((flag <<< 1) % 2 ^ 64) (if b then leaf ||| flag else leaf)

/-- `~static_cast<TreeLeaf>(0)`。 -/
def allBits : Nat := 2 ^ 64 - 1

/-- `init_interval_` の、`depth_left` が 0 の場合。 -/
def initLeaf (pre : Nat) : Scan Node := do
  match (← get).checkPresence (lengthen pre) ((lengthen pre + 63) % 2 ^ 32 : Nat) with
  | .none => return .leaf 0
  | .all => return .leaf allBits
  | .some => return .leaf (← leafLoop (sixtyFour (lengthen pre)) 1 0)

/-- `init_interval_` の、`depth_left` が 0 でない場合。`sub` は、一つ少ない `depth_left` での呼び出しである。 -/
def initMiddle (status : State → CheckStatus) (sub : Nat → Scan Node) (pre : Nat) : Scan Node := do
  match status (← get) with
  | .none => return .null
  | .all => return .stop
  | .some => return .middle (← (sixtyFour (lengthen pre)).mapM sub)

def initInterval (wide : Nat → Nat → Nat) : Nat → Nat → Scan Node
  | 0, pre => initLeaf pre
  | depthLeft + 1, pre =>
      initMiddle (fun chars => checkInterval wide chars (depthLeft + 1) pre) (initInterval wide depthLeft) pre

def initNode (wide : Nat → Nat → Nat) (i : Nat) : Scan Node :=
  match getOctetCount i with
  | 0 => return .null
  | 1 => return if (← belongs i) then .stop else .null
  | depth + 2 => initInterval wide depth i

def init (wide : Nat → Nat → Nat) : Scan (List Node) := (List.range 256).mapM (initNode wide)

def isOwned (nodes : List Node) (str : Bytes) : Except Fault Bool := belong nodes str

/-! ## 探す -/

/-- 返した位置と、`*octets` に書いた値。 -/
structure Found where
  pos : Option Nat
  octets : Option Nat
  deriving DecidableEq, Repr

def available : Nat → Bytes → Except Fault Bool
  | 0, _ => return true
  | n + 1, str => do
      if (← octetAt str) = 0 then return false else available n str.tail

/-- NUL で終わる文字列を探すループ。 -/
def findLoop (nodes : List Node) (owned : Bool) : Nat → Nat → Bytes → Except Fault Found
  | 0, _, _ => throw .fuel
  | fuel + 1, pos, str => do
      let b ← octetAt str
      let octetsCount := getOctetCount b
      if octetsCount = 0 then
        return ⟨none, none⟩
      else if ¬ (← available (octetsCount - 1) str.tail) then
        return ⟨none, none⟩
      else if (← isOwned nodes str) = owned then
        return ⟨some pos, some octetsCount⟩
      else if b = 0 then
        return ⟨none, none⟩
      else
        findLoop nodes owned fuel (pos + octetsCount) (str.drop octetsCount)

def findOwned (nodes : List Node) (str : Bytes) : Except Fault Found := findLoop nodes true (str.length + 1) 0 (str ++ [0])

def findNonowned (nodes : List Node) (str : Bytes) : Except Fault Found := findLoop nodes false
    (str.length + 1) 0 (str ++ [0])

/-- `[begin, end)` を探すループ。 -/
def findRangeLoop (nodes : List Node) (owned : Bool) : Nat → Nat → Bytes → Except Fault Found
  | 0, _, _ => throw .fuel
  | fuel + 1, pos, str =>
      if str = [] then
        return ⟨some pos, none⟩
      else do
        let octetsCount := getOctetCount (← octetAt str)
        if octetsCount = 0 then
          return ⟨none, none⟩
        else if str.length < octetsCount then
          return ⟨none, none⟩
        else if (← isOwned nodes str) = owned then
          return ⟨some pos, some octetsCount⟩
        else
          findRangeLoop nodes owned fuel (pos + octetsCount) (str.drop octetsCount)

/-- `find_owned(begin, end)`。 -/
def findOwnedRange (nodes : List Node) (str : Bytes) : Except Fault Found := findRangeLoop nodes true (str.length + 1) 0 str

/-- `find_nonowned(begin, end)`。 -/
def findNonownedRange (nodes : List Node) (str : Bytes) : Except Fault Found :=
  findRangeLoop nodes false (str.length + 1) 0 str

/-- `[start, pos)` を後ろから探すループ。 -/
def rfindLoop (nodes : List Node) (owned : Bool) (str : Bytes) : Nat → Nat → Except Fault Found
  | 0, _ => return ⟨some str.length, none⟩
  | current + 1, lastReview => do
      let b ← octetAt (str.drop current)
      if b &&& 0xC0 ≠ 0x80 then
        let currentRange := lastReview - current
        if getOctetCount b ≠ currentRange then
          return ⟨none, none⟩
        else if (← isOwned nodes (str.drop current)) = owned then
          return ⟨some current, some currentRange⟩
        else
          rfindLoop nodes owned str current current
      else
        rfindLoop nodes owned str current lastReview

def rfindOwned (nodes : List Node) (str : Bytes) : Except Fault Found := rfindLoop nodes true str str.length str.length

def rfindNonowned (nodes : List Node) (str : Bytes) : Except Fault Found := rfindLoop nodes false str str.length str.length

end UnixCommons.String.UTF8Category
