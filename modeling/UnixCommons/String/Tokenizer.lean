import Mathlib.Data.List.DropRight
import UnixCommons.Lib.Bytes
import UnixCommons.Lib.Spec

/-!
# 文字列を語に分ける

`Tokenizer.hpp` の `Splitter` と、`AsciiStringManip.hpp` の `Category` の検索の写し。文字列の中を指すポインタは、指す先から終わりまでの
バイトで表す。
-/

namespace UnixCommons.String.Tokenizer

open Lib

inductive Fault
  | pastEnd
  | fuel
  deriving DecidableEq, Repr

/-! ## 文字の集合の検索 -/

/-- `find_owned(str, end, octets_length)`。 -/
def findOwned (isOwned : UInt8 → Bool) : Bytes → Bytes × Option Nat
  | [] => ([], none)
  | ch :: str => if isOwned ch then (ch :: str, some 1) else findOwned isOwned str

def findNonowned (isOwned : UInt8 → Bool) : Bytes → Bytes
  | [] => []
  | ch :: str => if !isOwned ch then ch :: str else findNonowned isOwned str

/-- `Splitter` の集合。位置の `none` は 0 である。 -/
structure Category where
  findOwned : Bytes → Option Bytes × Option Nat
  findNonowned : Bytes → Option Bytes

def Category.of (isOwned : UInt8 → Bool) : Category where
  findOwned str := (some (Tokenizer.findOwned isOwned str).1, (Tokenizer.findOwned isOwned str).2)
  findNonowned str := some (Tokenizer.findNonowned isOwned str)

/-! ## `Splitter` -/

/-- `separator` の `none` は、0 であるか、まだ書かれていない。`null` は、`str` と `END` が 0 であることを表す。 -/
structure SplitterState where
  str : Bytes
  separator : Option Bytes
  error : Bool
  null : Bool

def SplitterState.of (str : Bytes) : SplitterState := ⟨str, none, false, false⟩

/-- `SubString()` から作る状態。 -/
def SplitterState.ofNull : SplitterState := ⟨[], none, false, true⟩

def between (cur last : Bytes) : Bytes := cur.take (cur.length - last.length)

def advance (n : Nat) (cur : Bytes) : Except Fault Bytes := if n ≤ cur.length then return cur.drop n else throw .pastEnd

/-- `GetToken<true>::get_token`。語の `none` は偽である。 -/
def getTokenEmpty (category : Category) (state : SplitterState) : Except Fault (Option Bytes × SplitterState) :=
  if state.str = [] then
    return (none, state)
  else
    match category.findOwned state.str with
    | (some separator, octetsLength) => do
        let str ← if separator = [] then pure [] else advance (octetsLength.getD 0) separator
        return (some (between state.str separator), { state with separator := some separator, str })
    | (none, _) => return (none, { state with separator := none, error := true })

/-- `GetToken<false>::get_token`。 -/
def getTokenNonempty (category : Category) (state : SplitterState) :
    Except Fault (Option Bytes × SplitterState) :=
  -- 終わりが 0 の時は、見付からない時の `end` も 0 である。
  match if state.null then none else category.findNonowned state.str with
  | none => return (none, { state with error := true })
  | some first =>
      match (category.findOwned first).1 with
      | none => return (none, { state with error := true })
      | some last =>
          if first = last then
            return (none, state)
          else
            return (some (between first last), { state with separator := some last, str := last })

def getToken (empty : Bool) (category : Category) (state : SplitterState) : Except Fault (Option Bytes × SplitterState) :=
  if empty then getTokenEmpty category state else getTokenNonempty category state

/-- `get_token` が偽を返すまでの語と、その時の状態。 -/
def collect (empty : Bool) (category : Category) : Nat → SplitterState → Except Fault (List Bytes × SplitterState)
  | 0, _ => throw .fuel
  | fuel + 1, state => do
      match ← getToken empty category state with
      | (none, state) => return ([], state)
      | (some token, state) =>
          let (tokens, state) ← collect empty category fuel state
          return (token :: tokens, state)

/-- 文字列を語に分ける。`none` は、0 を指す空の `SubString()` である。 -/
def split (empty : Bool) (category : Category) :
    Option Bytes → Except Fault (List Bytes × SplitterState)
  | none => collect empty category 1 SplitterState.ofNull
  | some str => collect empty category (str.length + 1) (SplitterState.of str)

/-! ## 両端を除く -/

def isSpace (ch : UInt8) : Bool := ch = 32 ∨ (9 ≤ ch ∧ ch ≤ 13)

def trim (trimSet : UInt8 → Bool) (str : Bytes) : Bytes :=
  let first := findNonowned trimSet str
  if first ≠ [] then first.rdropWhile trimSet else []

end UnixCommons.String.Tokenizer
