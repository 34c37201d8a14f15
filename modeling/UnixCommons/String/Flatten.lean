import UnixCommons.String.Tokenizer
import UnixCommons.String.UTF8Category

/-!
# 続いた文字をまとめる

`AsciiStringManip::flatten` と `StringManip::flatten` の写し。書く所 `out` は、書いたバイトで表す。`maxSize` は、`std::string` の `max_size()` である。
-/

namespace UnixCommons.String.Flatten

open Lib

/-- 計算が止まる理由。`length` は `length_error`、`overrun` は `dest` の外に書くことである。 -/
inductive Fault
  | length
  | overrun
  | fuel
  | search (e : UTF8Category.Fault)
  deriving DecidableEq, Repr

/-- `str.size() * (REPL_SIZE ? REPL_SIZE : 1)`。 -/
def destSize (size replSize : Nat) : Nat := size * (if replSize ≠ 0 then replSize else 1) % 2 ^ 64

def resize (maxSize size : Nat) : Except Fault Nat := if size ≤ maxSize then return size else throw .length

def copy (size : Nat) (out text : Bytes) : Except Fault Bytes := if out.length + text.length ≤ size
    then return out ++ text else throw .overrun

/-! ## 一文字の集合 -/

def flattenAsciiLoop (isOwned : UInt8 → Bool) (replacement : Bytes) (size : Nat) : Nat → Bytes → Bytes → Except Fault Bytes
  | 0, _, _ => throw .fuel
  | fuel + 1, first, out =>
      if first = [] then return out
      else do
        let current := (Tokenizer.findOwned isOwned first).1
        let out ← copy size out (Tokenizer.between first current)
        if current = [] then
          return out
        else
          let out ← copy size out replacement
          flattenAsciiLoop isOwned replacement size fuel (Tokenizer.findNonowned isOwned current) out

/-- `AsciiStringManip::flatten`。 -/
def flattenAscii (maxSize : Nat) (isOwned : UInt8 → Bool) (str replacement : Bytes) : Except Fault Bytes := do
  let size ← resize maxSize (destSize str.length replacement.length)
  flattenAsciiLoop isOwned replacement size (str.length + 1) str []

/-! ## UTF-8 の文字の集合 -/

def search (found : Except UTF8Category.Fault UTF8Category.Found) : Except Fault (Option Nat) :=
  match found with
  | .ok found => return found.pos
  | .error e => throw (.search e)

/-- 偽を返すことは `none` である。 -/
def flattenUtf8Loop (nodes : List UTF8Category.Node) (replacement : Bytes) (size : Nat) :
    Nat → Bytes → Bytes → Except Fault (Option Bytes)
  | 0, _, _ => throw .fuel
  | fuel + 1, first, out =>
      if first = [] then return some out
      else do
        match ← search (UTF8Category.findOwnedRange nodes first) with
        | none => return none
        | some current =>
            let out ← copy size out (first.take current)
            if current = first.length then
              return some out
            else
              let out ← copy size out replacement
              match ← search (UTF8Category.findNonownedRange nodes (first.drop current)) with
              | none => return none
              | some next => flattenUtf8Loop nodes replacement size fuel ((first.drop current).drop next) out

def flattenUtf8 (maxSize : Nat) (nodes : List UTF8Category.Node) (str replacement : Bytes) :
    Except Fault (Option Bytes) := do
  let size ← resize maxSize (destSize str.length replacement.length)
  flattenUtf8Loop nodes replacement size (str.length + 1) str []

end UnixCommons.String.Flatten
