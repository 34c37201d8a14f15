import UnixCommons.Language.NormalizeTrigger
import UnixCommons.Lib.Cursor

/-!
# トリガーを読む位置

`divide` と `shrink` を、終わりを確かめる位置の読み書きとして写す。`trigger.size()` が `END` である。
-/

namespace UnixCommons.Language.NormalizeTrigger.Pointer

open Lib Lib.Cursor

/-- `thrown` は、`Exception` を投げることである。 -/
abbrev Run (α : Type) := Except (Stop Exception) α

/-! ## 探す位置 -/

def findQuote (str : Bytes) : Nat → Nat → Run (Option Nat)
  | 0, _ => throw .endless
  | fuel + 1, cur => do
      if cur = str.length then return some cur
      let c ← read str cur
      if c = quote then return some cur
      if c = left ∨ c = right then return none
      findQuote str fuel (cur + 1)

def findSpaceOrQuote (str : Bytes) (exact : Bool) : Nat → Nat → Run (Option Nat)
  | 0, _ => throw .endless
  | fuel + 1, cur => do
      if cur = str.length then return some cur
      let c ← read str cur
      if c = space ∨ c = tab ∨ c = quote then return some cur
      if c = left then return none
      if c = right then return if exact then some cur else none
      findSpaceOrQuote str exact fuel (cur + 1)

def next (str : Bytes) : Nat → Nat → Run (Bool × Nat)
  | 0, _ => throw .endless
  | fuel + 1, cur => do
      let c ← read str cur
      if c = space ∨ c = tab then
        if cur + 1 = str.length then return (true, cur + 1)
        next str fuel (cur + 1)
      else return (false, cur)

/-- `cur == END || next(cur, END)`。 -/
def nextOrEnd (str : Bytes) (cur : Nat) : Run (Bool × Nat) :=
  if cur = str.length then return (true, cur) else next str str.length cur

/-! ## 空白を縮める -/

def skipSpaces (str : Bytes) : Nat → Nat → Run (Bool × Nat)
  | 0, _ => throw .endless
  | fuel + 1, cur => do
      if cur + 1 = str.length then return (true, cur + 1)
      let c ← read str (cur + 1)
      if c = space then skipSpaces str fuel (cur + 1) else return (false, cur + 1)

structure Shrinking where
  str : Bytes
  out : Nat
  cur : Nat
  deriving DecidableEq, Repr

/-- `str.resize(out - str.data())`。 -/
def Shrinking.resize (s : Shrinking) : Bytes := s.str.take s.out

/-- 内側の `do`。 -/
def copyWord : Nat → Shrinking → Run (Bool × Shrinking)
  | 0, _ => throw .endless
  | fuel + 1, s => do
      let c ← read s.str s.cur
      let str ← write s.str s.out c
      let s : Shrinking := ⟨str, s.out + 1, s.cur + 1⟩
      if s.cur = s.str.length then return (true, s)
      let c ← read s.str s.cur
      if c ≠ space then copyWord fuel s else return (false, s)

def shrinkLoop : Nat → Shrinking → Run Bytes
  | 0, _ => throw .endless
  | fuel + 1, s => do
      let (ended, s) ← copyWord s.str.length s
      if ended then return s.resize
      let (ended, cur) ← skipSpaces s.str s.str.length s.cur
      if ended then return s.resize
      let str ← write s.str s.out space
      shrinkLoop fuel ⟨str, s.out + 1, cur⟩

def shrink (str : Bytes) : Run Bytes := do
  let c ← read str 0
  if c = space then
    let (ended, cur) ← skipSpaces str str.length 0
    if ended then return []
    shrinkLoop str.length ⟨str, 0, cur⟩
  else shrinkLoop str.length ⟨str, 0, 0⟩

def simplify (s : Simplifier) (trigger : Bytes) (name : String) (str : Bytes) : Run Bytes := do
  let result ← (simplifyCommon s trigger name str).mapError .thrown
  if result = [] then return result else shrink result

/-! ## 部分に分ける -/

/-- 正確なトリガーの部分を、空白で分けるループ。 -/
def addWords (tmp : Bytes) : Nat → Nat → Nat → Division → Run Division
  | 0, _, _, _ => throw .endless
  | fuel + 1, first, cur, d => do
      if cur = tmp.length then return d.push (between tmp first cur) false 1
      let c ← read tmp cur
      -- `begin = ++cur` の後の `++cur` は、語の始めの文字を調べずに進む。
      if c = space then addWords tmp fuel (cur + 1) (cur + 2) (d.push (between tmp first cur) false 1)
      else addWords tmp fuel first (cur + 1) d

def addPart (s : Simplifier) (trigger text : Bytes) (quotes exact : Bool) (d : Division) : Run Division := do
  if text = [] then return d
  else
    let tmp ← simplify s trigger "trigger" text
    if tmp = [] then return d
    else if exact then addWords tmp (tmp.length + 1) 0 0 d
    else return d.push tmp quotes 3

def divideLoop (s : Simplifier) (trigger : Bytes) (exact : Bool) : Nat → Nat → Division → Run Division
  | 0, _, _ => throw .endless
  | fuel + 1, cur, d => do
      let c ← read trigger cur
      if exact ∧ c = right then
        -- `++cur != END && !next(cur, END)`
        let (ended, _) ← nextOrEnd trigger (cur + 1)
        if ended then return d
        throw (.thrown ⟨"symbols after right bracket in trigger >", trigger, "<"⟩)
      else
        let quotes : Bool := c = quote
        let (first, last, cur) ←
          if !exact && quotes then
            match ← findQuote trigger (trigger.length + 1) (cur + 1) with
            | none => throw (Stop.thrown (Exception.mk "unexpected bracket in trigger >" trigger "<"))
            | some last =>
                if last = trigger.length then throw (Stop.thrown (Exception.mk "unpaired quote in trigger >" trigger "<"))
                else pure (cur + 1, last, last + 1)
          else
            match ← findSpaceOrQuote trigger exact (trigger.length + 1) (if exact ∧ quotes then cur + 1 else cur) with
            | none => throw (.thrown ⟨"unexpected bracket in trigger >", trigger, "<"⟩)
            | some last => pure (cur, last, last)
        let d ← addPart s trigger (between trigger first last) quotes exact d
        let (ended, cur) ← nextOrEnd trigger cur
        if ended then
          if exact then throw (.thrown ⟨"no right bracket in trigger >", trigger, "<"⟩) else return d
        divideLoop s trigger exact fuel cur d

def divide (s : Simplifier) (trigger : Bytes) : Run (Split × Division) := do
  if trigger.length > 1024 then throw (.thrown ⟨"trigger >", trigger, "< is too large"⟩)
  if trigger = [] then return (⟨false, []⟩, ⟨[], 0, 0⟩)
  let (ended, cur) ← next trigger trigger.length 0
  if ended then return (⟨false, []⟩, ⟨[], 0, 0⟩)
  let c ← read trigger cur
  if c = left then
    let (ended, cur) ← nextOrEnd trigger (cur + 1)
    if ended then throw (.thrown ⟨"no right bracket in trigger >", trigger, "<"⟩)
    let d ← divideLoop s trigger true trigger.length cur ⟨[], 0, 1⟩
    return (⟨true, d.parts⟩, d)
  else
    let d ← divideLoop s trigger false trigger.length cur ⟨[], 0, 0⟩
    return (⟨false, d.parts⟩, d)

end UnixCommons.Language.NormalizeTrigger.Pointer

namespace UnixCommons.Language.NormalizeTrigger

open Lib

/-- 読むことのできるトリガー。空白だけの文字列と、部分の並びと、空白だけを外に置く一組の括弧である。 -/
inductive Readable (T : Bytes) : Prop
  | blank (h : ∀ c ∈ T, isBlank c = true)
  | pieces {ps : List Piece} (h : Spells ps T)
  | bracketed {before body after : Bytes} (h : T = before ++ left :: (body ++ right :: after))
      (hblank : ∀ c ∈ before ++ after, isBlank c = true) (hbody : ∀ c ∈ body, c ≠ left ∧ c ≠ right)

end UnixCommons.Language.NormalizeTrigger
