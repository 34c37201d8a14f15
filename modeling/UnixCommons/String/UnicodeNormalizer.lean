import UnixCommons.Lib.Composition

/-!
# 文字列の正規化と合成

`UnicodeNormalizer.cpp` の `hangul_decompose`、`normalize`、`compose_string` の写し。`wchar_t` の値は文字の番号である。文字列は、読む位置と
書く位置を持つ一つの並びの上で合成する。結合の級の関数と `COMPOSITE_HASH` は、引数とする。
-/

namespace UnixCommons.String.UnicodeNormalizer

open Lib

/-! ## 合成の表 -/

structure CompositeHashRecord where
  value : Nat
  starter : Nat
  combiner : Nat
  deriving DecidableEq, Repr

/-- `COMPOSITE_HASH` の、対のない場所。 -/
def emptyRecord : CompositeHashRecord := ⟨0, 0, 0⟩

/-- `get_combining_class` と `COMPOSITE_HASH`。 -/
structure Tables where
  combiningClass : Nat → Nat
  compositeHash : Nat → CompositeHashRecord

def sBase : Nat := 0xAC00
def lBase : Nat := 0x1100
def vBase : Nat := 0x1161
def tBase : Nat := 0x11A7
def lCount : Nat := 19
def vCount : Nat := 21
def tCount : Nat := 28
def nCount : Nat := vCount * tCount
def sCount : Nat := lCount * nCount

def hash (starter combiner : Nat) : Nat :=
  let h := starter
  let h := h ^^^ ((h &&& 0x800) >>> 6)
  let h := h ^^^ ((h &&& 0x200) >>> 4)
  let h := h ^^^ (combiner &&& 0x20)
  let h := h &&& 0x5FF
  let h := h ^^^ ((combiner &&& 0x1F) <<< 9)
  h % 6584

def IsLV (starter combiner : Nat) : Prop :=
  (starter ≥ lBase ∧ starter < lBase + lCount) ∧ combiner ≥ vBase ∧ combiner < vBase + vCount

def IsSyllableLV (starter : Nat) : Prop := starter ≥ sBase ∧ starter < sBase + sCount ∧ (starter - sBase) % tCount = 0

instance (starter combiner : Nat) : Decidable (IsLV starter combiner) :=
  inferInstanceAs (Decidable ((starter ≥ lBase ∧ starter < lBase + lCount) ∧ combiner ≥ vBase ∧ combiner < vBase + vCount))

instance (starter : Nat) : Decidable (IsSyllableLV starter) :=
  inferInstanceAs (Decidable (starter ≥ sBase ∧ starter < sBase + sCount ∧ (starter - sBase) % tCount = 0))

def syllableLV (starter combiner : Nat) : Nat := sBase + ((starter - lBase) * vCount + (combiner - vBase)) * tCount

/-- `pair_compose` の、二つの文字を合成する三つの場合。 -/
def Tables.pairComposite (t : Tables) (starter combiner : Nat) : Option Nat :=
  if IsLV starter combiner then some (syllableLV starter combiner)
  else if IsSyllableLV starter ∧ combiner ≥ tBase ∧ combiner < tBase + tCount then some (starter + (combiner - tBase))
  else
    let record := t.compositeHash (hash starter combiner)
    if record.starter = starter ∧ record.combiner = combiner then some record.value else none

/-! ## 分解と正規化 -/

def hangulDecompose (wch : Nat) : List Nat :=
  if wch < sBase ∨ wch ≥ sBase + sCount then [wch]
  else
    let sIndex := wch - sBase
    let t := tBase + sIndex % tCount
    [lBase + sIndex / nCount, vBase + sIndex % nCount / tCount] ++ if t ≠ tBase then [t] else []

section Normalize

-- 引数は、`COMBINING_CLASS_INDEX` を引く `get_non_zero_combining_class` である。
variable (getNonZeroCombiningClass : Nat → Nat)

def getCombiningClass (wch : Nat) : Nat := if wch > 0x1D244 then 0 else getNonZeroCombiningClass wch

def isStarter (wch : Nat) : Bool := getCombiningClass getNonZeroCombiningClass wch == 0

def canonicalOrder (a b : Nat) : Bool := decide (getNonZeroCombiningClass a < getNonZeroCombiningClass b)

/-- `output` の前の文字を、`first_combiner` で分ける。 -/
structure Normalizing where
  settled : List Nat
  combiners : List Nat
  firstSymbolFlag : Bool

def Normalizing.begin : Normalizing := ⟨[], [], true⟩

/-- 並べた後の、`output` の前の文字。 -/
def Normalizing.sorted (s : Normalizing) : List Nat :=
  if s.combiners ≠ [] then s.settled ++ stableSort (canonicalOrder getNonZeroCombiningClass) s.combiners else s.settled

/-- 一つの文字の分解 `decomposition` を書いた後の歩み。 -/
def normalizeStep (s : Normalizing) (decomposition : List Nat) : Option Normalizing :=
  match decomposition with
  | [] => some s
  | first :: _ =>
      if isStarter getNonZeroCombiningClass first then
        let output := s.sorted getNonZeroCombiningClass
        let beyondLast := output.length + decomposition.length
        let buffer := output ++ decomposition
        let firstCombiner :=
          if isStarter getNonZeroCombiningClass (buffer.getD (beyondLast - 1) 0) then beyondLast
          else if isStarter getNonZeroCombiningClass (buffer.getD (beyondLast - 2) 0) then beyondLast - 1
          else output.length + 1
        some ⟨buffer.take firstCombiner, buffer.drop firstCombiner, false⟩
      else if s.firstSymbolFlag then none
      else some { s with combiners := s.combiners ++ decomposition }

/-- `normalize`。`decomposer` が 0 を返す文字は、`none` である。 -/
def normalize (decomposer : Nat → Option (List Nat)) (input : List Nat) : Option (List Nat) := do
  let s ← input.foldlM (fun s wch => do normalizeStep getNonZeroCombiningClass s (← decomposer wch)) Normalizing.begin
  return s.sorted getNonZeroCombiningClass

end Normalize

/-! ## 位置 -/

/-- 並びと、読む位置 `first` と、書く位置 `output`。書く位置は、読む位置を追い越さない。 -/
structure Cursor where
  buffer : List Nat
  first : Nat
  output : Nat
  behind : output ≤ first
  inside : first ≤ buffer.length

def Cursor.keep (c : Cursor) (h : c.first < c.buffer.length) : Cursor where
  buffer := c.buffer.set c.output (c.buffer[c.first])
  first := c.first + 1
  output := c.output + 1
  behind := Nat.succ_le_succ c.behind
  inside := by rw [List.length_set]; exact h

def Cursor.replace (c : Cursor) (h : c.first < c.buffer.length) (starter value : Nat) : Cursor where
  buffer := c.buffer.set starter value
  first := c.first + 1
  output := c.output
  behind := Nat.le_succ_of_le c.behind
  inside := by rw [List.length_set]; exact h

/-! ## 合成 -/

/-- `pair_compose`。`starter` は `maybe_starter` の指す位置である。続けるかどうか、`last_class`、位置を返す。 -/
def pairCompose (t : Tables) (starter lastClass : Nat) (c : Cursor) (h : c.first < c.buffer.length) : Bool × Nat × Cursor :=
  let maybeCombiner := c.buffer[c.first]
  let combinerClass := t.combiningClass maybeCombiner
  let composed :=
    if combinerClass > lastClass ∨ combinerClass = 0 then t.pairComposite (c.buffer.getD starter 0) maybeCombiner else none
  match composed with
  | some value => (true, lastClass, c.replace h starter value)
  | none => if combinerClass = 0 then (false, lastClass, c) else (true, combinerClass, c.keep h)

/-- `compose` のループ。 -/
def composeLoop (t : Tables) (starter : Nat) : Nat → Nat → Cursor → Cursor
  | 0, _, c => c
  | remaining + 1, lastClass, c =>
      if h : c.first < c.buffer.length then
        match pairCompose t starter lastClass c h with
        | (true, lastClass, c) => composeLoop t starter remaining lastClass c
        | (false, _, c) => c
      else c

def compose (t : Tables) (c : Cursor) (h : c.first < c.buffer.length) : Cursor :=
  let starter := c.output
  let c := c.keep h
  composeLoop t starter (c.buffer.length - c.first) (t.combiningClass (c.buffer.getD starter 0)) c

def composeStringLoop (t : Tables) : Nat → Cursor → Cursor
  | 0, c => c
  | remaining + 1, c => if h : c.first < c.buffer.length then composeStringLoop t remaining (compose t c h) else c

def composeString (t : Tables) (text : List Nat) : Cursor :=
  composeStringLoop t text.length ⟨text, 0, 0, Nat.le_refl _, Nat.zero_le _⟩

def Cursor.written (c : Cursor) : List Nat := c.buffer.take c.output

/-! ## 合成の算法 -/

/-- 表の対と音節の合成。`T_BASE` は、終わりの子音ではない。 -/
def Tables.composer (t : Tables) : Composer Nat where
  combiningClass := t.combiningClass
  composite starter combiner :=
    if IsLV starter combiner then some (syllableLV starter combiner)
    else if IsSyllableLV starter ∧ combiner > tBase ∧ combiner < tBase + tCount then some (starter + (combiner - tBase))
    else
      let record := t.compositeHash (hash starter combiner)
      if record ≠ emptyRecord ∧ record.starter = starter ∧ record.combiner = combiner then some record.value else none

/-- コードが、始めの文字を変えずに除く対。音節と `T_BASE`、または、空の場所に当たる二つの 0 である。 -/
def Tables.Drops (t : Tables) (starter combiner : Nat) : Prop :=
  (IsSyllableLV starter ∧ combiner = tBase) ∨ (starter = 0 ∧ combiner = 0 ∧ t.compositeHash (hash 0 0) = emptyRecord)

instance (t : Tables) (starter combiner : Nat) : Decidable (t.Drops starter combiner) :=
  inferInstanceAs (Decidable ((IsSyllableLV starter ∧ combiner = tBase) ∨
    (starter = 0 ∧ combiner = 0 ∧ t.compositeHash (hash 0 0) = emptyRecord)))

/-- コードと算法が分かれる文字。級 0 の文字が、間の文字を越えて合成するか、妨げられない文字が除かれる。 -/
def Tables.Diverges (t : Tables) (out : List Nat) (combiner : Nat) : Prop :=
  match t.composer.lastStarter out with
  | some (_, starter, between) =>
      (t.composer.composite starter combiner ≠ none ∧ between ≠ [] ∧ t.combiningClass combiner = 0) ∨
        (t.Drops starter combiner ∧ (t.combiningClass combiner = 0 ∨ ¬ t.composer.Blocked between combiner))
  | none => False

instance (t : Tables) (out : List Nat) (combiner : Nat) : Decidable (t.Diverges out combiner) :=
  match h : t.composer.lastStarter out with
  | some (_, starter, between) =>
      decidable_of_iff ((t.composer.composite starter combiner ≠ none ∧ between ≠ [] ∧ t.combiningClass combiner = 0) ∨
        (t.Drops starter combiner ∧ (t.combiningClass combiner = 0 ∨
        ¬ t.composer.Blocked between combiner))) (by rw [Tables.Diverges, h])
  | none => isFalse (by rw [Tables.Diverges, h]; exact id)

end UnixCommons.String.UnicodeNormalizer
