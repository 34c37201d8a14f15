import Mathlib
import UnixCommons.Lib.Bytes

/-!
# 語の並びの解析

`Analyzer.hpp` と `Analyzer.cpp` の `Analyzer` の写し。繰り返しと範囲と遮蔽の記号に出会うと、写しは `special` で止まる。
-/

namespace UnixCommons.String.Analyzer

open Lib

/-! ## `AnalyzerParams` -/

abbrev CharSet := Bytes

def checkSymbolInSet (chars : CharSet) (ch : UInt8) : Bool := chars.contains ch

structure CharPair where
  initialized : Bool
  first : UInt8
  second : UInt8
  deriving DecidableEq, Repr

structure AnalyzerParams where
  shieldSymbol : UInt8
  mainSeparators : CharSet
  ignoreSuccessiveSeparators : Bool
  regularSymbs : CharSet
  allowIgnoredSymbs : Bool
  ignoredSymbs : CharSet
  allowRepeat : Bool
  numRetriesSymb : CharPair
  retryPartSymb : CharPair
  allowRange : Bool
  rangePartSymb : CharPair
  rangeSeparators : CharSet
  regularRangeSymbs : CharSet
  rangeSymbol : UInt8
  immediateRangeMode : Bool
  deriving DecidableEq, Repr

def fillIgnored (params : AnalyzerParams) : AnalyzerParams :=
  if params.allowIgnoredSymbs && params.ignoredSymbs.isEmpty then { params with allowIgnoredSymbs := false } else params

def fillRange (params : AnalyzerParams) : AnalyzerParams :=
  { params with
    rangeSeparators := if params.rangeSeparators.isEmpty then params.mainSeparators else params.rangeSeparators
    regularRangeSymbs := if params.regularRangeSymbs.isEmpty then params.regularSymbs else params.regularRangeSymbs }

/-- 構築子。確かめて補った `init_params_` を返す。`none` は `Exception` である。 -/
def init (params : AnalyzerParams) : Option AnalyzerParams :=
  if params.mainSeparators.isEmpty then none
  else if params.regularSymbs.isEmpty then none
  else if params.allowRepeat && (!params.numRetriesSymb.initialized || !params.retryPartSymb.initialized) then none
  else if params.allowRange then
    if !params.rangePartSymb.initialized then none else some (fillRange (fillIgnored params))
  else if params.immediateRangeMode then none
  else some (fillIgnored params)

/-! ## 入力 -/

/-- `std::istream` と `current_symbol_`。 -/
structure Input where
  rest : Bytes
  good : Bool
  currentSymbol : UInt8
  deriving DecidableEq, Repr

/-- `istr.get(current_symbol_)`。 -/
def Input.get (s : Input) : Input :=
  match s.good, s.rest with
  | true, c :: rest => ⟨rest, true, c⟩
  | true, [] => { s with good := false }
  | false, _ => s

inductive Stop
  | endless
  | special
  deriving DecidableEq, Repr

def getWhile (condition : Input → Bool) : Nat → Input → Except Stop Input
  | 0, _ => throw .endless
  | fuel + 1, s => if condition s then getWhile condition fuel s.get else return s

/-! ## 解析 -/

structure TreeNode where
  nodeVal : Bytes
  repeatAmount : Nat
  deriving DecidableEq, Repr

/-- `result` は `result_arg` に書いた語、`warnings` は `callback_->warning` に知らせた記号である。 -/
structure State where
  input : Input
  curLexemeTree : Option TreeNode
  result : List Bytes
  warnings : Bytes
  deriving DecidableEq, Repr

namespace State

def createTree (s : State) : State := { s with curLexemeTree := some ⟨[], 1⟩ }

/-- 語の木があれば、`interprete_and_flush_tree` の後に捨てる。 -/
def flush (s : State) : State :=
  match s.curLexemeTree with
  | some node => { s with result := s.result ++ List.replicate node.repeatAmount node.nodeVal, curLexemeTree := none }
  | none => s

/-- `current_node_->node_val.push_back(current_symbol_)`。 -/
def pushBack (s : State) : State :=
  { s with curLexemeTree := s.curLexemeTree.map fun node => { node with nodeVal := node.nodeVal ++
    [s.input.currentSymbol] } }

def get (s : State) : State := { s with input := s.input.get }

end State

section

variable (params : AnalyzerParams)

def passSeparatorSymbols (fuel : Nat) (s : State) : Except Stop (State × Bool) :=
  if params.ignoreSuccessiveSeparators then do
    let input ← getWhile (fun input => input.good && (checkSymbolInSet params.mainSeparators input.currentSymbol ||
      (params.allowIgnoredSymbs && checkSymbolInSet params.ignoredSymbs input.currentSymbol))) fuel s.input
    return ({ s with input }, true)
  else if s.input.good && checkSymbolInSet params.mainSeparators s.input.currentSymbol then
    let s := s.get
    if s.input.good && checkSymbolInSet params.mainSeparators s.input.currentSymbol then return (s.createTree, false)
    else return (s, true)
  else
    return (s, true)

/-- 区切りに出会った時の `do` のループ。 -/
def separatorLoop : Nat → State → Except Stop State
  | 0, _ => throw .endless
  | fuel + 1, s => do
      let (s, passed) ← passSeparatorSymbols params fuel s.flush
      if passed then return s else separatorLoop fuel s

/-- 一つの記号の扱い。`illegal` は `NoncriticalException` である。 -/
inductive Recognized
  | special
  | regular
  | ignored
  | illegal
  deriving DecidableEq, Repr

def recognizeSymbol (currentSymbol : UInt8) : Recognized :=
  if params.allowRepeat && currentSymbol == params.retryPartSymb.first then .special
  else if params.allowRange && currentSymbol == params.rangePartSymb.first then .special
  else if params.allowRepeat && currentSymbol == params.numRetriesSymb.first then .special
  else if currentSymbol == params.shieldSymbol then .special
  else if checkSymbolInSet params.regularSymbs currentSymbol then .regular
  else if params.allowIgnoredSymbs then
    if !checkSymbolInSet params.ignoredSymbs currentSymbol then .illegal else .ignored
  else .illegal

/-- `process_range_sequence` の、`range_symbol` の場合と `recognize_range_symbol`。 -/
def recognizeRangeSymbol (currentSymbol : UInt8) : Recognized :=
  if currentSymbol == params.rangeSymbol then .special
  else if params.allowRepeat && currentSymbol == params.retryPartSymb.first then .special
  else if currentSymbol == params.rangePartSymb.first then .special
  else if params.allowRepeat && currentSymbol == params.numRetriesSymb.first then .special
  else if currentSymbol == params.shieldSymbol then .special
  else if checkSymbolInSet params.regularRangeSymbs currentSymbol then .regular
  else if params.allowIgnoredSymbs then
    if checkSymbolInSet params.ignoredSymbs currentSymbol then .ignored else .illegal
  else .illegal

/-- 二つの読み方の違い。`skipping` は、`NoncriticalException` の後に `get` を繰り返す条件である。 -/
structure Mode where
  separators : CharSet
  recognize : UInt8 → Recognized
  skipping : Input → Bool

/-- `process_char_sequence` と `process_range_sequence` のループ。 -/
def sequenceLoop (mode : Mode) : Nat → State → Except Stop State
  | 0, _ => throw .endless
  | fuel + 1, s =>
      if s.input.good then
        if checkSymbolInSet mode.separators s.input.currentSymbol then do
          let s ← separatorLoop params fuel s
          sequenceLoop mode fuel s
        else
          let s := if s.curLexemeTree.isNone then s.createTree else s
          match mode.recognize s.input.currentSymbol with
          | .special => throw .special
          | .regular => sequenceLoop mode fuel s.pushBack.get
          | .ignored => sequenceLoop mode fuel s.get
          | .illegal => do
              let input ← getWhile mode.skipping fuel s.input
              sequenceLoop mode fuel { s with input, curLexemeTree := none, warnings :=
                s.warnings ++ [s.input.currentSymbol] }
      else
        return s

/-- `process_char_sequence` の、`immediate_range_mode` でない時の違い。 -/
def charMode : Mode where
  separators := params.mainSeparators
  recognize := recognizeSymbol params
  skipping input := input.good || checkSymbolInSet params.mainSeparators input.currentSymbol

/-- `process_range_sequence` の違い。 -/
def rangeMode : Mode where
  separators := params.rangeSeparators
  recognize := recognizeRangeSymbol params
  skipping input := input.good && !checkSymbolInSet params.rangeSeparators input.currentSymbol

/-- 最初の `get` から、最後の語を書くまで。`currentSymbol` は前の解析で残った値である。 -/
def processSequence (mode : Mode) (text : Bytes) (currentSymbol : UInt8) (fuel : Nat) : Except Stop State := do
  let s ← sequenceLoop params mode fuel ⟨Input.get ⟨text, true, currentSymbol⟩, none, [], []⟩
  return s.flush

def processCharSequence (text : Bytes) (currentSymbol : UInt8) (fuel : Nat) : Except Stop State :=
  if !params.immediateRangeMode then processSequence params (charMode params) text currentSymbol fuel
  else processSequence params (rangeMode params) text currentSymbol fuel

end

/-! ## 語 -/

section

variable (params : AnalyzerParams)

def isSeparator (c : UInt8) : Bool := checkSymbolInSet params.mainSeparators c

def chunks (text : Bytes) : List Bytes := text.splitOnP (isSeparator params)

def isIgnored (c : UInt8) : Bool := params.allowIgnoredSymbs && checkSymbolInSet params.ignoredSymbs c

def isRegular (c : UInt8) : Bool :=
  checkSymbolInSet (if params.immediateRangeMode then params.regularRangeSymbs else params.regularSymbs) c

def isSpecial (c : UInt8) : Bool :=
  (if params.immediateRangeMode then recognizeRangeSymbol params c else recognizeSymbol params c) == .special

def isWell (chunk : Bytes) : Bool := chunk.all fun c => isRegular params c || isIgnored params c

def expected (text : Bytes) : List Bytes :=
  (((chunks params text).filter (isWell params)).map fun chunk => chunk.filter (!isIgnored params ·)).filter (· ≠ [])

def Plain (text : Bytes) : Prop := ∀ c ∈ text, isSeparator params c = true ∨ isSpecial params c = false

/-- 解析は終わり、書くべき語を順に書き、他の語を一つずつ知らせる。 -/
def CostsOnlyItself (text : Bytes) (currentSymbol : UInt8) : Prop :=
  ∃ n, ∀ fuel ≥ n, ∃ s, processCharSequence params text currentSymbol fuel = .ok s ∧ s.result = expected params text ∧
    s.warnings.length = (chunks params text).countP (!isWell params ·)

/-- `first` でない並びの、初めの無視される記号は、区切りと共に飛ばされている。 -/
def strip (first : Bool) (chunk : Bytes) : Bytes := if first then chunk else chunk.dropWhile (isIgnored params)

/-- 語に、普通でもあり無視もされる記号がない。最初の語は、無視される記号だけではない。 -/
def Proper (first : Bool) (chunk : Bytes) : Prop :=
  isWell params chunk = true →
    (∀ c ∈ strip params first chunk, ¬ (isRegular params c = true ∧ isIgnored params c = true)) ∧
      (first = true → chunk = [] ∨ ∃ c ∈ chunk, isIgnored params c = false)

instance (first : Bool) (chunk : Bytes) : Decidable (Proper params first chunk) := by
  unfold Proper
  exact inferInstance

def AllProper : Bool → List Bytes → Prop
  | _, [] => True
  | first, chunk :: chunks => Proper params first chunk ∧ AllProper false chunks

instance decidableAllProper : (first : Bool) → (chunks : List Bytes) → Decidable (AllProper params first chunks)
  | _, [] => isTrue trivial
  | first, chunk :: chunks =>
      have := decidableAllProper false chunks
      inferInstanceAs (Decidable (Proper params first chunk ∧ AllProper params false chunks))

/-- 普通の読み方では、最初の悪い並びの後に、区切りと無視される記号しかなく、入力は区切りで終わらない。 -/
def Harmless (text : Bytes) : Prop :=
  if params.immediateRangeMode then
    AllProper params true (chunks params text)
  else
    let later := ((chunks params text).dropWhile (isWell params)).tail
    AllProper params true ((chunks params text).takeWhile (isWell params)) ∧
      (∀ chunk ∈ later, ∀ c ∈ chunk, isIgnored params c = true) ∧ later.getLast? ≠ some []

instance (text : Bytes) : Decidable (Harmless params text) := by
  unfold Harmless
  exact inferInstance

end

end UnixCommons.String.Analyzer
