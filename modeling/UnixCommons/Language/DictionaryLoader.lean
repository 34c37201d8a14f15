import UnixCommons.Language.PolyglotTokenizer
import UnixCommons.String.IntText
import UnixCommons.String.Tokenizer

/-!
# 辞書を読む

`Language/Polyglot/DictionaryLoader.cpp` の `parse_dictionary_string`、
`parse_suffix_dictionary_string`、`load`、`load_suffixes` の写し。
二連の辞書の流れは読まれないので、持たない。
-/

namespace UnixCommons.Language.Polyglot

open Lib String.Tokenizer

/-! ## 行を読む -/

/-- 行を読めない理由。初めの三つは `InvalidParameter` であり、文に行を含む。 -/
inductive LoadFault
  | parts (str : Bytes)
  | value (str : Bytes)
  | utf8 (str : Bytes)
  | tokenizer (e : String.Tokenizer.Fault)
  deriving DecidableEq, Repr

def maxFreq : Int := 100000

def readInt (str : Bytes) : Int :=
  let (result, value) := String.StrToInt.strToInt String.IntText.BinaryType.int.limits str 0
  if result then value else 0

/-- `TokenizerDefaultSeparators`。 -/
def isDefaultSeparator (ch : UInt8) : Bool := ch = 0x20 ∨ ch = 0x0A ∨ ch = 0x09

def nextToken (state : SplitterState) : Except LoadFault (Option Bytes × SplitterState) :=
  (getTokenNonempty (.of isDefaultSeparator) state).mapError .tokenizer

/-- `res = utf8_to_wchar(part)` と、初めの零で終わる `res.get()`。 -/
def readWord (str part : Bytes) : Except LoadFault (List Nat) :=
  match String.Utf8Text.utf8ToWchar part with
  | .ok res => return res.takeWhile (· ≠ 0)
  | .error _ => throw (.utf8 str)

/-- `norm_word` が零である `parse_dictionary_string`。 -/
def parseDictionaryString (str : Bytes) : Except LoadFault (Nat × List Nat × Int) := do
  match ← nextToken (SplitterState.of str) with
  | (none, _) => throw (.parts str)
  | (some part, state) =>
      let id := readInt part
      if id = 0 then
        throw (.value str)
      else
        match ← nextToken state with
        | (none, _) => throw (.parts str)
        | (some part, state) =>
            let word ← readWord str part
            match ← nextToken state with
            | (none, _) => throw (.parts str)
            | (some part, state) =>
                let freq := readInt part
                if freq = 0 then
                  throw (.value str)
                else
                  match ← nextToken state with
                  | (some _, _) => throw (.parts str)
                  | (none, _) => return ((id % 2 ^ 64).toNat, word, -(if freq > maxFreq then maxFreq else freq))

def parseSuffixDictionaryString (str : Bytes) : Except LoadFault (List Nat × UInt64 × Int) := do
  match ← nextToken (SplitterState.of str) with
  | (none, _) => throw (.parts str)
  | (some part, state) =>
      let suffix ← readWord str part
      match ← nextToken state with
      | (none, _) => throw (.parts str)
      | (some part, state) =>
          let len := UInt64.ofInt (readInt part)
          if len = 0 then
            throw (.value str)
          else
            match ← nextToken state with
            | (none, _) => throw (.parts str)
            | (some part, state) =>
                let freq := readInt part
                if freq = 0 then
                  throw (.value str)
                else
                  match ← nextToken state with
                  | (some _, _) => throw (.parts str)
                  | (none, _) => return (suffix, len, -freq)

/-! ## 辞書 -/

structure DictionaryTraits where
  countEl : Nat
  minEl : Int
  maxEl : Int
  sumEl : Int
  deriving DecidableEq, Repr

def DictionaryTraits.empty : DictionaryTraits := ⟨0, 0xFFFFFFFF, 0, 0⟩

def DictionaryTraits.add (traits : DictionaryTraits) (freq : Int) : DictionaryTraits :=
  ⟨traits.countEl + 1, min traits.minEl freq, max traits.maxEl freq, traits.sumEl + freq⟩

variable {κ η α : Type} [DecidableEq κ]

def IncHashTable.modify {h : IncHash κ η} (table : IncHashTable h α) (word : List κ) (f : α → α) : IncHashTable h α where
  mainTable := table.mainTable.map fun entry => if entry.1 = word then (entry.1, f entry.2) else entry
  interTable := table.interTable
  complete := by
    intro entry hentry k hpos hlt
    obtain ⟨old, hold, rfl⟩ := List.mem_map.mp hentry
    have hkey : (if old.1 = word then (old.1, f old.2) else old).1 = old.1 := by
      split <;> rfl
    rw [hkey] at hlt ⊢
    exact table.complete old hold k hpos hlt

structure Dictionary (h : IncHash Nat η) where
  table : IncHashTable h DictionaryNode
  traits : DictionaryTraits

structure SuffixDictionary (h : IncHash Nat η) where
  table : IncHashTable h SuffixDictionaryNode
  traits : DictionaryTraits

variable {h : IncHash Nat η}

def Dictionary.empty : Dictionary h := ⟨IncHashTable.empty, DictionaryTraits.empty⟩

def SuffixDictionary.empty : SuffixDictionary h := ⟨IncHashTable.empty, DictionaryTraits.empty⟩

/-- `GenericNGramTokenizer` の構築。語尾の辞書の `traits()` は読まれない。 -/
def Tokenizer.of (dict : Dictionary h) (suffixDict : SuffixDictionary h) : Tokenizer h :=
  ⟨dict.table, dict.traits.minEl, suffixDict.table⟩

/-- `while (std::getline(dict, line))` の読む行。 -/
def readLines : Bytes → List Bytes
  | [] => []
  | ch :: src => if ch = 0x0A then [] :: readLines src else (ch :: (readLines src).headD []) :: (readLines src).tail

def loadLine (outDict : Dictionary h) (line : Bytes) : Except LoadFault (Dictionary h) := do
  let (id, word, freq) ← parseDictionaryString line
  return ⟨outDict.table.insert word ⟨id, freq⟩, outDict.traits.add freq⟩

def load (dict : Bytes) (outDict : Dictionary h) : Except LoadFault (Dictionary h) :=
  (readLines dict).foldlM loadLine outDict

def loadSuffixLine (outDict : SuffixDictionary h) (line : Bytes) : Except LoadFault (SuffixDictionary h) := do
  let (suffix, len, freq) ← parseSuffixDictionaryString line
  let traits := outDict.traits.add freq
  match outDict.table.find suffix with
  | some _ => return ⟨outDict.table.modify suffix fun node => ⟨node.suffixes ++ [⟨len, freq⟩]⟩, traits⟩
  | none => return ⟨outDict.table.insert suffix ⟨[⟨len, freq⟩]⟩, traits⟩

def loadSuffixes (suffixDict : Bytes) (outDict : SuffixDictionary h) : Except LoadFault (SuffixDictionary h) :=
  (readLines suffixDict).foldlM loadSuffixLine outDict

end UnixCommons.Language.Polyglot
