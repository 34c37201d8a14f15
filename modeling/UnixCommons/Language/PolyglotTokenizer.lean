import Mathlib.Data.List.Basic
import Mathlib.Logic.Function.Basic
import UnixCommons.Lib.Cursor
import UnixCommons.String.Utf8Text

/-!
# 語に分ける

`Language/Polyglot/Tokenizer.hpp` の `SumWeightCollector`、`GenericNGramTokenizer::bi_tokenize`、`bi_tokenize_reconstruct` の写し。
`POLYGLOT_USE_BF` は定められていないとし、`next_node` は常に零であるので、持たない。重さは、溢れない整数とする。
-/

namespace UnixCommons.Language.Polyglot

/-! ## 一文字ずつ探す表

`Language/Polyglot/IncHashTable.hpp` の `IncHashTable` と `ConstFinder` の写し。鍵の途中のハッシュを別の表に持ち、探し続けるかを決める。
-/

section

variable {κ η α σ : Type} [DecidableEq κ] [DecidableEq η]

structure IncHash (κ η : Type) where
  start : η
  next : η → κ → η

def IncHash.hash (h : IncHash κ η) (word : List κ) : η := word.foldl h.next h.start

/-- `IncHashTable`。`interTable` は、どの鍵の途中のハッシュも含む。 -/
structure IncHashTable (h : IncHash κ η) (α : Type) where
  mainTable : List (List κ × α)
  interTable : List η
  complete : ∀ entry ∈ mainTable, ∀ k, 0 < k → k < entry.1.length → h.hash (entry.1.take k) ∈ interTable

namespace IncHashTable

variable {h : IncHash κ η}

omit [DecidableEq κ] [DecidableEq η] in
def empty : IncHashTable h α := ⟨[], [], fun _ hentry => absurd hentry List.not_mem_nil⟩

def find (table : IncHashTable h α) (key : List κ) : Option α := (table.mainTable.find? (·.1 = key)).map (·.2)

def interHashes (h : IncHash κ η) (word : List κ) : List η :=
  (List.range (word.length - 1)).map fun k => h.hash (word.take (k + 1))

omit [DecidableEq κ] [DecidableEq η] in
theorem mem_interHashes {word : List κ} {k : Nat} (hpos : 0 < k) (hlt : k < word.length) :
    h.hash (word.take k) ∈ interHashes h word := by
  refine List.mem_map.mpr ⟨k - 1, List.mem_range.mpr (by omega), ?_⟩
  rw [Nat.sub_add_cancel hpos]

def insert (table : IncHashTable h α) (word : List κ) (a : α) : IncHashTable h α where
  mainTable := if (table.find word).isSome then table.mainTable else table.mainTable ++ [(word, a)]
  interTable := interHashes h word ++ table.interTable
  complete := by
    intro entry hentry k hpos hlt
    have hold : entry ∈ table.mainTable → h.hash (entry.1.take k) ∈ interHashes h word ++ table.interTable := fun hmem =>
      List.mem_append_right _ (table.complete entry hmem k hpos hlt)
    split at hentry
    · exact hold hentry
    · rcases List.mem_append.mp hentry with hmem | hmem
      · exact hold hmem
      · cases List.mem_singleton.mp hmem
        exact List.mem_append_left _ (mem_interHashes hpos hlt)

/-- `ConstFinder::find` の答え。 -/
def continues (table : IncHashTable h α) (key : List κ) : Bool := decide (h.hash key ∈ table.interTable)

/-- `ConstFinder` に文字を一つずつ渡し、鍵になる度に `body` を行うループ。`key` は、渡した文字である。 -/
def scan (table : IncHashTable h α) (body : Nat → α → σ → σ) : List κ → List κ → Nat → σ → σ
  | _, [], _, s => s
  | key, c :: cs, j, s =>
      let key := key ++ [c]
      let s := match table.find key with
        | some a => body j a s
        | none => s
      if table.continues key then scan table body key cs (j + 1) s else s

end IncHashTable

end

section

/-! ## 辞書 -/

structure DictionaryNode where
  id : Nat
  freq : Int
  deriving DecidableEq, Repr

structure Suffix where
  length : UInt64
  freq : Int
  deriving DecidableEq, Repr

def Suffix.len (s : Suffix) : Int :=
  if s.length.toNat < 0x8000000000000000 then s.length.toNat
  else s.length.toNat - 0x10000000000000000

structure SuffixDictionaryNode where
  suffixes : List Suffix
  deriving DecidableEq, Repr

/-- `GenericNGramTokenizer` の持つ辞書。`minEl` は、辞書の `traits().min_el` である。 -/
structure Tokenizer {η : Type} (h : IncHash Nat η) where
  dict : IncHashTable h DictionaryNode
  minEl : Int
  suffixDict : IncHashTable h SuffixDictionaryNode

def isAsianChar (ch : Nat) : Bool :=
  [(0x1100, 0x11FA), (0x2E80, 0x2EF3), (0x2F00, 0x2FD6), (0x2FF0, 0x2FFC), (0x3041, 0x3100),
    (0x3105, 0x312E), (0x3131, 0x318F),
    (0x3190, 0x31B8), (0x31C0, 0x31E4), (0x31F0, 0x4DB6), (0x4E00, 0x9FBC), (0xAC00, 0xD7A4),
    (0xF900, 0xFADA), (0xFE10, 0xFE1A),
    (0xFE30, 0xFE50), (0x2F800, 0x2FA1E), (0x20000, 0x2A6D6)].any fun range => decide (range.1 ≤ ch) && decide (ch < range.2)

/-! ## `SumWeightCollector` -/

def start : Int := 0

def unknownSymbol (minEl weight : Int) : Int := minEl + 1 + weight

def unknownWordStart (minEl : Int) : Int := minEl + 1

def unknownWordStartFrom (minEl weight : Int) : Int := minEl + 1 + weight

def collect (weight freq : Int) : Int := weight + freq

/-! ## `BiTokenizePoint` -/

structure Variant where
  node : DictionaryNode
  weight : Int
  sepPos : Nat
  deriving DecidableEq, Repr

structure SuffixVariant where
  node : Suffix
  weight : Int
  sepPos : Nat
  deriving DecidableEq, Repr

structure BiTokenizePoint where
  weight : Int
  unkWeight : Int
  variants : List Variant
  suffixVariants : List SuffixVariant
  deriving DecidableEq, Repr

/-- `vec` は、位置から点への写像である。 -/
abbrev Points := Nat → BiTokenizePoint

/-! ## `bi_tokenize` -/

variable {η : Type} [DecidableEq η] {h : IncHash Nat η}

def addVariant (i j : Nat) (node : DictionaryNode) (vec : Points) : Points :=
  let weight := collect (vec (j + 1)).weight node.freq
  Function.update vec i { vec i with weight := max (vec i).weight weight, variants :=
    (vec i).variants ++ [⟨node, weight, j + 1⟩] }

def addSuffix (j : Nat) (s : Suffix) (vec : Points) : Points :=
  if s.len ≤ j + 1 then
    let weight := collect (vec (j + 1)).weight s.freq
    let p := (j + 1 - s.len).toNat
    Function.update vec p
      { vec p with weight := max (vec p).weight weight, suffixVariants := (vec p).suffixVariants ++ [⟨s, weight, j + 1⟩] }
  else vec

/-- `vec` の初めの値。 -/
def initPoints (minEl : Int) (length : Nat) : Points := fun p =>
  if p = length then ⟨start, unknownWordStart minEl, [], []⟩ else ⟨unknownWordStart minEl, unknownWordStart minEl, [], []⟩

def openPoint (minEl : Int) (length sepPos i : Nat) (vec : Points) : BiTokenizePoint :=
  let unk := if (vec (i + 1)).variants.isEmpty ∧ i + 1 ≠ length then unknownSymbol minEl (vec (i + 1)).weight
    else unknownWordStartFrom minEl (vec (i + 1)).weight
  let kept := (vec i).suffixVariants.filter (·.sepPos ≤ sepPos)
  { vec i with weight := kept.foldl (fun weight sv => max weight sv.weight) unk, unkWeight := unk, suffixVariants := kept }

/-- 一つの位置を調べる。 -/
def visit (t : Tokenizer h) (text : List Nat) (i : Nat) (s : Points × Nat) : Points × Nat :=
  let sepPos := if (text[i]?).all isAsianChar then s.2 else i
  let vec := Function.update s.1 i (openPoint t.minEl text.length sepPos i s.1)
  let vec := t.dict.scan (addVariant i) [] (text.drop i) i vec
  let vec := t.suffixDict.scan (fun j node vec => node.suffixes.foldl
      (fun vec s => addSuffix j s vec) vec) [] (text.drop i) i vec
  (vec, sepPos)

def visitLoop (t : Tokenizer h) (text : List Nat) : Nat → Points × Nat → Points × Nat
  | 0, s => s
  | i + 1, s => visitLoop t text i (visit t text i s)

def biTokenize (t : Tokenizer h) (text : List Nat) : Points :=
  (visitLoop t text text.length (initPoints t.minEl text.length, text.length)).1

/-! ## `bi_tokenize_reconstruct` -/

/-- 選ばれた切れ端。 -/
inductive Piece
  | unknown (first last : Nat)
  | word (node : DictionaryNode) (first last : Nat)
  | suffix (s : Suffix) (first last : Nat)
  deriving DecidableEq, Repr

def Piece.first : Piece → Nat
  | .unknown first _ => first
  | .word _ first _ => first
  | .suffix _ first _ => first

def Piece.last : Piece → Nat
  | .unknown _ last => last
  | .word _ _ last => last
  | .suffix _ _ last => last

def maxVariant : List Variant → Option Variant
  | [] => none
  | v :: vs => some (vs.foldl (fun m v => if m.weight < v.weight then v else m) v)

def maxSuffix : List SuffixVariant → Option SuffixVariant
  | [] => none
  | sv :: svs => some (svs.foldl (fun m sv => if m.weight < sv.weight then sv else m) sv)

def heavierSuffix (weight : Int) (svs : List SuffixVariant) : Option SuffixVariant :=
  (svs.foldl (fun m sv => if m.1 < sv.weight then (sv.weight, some sv) else m) (weight, none)).2

/-- 選ばれた切れ端と、その終わり。どの候補もなければ、`end()` を読む。 -/
def choosePiece (i : Nat) (point : BiTokenizePoint) : Option (Piece × Nat) :=
  match maxVariant point.variants with
  | some v =>
      match heavierSuffix v.weight point.suffixVariants with
      | some sv => some (.suffix sv.node i sv.sepPos, sv.sepPos)
      | none => some (.word v.node i v.sepPos, v.sepPos)
  | none => (maxSuffix point.suffixVariants).map fun sv => (.suffix sv.node i sv.sepPos, sv.sepPos)

def toInt (i : Nat) : Int := (i : Int).bmod 0x100000000

/-- `unknown_seq_i` からの知らない文字の列を、切れ端にする。始まりが文の外にあれば、`none` である。 -/
def flushUnknown (unknownSeq : Int) (last : Nat) : Option (List Piece) :=
  if unknownSeq = -1 then some []
  else if unknownSeq < 0 then none
  else some [.unknown unknownSeq.toNat last]

/-- `bi_tokenize_reconstruct` のループ。`fuel` が尽きるか、文の外を読むと `none` である。 -/
def reconstructLoop (length : Nat) (vec : Points) : Nat → Nat → Int → Option (List Piece)
  | 0, _, _ => none
  | fuel + 1, i, unknownSeq =>
      if i < length then
        if (vec i).unkWeight = (vec i).weight then
          reconstructLoop length vec fuel (i + 1) (if unknownSeq = -1 then toInt i else unknownSeq)
        else do
          let unknown ← flushUnknown unknownSeq i
          let (piece, last) ← choosePiece i (vec i)
          let rest ← reconstructLoop length vec fuel last (-1)
          return unknown ++ piece :: rest
      else flushUnknown unknownSeq length

/-- `bi_tokenize_reconstruct`。文は空でない。 -/
def biTokenizeReconstruct (text : List Nat) (vec : Points) : Option (List Piece) :=
  reconstructLoop text.length vec (text.length + 1) 0 (-1)

def Piece.weight (minEl : Int) : Piece → Int
  | .unknown first last => ((last - first : Nat) : Int) * (minEl + 1)
  | .word node _ _ => node.freq
  | .suffix s _ _ => s.freq

def totalWeight (minEl : Int) (pieces : List Piece) : Int := pieces.foldr (fun piece weight => piece.weight minEl + weight) 0

end

end UnixCommons.Language.Polyglot

/-!
## 文を分ける

`Language/Polyglot/Tokenizer.hpp` の `segment` と `put_spaces`、`NullNormalizeStrategy` の写し。`bi_tokenize` は、`vec` の添字を確かめながら
行う。`vec` は、文の文字の数より一つ多い点を持つ。
-/

namespace UnixCommons.Language.Polyglot

open Lib

/-- 計算が止まる理由。`utf8` は `utf8_to_wchar` の例外、`index` は `vec` の外に触れること、`stuck` は分け終わらないこと、
`range` は終わりが始まりより前の範囲か、空の文字列の終わりを読むことである。 -/
inductive Fault
  | utf8 (e : String.Utf8Text.Fault)
  | index
  | stuck
  | range
  deriving DecidableEq, Repr

def pointAt (length : Nat) (vec : Points) (i : Int) : Except Fault BiTokenizePoint :=
  if 0 ≤ i ∧ i ≤ length then return vec i.toNat else throw .index

def nextWordPos (length : Nat) (vec : Points) (pos : Nat) : Except Fault Nat := do
  let point ← pointAt length vec pos
  if point.variants.isEmpty ∧ pos < length then nextWordPos length vec (pos + 1) else return pos
termination_by length - pos

def addVariantAt (length i j : Nat) (node : DictionaryNode) (vec : Points) : Except Fault Points := do
  let _ ← nextWordPos length vec (j + 1)
  let _ ← pointAt length vec (j + 1)
  let _ ← pointAt length vec i
  return addVariant i j node vec

def addSuffixAt (length j : Nat) (s : Suffix) (vec : Points) : Except Fault Points :=
  if s.len ≤ j + 1 then do
    let _ ← pointAt length vec (j + 1)
    let _ ← pointAt length vec (j + 1 - s.len)
    return addSuffix j s vec
  else
    return vec

section

variable {η : Type} [DecidableEq η] {h : IncHash Nat η}

def visitAt (t : Tokenizer h) (text : List Nat) (i : Nat) (s : Points × Nat) : Except Fault (Points × Nat) := do
  let length := text.length
  let sepPos := if (text[i]?).all isAsianChar then s.2 else i
  let _ ← pointAt length s.1 (i + 1)
  let _ ← pointAt length s.1 i
  let vec := Function.update s.1 i (openPoint t.minEl length sepPos i s.1)
  let vec ← t.dict.scan (fun j node vec => vec >>= addVariantAt length i j node) [] (text.drop i) i (pure vec)
  let vec ← t.suffixDict.scan (fun j node vec => node.suffixes.foldl
      (fun vec s => vec >>= addSuffixAt length j s) vec) [] (text.drop i) i (pure vec)
  return (vec, sepPos)

def visitLoopAt (t : Tokenizer h) (text : List Nat) : Nat → Points × Nat → Except Fault (Points × Nat)
  | 0, s => return s
  | i + 1, s => visitAt t text i s >>= visitLoopAt t text i

def biTokenizeAt (t : Tokenizer h) (text : List Nat) : Except Fault Points := do
  let (vec, _) ← visitLoopAt t text text.length (initPoints t.minEl text.length, text.length)
  return vec

/-- 切れ端の UTF-8。 -/
def Piece.text (wstr : List Nat) (piece : Piece) : Except Fault Bytes :=
  if piece.first ≤ piece.last then return String.Utf8Text.wcharToUtf8 (Cursor.between wstr
    piece.first piece.last) else throw .range

/-- `res.push_back`。 -/
def pushPiece (wstr : List Nat) (res : List Bytes) (piece : Piece) : Except Fault (List Bytes) := do
  let wordUtf8 ← piece.text wstr
  match piece with
  | .unknown _ _ => return res ++ [wordUtf8]
  | .word _ _ _ | .suffix _ _ _ => if wordUtf8 ≠ [] then return res ++ [wordUtf8] else return res

def segmentWide (t : Tokenizer h) (wstr : List Nat) (res : List Bytes) : Except Fault (List Bytes) :=
  if wstr = [] then
    return res
  else do
    let vec ← biTokenizeAt t wstr
    match biTokenizeReconstruct wstr vec with
    | none => throw .stuck
    | some pieces => pieces.foldlM (pushPiece wstr) res

/-- `segment`。`wstring(w_in.get())` は、初めの零で終わる。 -/
def segment (t : Tokenizer h) (text : Bytes) (res : List Bytes) : Except Fault (List Bytes) := do
  let wIn ← (String.Utf8Text.utf8ToWchar text).mapError .utf8
  segmentWide t (wIn.takeWhile (· ≠ 0)) res

/-- 一つの語を加える。 -/
def putWord (s : Bytes × Bool) (word : Bytes) : Except Fault (Bytes × Bool) :=
  let res := if !s.2 ∧ word ≠ [] ∧ word.head? ≠ some 0x20 then s.1 ++ [0x20] else s.1
  match word.getLast? with
  | none => throw .range
  | some last => return (res ++ word, last = 0x20)

def putSpaces (t : Tokenizer h) (text : Bytes) : Except Fault Bytes := do
  let vres ← segment t text []
  let (res, _) ← vres.foldlM putWord ([], true)
  return res

end

end UnixCommons.Language.Polyglot
