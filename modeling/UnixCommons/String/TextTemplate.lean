import UnixCommons.Lib.Attempt
import UnixCommons.String.Lemmas.SubString

/-!
# 文字列の雛形

`TextTemplate.cpp` の `Basic`、`String`、`IStream`、`UpdateStrategy` の写し。項目は、読む範囲の文字で表す。
-/

namespace UnixCommons.String.TextTemplate

open Lib

/-! ## `Basic` -/

/-- 投げられる例外と、計算が止まる理由。`dangling` は、書き直された文字列を指す項目を読むことである。 -/
inductive Fault
  | emptyStartLexeme
  | emptyEndLexeme
  | invalidTemplate
  | unknownName (key : Bytes)
  | unableToRead
  | cannotOpen
  | outOfRange
  | search (fault : SubString.Fault)
  | dangling
  | fuel
  deriving DecidableEq, Repr

inductive Item
  | string (value : Bytes)
  | var (key : Bytes)
  deriving DecidableEq, Repr

/-- `get_argument`。 -/
abbrev ArgsCallback := Bytes → Option Bytes

def substr (str : Bytes) (pos count : Nat) : Except Fault Bytes :=
  if pos ≤ str.length then return (str.drop pos).take (min count (str.length - pos)) else throw .outOfRange

abbrev Outcome (α : Type) := List Item × Except Fault α

def readKey (endLexeme str : Bytes) (first : Nat) (items : List Item) : Outcome (Option Bytes) :=
  match SubString.find str endLexeme first with
  | .error fault => (items, throw (.search fault))
  | .ok last =>
      if last = SubString.npos then
        (items, throw .invalidTemplate)
      else
        match substr str first (last - first) with
        | .error fault => (items, throw fault)
        | .ok key => (items ++ [.var key], return some (← substr str (last + endLexeme.length) SubString.npos))

/-- `while` の一周。 -/
def turn (startLexeme endLexeme str : Bytes) (items : List Item) : Outcome (Option Bytes) :=
  match SubString.find str startLexeme 0 with
  | .error fault => (items, throw (.search fault))
  | .ok first =>
      if first = SubString.npos then
        (items ++ [.string str], return none)
      else
        match substr str 0 first with
        | .error fault => (items, throw fault)
        | .ok text => readKey endLexeme str (first + startLexeme.length) (items ++ [.string text])

def itemsLoop (startLexeme endLexeme : Bytes) : Nat → Bytes → List Item → Outcome Unit
  | 0, _, items => (items, throw .fuel)
  | fuel + 1, str, items =>
      if str = [] then
        (items, return ())
      else
        match turn startLexeme endLexeme str items with
        | (items, .error fault) => (items, throw fault)
        | (items, .ok none) => (items, return ())
        | (items, .ok (some str)) => itemsLoop startLexeme endLexeme fuel str items

def init (source startLexeme endLexeme : Bytes) : Outcome Unit :=
  if startLexeme = [] then
    ([], throw .emptyStartLexeme)
  else if endLexeme = [] then
    ([], throw .emptyEndLexeme)
  else
    itemsLoop startLexeme endLexeme (source.length + 1) source []

/-- `append_value`。`stale` であれば、空でない範囲は読めない。 -/
def Item.appendValue (stale : Bool) (callback : ArgsCallback) (dst : Bytes) : Item → Except Fault Bytes
  | .string value => if stale ∧ value ≠ [] then throw .dangling else return dst ++ value
  | .var key =>
      if stale ∧ key ≠ [] then
        throw .dangling
      else
        match callback key with
        | some result => return dst ++ result
        | none => throw (.unknownName key)

def instantiate (stale : Bool) (items : List Item) (callback : ArgsCallback) : Except Fault Bytes :=
  items.foldlM (fun dst item => item.appendValue stale callback dst) []

/-! ## `String` と `IStream` -/

/-- `String` の状態。`stale` は、項目を作った後に `text_template_` が書き直されたことである。 -/
structure Template where
  text : SubString
  items : List Item
  stale : Bool

/-- 入力の流れ。`broken` は、`bytes` の後が終わりではなく、読み込みの失敗であることである。 -/
structure Istream where
  bytes : SubString
  broken : Bool
  eof : Bool
  fail : Bool
  bad : Bool

def Istream.good (istr : Istream) : Bool := !istr.eof && !istr.fail && !istr.bad

def Istream.opened (bytes : SubString) : Istream := ⟨bytes, false, false, false, false⟩

def upToNul (str : SubString) : SubString :=
  ⟨str.bytes.takeWhile (· ≠ 0), Nat.lt_of_le_of_lt (List.takeWhile_prefix _).length_le str.size_lt⟩

/-- `std::getline(istr, str, '\0')` の後の `str` と、`eof()` と `bad()` の値。 -/
def Istream.getline (istr : Istream) (str : SubString) : SubString × Bool × Bool :=
  if istr.good then
    if 0 ∈ istr.bytes.bytes then (upToNul istr.bytes, false, false)
    else if istr.broken then (istr.bytes, false, true)
    else (istr.bytes, true, false)
  else
    (str, istr.eof, istr.bad)

/-- `Basic::init(text_template_, start_lexeme, end_lexeme)`。 -/
def parse (text : SubString) (startLexeme endLexeme : Bytes) : Template × Except Fault Unit :=
  let outcome := init text.bytes startLexeme endLexeme
  ({ text, items := outcome.1, stale := false }, outcome.2)

def initIStream (template : Template) (istr : Istream) (startLexeme endLexeme : Bytes) : Template × Except Fault Unit :=
  let (text, eof, bad) := istr.getline template.text
  if bad ∨ ¬ eof then
    ({ template with text, stale := template.stale || istr.good }, throw .unableToRead)
  else
    parse text startLexeme endLexeme

def Template.instantiate (template : Template) (callback : ArgsCallback) : Except Fault Bytes :=
  TextTemplate.instantiate template.stale template.items callback

/-- 雛形を作り直す呼び出し。`update` の `none` は、開けないファイルである。 -/
inductive Source
  | string (str : SubString)
  | istream (istr : Istream)
  | update (file : Option Istream)

structure Reload where
  source : Source
  startLexeme : Bytes
  endLexeme : Bytes

/-- `String::init`、`IStream::init`、`UpdateStrategy::update`。 -/
def Template.reload (template : Template) (call : Reload) : Template × Except Fault Unit :=
  match call.source with
  | .string str => parse str call.startLexeme call.endLexeme
  | .istream istr => initIStream template istr call.startLexeme call.endLexeme
  | .update none => (template, throw .cannotOpen)
  | .update (some istr) => initIStream template istr call.startLexeme call.endLexeme

/-! ## 雛形の分け方 -/

/-- `lexeme` の最初の現れで、文字列を分ける。 -/
def First (lexeme str before after : Bytes) : Prop :=
  str = before ++ lexeme ++ after ∧ ∀ before' after', str = before' ++ lexeme ++ after' → before.length ≤ before'.length

/-- 左から順に、開く語の前の文字列と鍵の組を読み、`rest` が残る。 -/
inductive Segments (startLexeme endLexeme : Bytes) : Bytes → List (Bytes × Bytes) → Bytes → Prop
  | done (str : Bytes) : Segments startLexeme endLexeme str [] str
  | key {str text opened key rest tail : Bytes} {segments : List (Bytes × Bytes)} (hopen : First startLexeme str text opened)
      (hclose : First endLexeme opened key rest) (hrest : Segments startLexeme endLexeme rest segments tail) :
      Segments startLexeme endLexeme str ((text, key) :: segments) tail

def Closed (startLexeme endLexeme source : Bytes) (segments : List (Bytes × Bytes)) (tail : Bytes) : Prop :=
  Segments startLexeme endLexeme source segments tail ∧ ¬ startLexeme <:+: tail

/-- `text` の後の開く語が、閉じる語を持たない。 -/
def Unclosed (startLexeme endLexeme source : Bytes) (segments : List (Bytes × Bytes)) (text : Bytes) : Prop :=
  ∃ rest opened, Segments startLexeme endLexeme source segments rest ∧
    First startLexeme rest text opened ∧ ¬ endLexeme <:+: opened

def substitute (value : Bytes → Bytes) (segments : List (Bytes × Bytes)) (tail : Bytes) : Bytes :=
  segments.flatMap (fun segment => segment.1 ++ value segment.2) ++ tail

def expand (callback : ArgsCallback) (tail : Bytes) : List (Bytes × Bytes) → Except Fault Bytes
  | [] => return tail
  | (text, key) :: segments =>
      match callback key with
      | some value => return text ++ value ++ (← expand callback tail segments)
      | none => throw (.unknownName key)

/-! ## 失敗した作り直し -/

/-- `str` を分けることに失敗した後に、組 `segments` と文字列 `tail` の項目が残る。 -/
def Leaves (startLexeme endLexeme str : Bytes) (segments : List (Bytes × Bytes)) (tail : Bytes) : Prop :=
  if startLexeme = [] ∨ endLexeme = [] then segments = [] ∧ tail = [] else Unclosed startLexeme endLexeme str segments tail

/-- 失敗した読み込みが、項目の読む範囲を変えないか、残る項目が前と同じである。`text` は、前の文字列である。 -/
def Istream.Keeps (istr : Istream) (startLexeme endLexeme text : Bytes)
    (segments : List (Bytes × Bytes)) (tail : Bytes) : Prop :=
  if istr.good then
    if 0 ∈ istr.bytes.bytes ∨ istr.broken then (∀ segment ∈ segments, segment = ([], [])) ∧ tail = []
    else Leaves startLexeme endLexeme istr.bytes.bytes segments tail
  else if istr.bad ∨ ¬ istr.eof then True
  else Leaves startLexeme endLexeme text segments tail

def Reload.Keeps (call : Reload) (text : Bytes) (segments : List (Bytes × Bytes)) (tail : Bytes) : Prop :=
  match call.source with
  | .string str => Leaves call.startLexeme call.endLexeme str.bytes segments tail
  | .istream istr => istr.Keeps call.startLexeme call.endLexeme text segments tail
  | .update none => True
  | .update (some istr) => istr.Keeps call.startLexeme call.endLexeme text segments tail

end UnixCommons.String.TextTemplate
