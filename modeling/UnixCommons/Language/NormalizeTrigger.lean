import Mathlib.Data.List.Lex
import Mathlib.Data.List.Sort
import Mathlib.Data.Prod.Lex
import UnixCommons.Lib.Area
import UnixCommons.String.SubString

/-!
# トリガーの正規化

`NormalizeTrigger.cpp` の写しと、正確でないトリガーの文法。
-/

namespace UnixCommons.Language.NormalizeTrigger

/-! ## トリガーの正規化

`NormalizeTrigger.cpp` の写し。文字を指すポインタは、終わりまでの残りのバイトの並びで表す。`String::case_change<Simplify>` と、語に切る
`segmentor` は、別の所にあるので、引数とする。
-/

section

open Lib String.SubString

/-! ## データ -/

abbrev Part := Bytes × Bool

structure Split where
  exact : Bool
  parts : List Part
  deriving DecidableEq, Repr

structure TriggerPart where
  part : Bytes
  quotes : Bool
  deriving DecidableEq, Repr

structure Trigger where
  trigger : Bytes
  exact : Bool
  parts : List TriggerPart
  deriving DecidableEq, Repr

/-- `Exception` の文。`before` と `after` の間に、元のトリガーが入る。 -/
structure Exception where
  before : String
  trigger : Bytes
  after : String
  deriving DecidableEq, Repr

/-- `case_change<Simplify>` は、UTF-8 でない文字列で失敗する。`put_spaces` は、語の間に空白を入れる。 -/
structure Simplifier where
  caseChange : Bytes → Option Bytes
  putSpaces : Option (Bytes → Bytes)

def space : UInt8 := 32

def tab : UInt8 := 9

def quote : UInt8 := 34

def left : UInt8 := 91

def right : UInt8 := 93

/-! ## 探す位置 -/

/-- 通り過ぎた文字と、残り。 -/
def findQuote : Bytes → Option (Bytes × Bytes)
  | [] => some ([], [])
  | c :: cur =>
      if c = quote then some ([], c :: cur)
      else if c = left ∨ c = right then none
      else (findQuote cur).map fun r => (c :: r.1, r.2)

def findSpaceOrQuote (exact : Bool) : Bytes → Option (Bytes × Bytes)
  | [] => some ([], [])
  | c :: cur =>
      if c = space ∨ c = tab ∨ c = quote then some ([], c :: cur)
      else if c = left then none
      else if c = right then (if exact then some ([], c :: cur) else none)
      else (findSpaceOrQuote exact cur).map fun r => (c :: r.1, r.2)

/-- 空白を飛ばした残り。 -/
def next (cur : Bytes) : Bytes := cur.dropWhile fun c => c = space ∨ c = tab

/-! ## 空白を縮める -/

def skipSpaces (cur : Bytes) : Bytes := cur.tail.dropWhile (· = space)

/-- `for (;;)` のループ。`cur` は空白でない文字から始まる。内側の `do` は、次の空白までを写す。 -/
def shrinkLoop : Nat → Bytes → Bytes
  | 0, _ => []
  | fuel + 1, cur =>
      let word := cur.takeWhile (· ≠ space)
      let cur := cur.dropWhile (· ≠ space)
      if cur = [] then word
      else if skipSpaces cur = [] then word
      else word ++ space :: shrinkLoop fuel (skipSpaces cur)

def shrink (str : Bytes) : Bytes :=
  let cur := if str.head? = some space then skipSpaces str else str
  if cur = [] then [] else shrinkLoop cur.length cur

def simplifyCommon (s : Simplifier) (trigger : Bytes) (name : String) (str : Bytes) : Except Exception Bytes :=
  match s.caseChange str with
  | none => throw ⟨"invalid UTF-8 symbol in " ++ name ++ " >", trigger, "<"⟩
  | some res =>
      match s.putSpaces with
      | none => return res
      | some putSpaces => if res = [] then return [] else return putSpaces res

def simplify (s : Simplifier) (trigger : Bytes) (name : String) (str : Bytes) : Except Exception Bytes := do
  let result ← simplifyCommon s trigger name str
  if result = [] then return result else return shrink result

/-! ## 部分に分ける -/

/-- `divide` の途中の値。`count` は部分の数、`size` は予約する大きさである。 -/
structure Division where
  parts : List Part
  count : UInt32
  size : UInt32
  deriving DecidableEq, Repr

/-- 正確なトリガーの部分を、空白で分けるループ。 -/
def splitWords (word : Bytes) : Bytes → List Bytes
  | [] => [word]
  | [c] => if c = space then [word] else [word ++ [c]]
  | c :: c' :: cur =>
      -- `begin = ++cur` の後の `++cur` は、語の始めの文字を調べずに進む。
      if c = space then word :: splitWords [c'] cur else splitWords (word ++ [c]) (c' :: cur)

/-- 一つの部分を加える。 -/
def Division.push (d : Division) (text : Bytes) (quotes : Bool) (extra : Nat) : Division :=
  { parts := d.parts ++ [(text, quotes)], count := d.count + 1, size := d.size + UInt32.ofNat (text.length + extra) }

def addPart (s : Simplifier) (trigger text : Bytes) (quotes exact : Bool) (d : Division) : Except Exception Division := do
  if text = [] then return d
  else
    let tmp ← simplify s trigger "trigger" text
    if tmp = [] then return d
    else if exact then return (splitWords [] tmp).foldl (fun d word => d.push word false 1) d
    else return d.push tmp quotes 3

/-- `divide` のループ。一回ごとに一文字以上進むので、回数は残りの長さを超えない。 -/
def divideLoop (s : Simplifier) (trigger : Bytes) (exact : Bool) : Nat → Bytes → Division → Except Exception Division
  | 0, _, d => return d
  | _ + 1, [], d => return d
  | fuel + 1, c :: cur, d => do
      if exact ∧ c = right then
        if next cur ≠ [] then throw ⟨"symbols after right bracket in trigger >", trigger, "<"⟩
        return d
      else
        let quotes : Bool := c = quote
        let (text, cur) ←
          if !exact && quotes then
            match findQuote cur with
            | some (_, []) => throw (Exception.mk "unpaired quote in trigger >" trigger "<")
            | none => throw ⟨"unexpected bracket in trigger >", trigger, "<"⟩
            | some (text, _ :: cur) => pure (text, cur)
          else
            -- 正確なトリガーでは、始めの引用符を、部分の一文字とする。
            match findSpaceOrQuote exact (if exact ∧ quotes then cur else c :: cur) with
            | none => throw ⟨"unexpected bracket in trigger >", trigger, "<"⟩
            | some (text, cur) => pure (if exact ∧ quotes then c :: text else text, cur)
        let d ← addPart s trigger text quotes exact d
        match next cur with
        | [] => if exact then throw ⟨"no right bracket in trigger >", trigger, "<"⟩ else return d
        | cur => divideLoop s trigger exact fuel cur d

def divide (s : Simplifier) (trigger : Bytes) : Except Exception (Split × Division) := do
  if trigger.length > 1024 then throw ⟨"trigger >", trigger, "< is too large"⟩
  match next trigger with
  | [] => return (⟨false, []⟩, ⟨[], 0, 0⟩)
  | c :: cur =>
      if c = left then
        match next cur with
        | [] => throw ⟨"no right bracket in trigger >", trigger, "<"⟩
        | cur =>
            let d ← divideLoop s trigger true cur.length cur ⟨[], 0, 1⟩
            return (⟨true, d.parts⟩, d)
      else
        let d ← divideLoop s trigger false (c :: cur).length (c :: cur) ⟨[], 0, 0⟩
        return (⟨false, d.parts⟩, d)

/-! ## 余分な部分を除く -/

/-- `big.find(small)` が見つけた最初の位置だけを調べる。`small` は空でない。 -/
def isSubstr (small big : Bytes) : Bool :=
  match lowest (occursAt big small) (big.length + 1) with
  | none => false
  | some pos =>
      if pos ≠ 0 ∧ big.getD (pos - 1) 0 ≠ space then false
      else decide (¬ (pos + small.length ≠ big.length ∧ big.getD (pos + small.length) 0 ≠ space))

/-- `itor` を、後にある部分の全てと比べる。`itor` を除くかどうかと、変わった `itor` と、残った後の部分を返す。 -/
def narrowOne (itor : Part) : List Part → Bool × Part × List Part
  | [] => (false, itor, [])
  | next :: rest =>
      let keep := fun (r : Bool × Part × List Part) => (r.1, r.2.1, next :: r.2.2)
      if itor.1.length = next.1.length then
        if itor.1 = next.1 then narrowOne (itor.1, if next.2 then true else itor.2) rest else keep (narrowOne itor rest)
      else if itor.1.length > next.1.length then
        if isSubstr next.1 itor.1 then narrowOne itor rest else keep (narrowOne itor rest)
      else
        if isSubstr itor.1 next.1 then (true, itor, next :: rest) else keep (narrowOne itor rest)

/-- `narrow` のループ。一回ごとに `itor` が除かれるか、一つ進む。 -/
def narrowLoop : Nat → List Part → List Part
  | 0, _ => []
  | _ + 1, [] => []
  | fuel + 1, itor :: rest =>
      match narrowOne itor rest with
      | (true, _, rest) => narrowLoop fuel rest
      | (false, itor, rest) => itor :: narrowLoop fuel rest

/-- `std::pair` の順序。文字列は、符号のないバイトの辞書式の順である。 -/
def partLe (a b : Part) : Prop := toLex (a.1.map UInt8.toNat, a.2) ≤ toLex (b.1.map UInt8.toNat, b.2)

instance : DecidableRel partLe := fun _ _ => inferInstanceAs (Decidable (_ ≤ _))

def narrow (parts : List Part) : List Part := (narrowLoop parts.length parts).insertionSort partLe

/-! ## 組み立て -/

def needsQuotes (exact : Bool) (p : Part) : Bool := !exact && p.1.contains space

def printPart (exact : Bool) (p : Part) : Bytes := if needsQuotes exact p then quote :: p.1 ++ [quote] else p.1

def printParts (exact : Bool) : List Part → Bytes
  | [] => []
  | [p] => printPart exact p
  | p :: parts => printPart exact p ++ space :: printParts exact parts

def combine (split : Split) : Bytes :=
  if split.exact then left :: printParts true split.parts ++ [right] else printParts false split.parts

def combineTrigger (split : Split) : Trigger where
  trigger := combine split
  exact := split.exact
  parts := split.parts.map fun p => ⟨p.1, needsQuotes split.exact p || p.2⟩

def normalize (s : Simplifier) (trigger : Bytes) : Except Exception Bytes := do
  let (split, d) ← divide s trigger
  if d.count = 0 then return []
  else return combine { split with parts := if split.exact then split.parts else narrow split.parts }

def normalizeTrigger (s : Simplifier) (trigger : Bytes) : Except Exception Trigger := do
  let (split, d) ← divide s trigger
  if d.count = 0 then return ⟨[], false, []⟩
  else return combineTrigger { split with parts := if split.exact then split.parts else narrow split.parts }

/-! ## 領域に書く組み立て

上の `combine` を、`std::string` の領域に一つずつ書き足す物として写す。`Trigger` の部分は、領域の中の位置である。
-/

/-- `itor` の前までを書く。 -/
def writeOpening (exact first : Bool) (itor : Part) (result : Area UInt8) : Area UInt8 :=
  let result := if first then result else result.append [space]
  if needsQuotes exact itor then result.append [quote] else result

def writeClosing (exact : Bool) (itor : Part) (result : Area UInt8) : Area UInt8 :=
  if needsQuotes exact itor then result.append [quote] else result

def combineStringLoop (exact : Bool) : Bool → List Part → Area UInt8 → Area UInt8
  | _, [], result => result
  | first, itor :: parts, result =>
      combineStringLoop exact false parts (writeClosing exact itor ((writeOpening exact first itor result).append itor.1))

def combineString (split : Split) (result : Area UInt8) : Area UInt8 :=
  let result := if split.exact then result.append [left] else result
  let result := combineStringLoop split.exact true split.parts result
  if split.exact then result.append [right] else result

/-- `part` は、領域の中を指す `SubString` である。 -/
structure StoredPart where
  part : Mark
  quotes : Bool
  deriving DecidableEq, Repr

structure StoredTrigger where
  trigger : Area UInt8
  exact : Bool
  parts : List StoredPart
  deriving DecidableEq, Repr

def combineStoredLoop (exact : Bool) : Bool → List Part → StoredTrigger → StoredTrigger
  | _, [], result => result
  | first, itor :: parts, result =>
      let trigger := writeOpening exact first itor result.trigger
      -- `CUR` は、`itor->first` を書き足す前に取る。
      let cur := trigger.mark itor.1.length
      let trigger := writeClosing exact itor (trigger.append itor.1)
      combineStoredLoop exact false parts
        { result with trigger, parts := result.parts ++ [⟨cur, needsQuotes exact itor || itor.2⟩] }

def combineStored (split : Split) (result : StoredTrigger) : StoredTrigger :=
  let result := if split.exact then { result with trigger := result.trigger.append [left] } else result
  let result := combineStoredLoop split.exact true split.parts result
  if split.exact then { result with trigger := result.trigger.append [right] } else result

def Split.narrowed (split : Split) : Split := { split with parts := if split.exact then split.parts else narrow split.parts }

def normalizeString (s : Simplifier) (trigger : Bytes) (result : Area UInt8) : Except Exception (Area UInt8) := do
  let (split, d) ← divide s trigger
  if d.count = 0 then return result.clear
  else return combineString split.narrowed (result.clear.reserve d.size.toNat)

def normalizeStored (s : Simplifier) (trigger : Bytes) (result : StoredTrigger) : Except Exception StoredTrigger := do
  let (split, d) ← divide s trigger
  if d.count = 0 then return ⟨result.trigger.clear, false, []⟩
  else return combineStored split.narrowed ⟨result.trigger.clear.reserve d.size.toNat, split.exact, []⟩

def StoredPart.view (trigger : Area UInt8) (p : StoredPart) : Option TriggerPart :=
  (trigger.read p.part).map fun part => ⟨part, p.quotes⟩

/-- 部分の位置から読んだトリガー。無効な位置があれば `none` である。 -/
def StoredTrigger.view (t : StoredTrigger) : Option Trigger :=
  (t.parts.mapM (StoredPart.view t.trigger)).map fun parts => ⟨t.trigger.text, t.exact, parts⟩

end

/-! ## トリガーの文法

正確でないトリガーを、部分の並びとその書き方として定める。部分は、引用符のない語か、引用符の中の文字列である。語の並びの中の、続いた語の並びを、
句と呼ぶ。
-/

section

open Lib

/-! ## 句 -/

def words (text : Bytes) : List Bytes := text.splitOn space

/-- `a` の語の並びが、`b` の語の並びの中に、続いて現れる。 -/
def Phrase (a b : Bytes) : Prop := words a <:+: words b

instance : DecidableRel Phrase := fun _ _ => inferInstanceAs (Decidable (_ <:+: _))

/-! ## 部分の並び -/

/-- 書かれた一つの部分。引用符も括弧も含まず、引用符のない部分は、空でなく、空白を含まない。 -/
structure Piece where
  quoted : Bool
  text : Bytes
  valid : ∀ c ∈ text, c ≠ quote ∧ c ≠ left ∧ c ≠ right ∧ (quoted = false → c ≠ space ∧ c ≠ tab)
  nonempty : quoted = false → text ≠ []

def Piece.print (p : Piece) : Bytes := if p.quoted then quote :: p.text ++ [quote] else p.text

def isBlank (c : UInt8) : Bool := c = space ∨ c = tab

def Delimited (rest : Bytes) : Prop := ∀ c ∈ rest.head?, isBlank c = true ∨ c = quote

/-- 部分の並びの書き方。部分の前後には、いくつでも空白を置くことができる。 -/
inductive Spells : List Piece → Bytes → Prop
  | nil {blanks : Bytes} : (∀ c ∈ blanks, isBlank c = true) → Spells [] blanks
  | cons {p : Piece} {ps : List Piece} {blanks rest : Bytes} : (∀ c ∈ blanks, isBlank c = true) →
      (p.quoted = false → Delimited rest) → Spells ps rest → Spells (p :: ps) (blanks ++ p.print ++ rest)

/-! ## 簡単にした部分 -/

/-- 一つの部分から得る物。簡単にすると空になる部分は、何も与えない。`none` は、簡単にすることに失敗することである。 -/
def Piece.part (s : Simplifier) (p : Piece) : Option (List Part) :=
  if p.text = [] then some []
  else
    match simplify s [] "trigger" p.text with
    | .error _ => none
    | .ok [] => some []
    | .ok (c :: text) => some [(c :: text, p.quoted)]

def Simplifies (s : Simplifier) (ps : List Piece) : Prop := ∀ p ∈ ps, p.part s ≠ none

def partsOf (s : Simplifier) (ps : List Piece) : List Part := ps.flatMap fun p => (p.part s).getD []

def SimplifiedWord (s : Simplifier) (word : Bytes) : Prop :=
  ∃ str text, simplify s [] "trigger" str = .ok text ∧ text ≠ [] ∧ word ∈ words text

/-- `case_change` は、元の十一倍の領域に書く。`put_spaces` は空白を入れるだけであり、何倍にもしない。 -/
structure Simplifier.Bounded (s : Simplifier) : Prop where
  caseChange : ∀ str res, s.caseChange str = some res → res.length ≤ 11 * str.length
  putSpaces : ∀ putSpaces ∈ s.putSpaces, ∀ text, (putSpaces text).length ≤ 2 ^ 18 * text.length

/-- 簡単にした文字列は、引用符も括弧もタブも含まず、その語を空白でつないだ文字列は、簡単にしても変わらない。 -/
structure Tidy (s : Simplifier) : Prop where
  plain : ∀ str text, simplify s [] "trigger" str = .ok text → ∀ c ∈ text, c ≠ quote ∧ c ≠ left ∧ c ≠ right ∧ c ≠ tab
  fixed : ∀ ws, ws ≠ [] → (∀ w ∈ ws, SimplifiedWord s w) →
    simplify s [] "trigger" ([space].intercalate ws) = .ok ([space].intercalate ws)

/-! ## 並べ方 -/

def Maximal (parts : List Part) (m : Part) : Prop := ∀ b ∈ parts, Phrase m.1 b.1 → b.1 = m.1

instance (parts : List Part) : DecidablePred (Maximal parts) := fun _ => inferInstanceAs (Decidable (∀ _ ∈ _, _))

/-- 他の部分の句である部分はどれも、他の部分の句でない部分の一つの中に、`is_substr` で見つかる。 -/
def Sheltered (parts : List Part) : Prop :=
  ∀ a ∈ parts, ¬ Maximal parts a → ∃ m ∈ parts, Maximal parts m ∧ isSubstr a.1 m.1 = true

instance : DecidablePred Sheltered := fun _ => inferInstanceAs (Decidable (∀ _ ∈ _, _))

def Irredundant (parts : List TriggerPart) : Prop :=
  parts.Pairwise fun a b => ¬ Phrase a.part b.part ∧ ¬ Phrase b.part a.part

instance : DecidablePred Irredundant := fun _ => inferInstanceAs (Decidable (List.Pairwise _ _))

def Covered (parts : List Part) (result : List TriggerPart) : Prop := ∀ a ∈ parts, ∃ b ∈ result, Phrase a.1 b.part

/-- 部分をどのように並べ替えて書いても、正規化の結果は同じであり、余分な部分がなく、全ての部分を覆う。 -/
def OrderIndependent (s : Simplifier) (ps : List Piece) (T : Bytes) : Prop :=
  ∀ qs T', qs.Perm ps → Spells qs T' → T'.length ≤ 1024 →
    (∀ r, normalizeTrigger s T' = .ok r ↔ normalizeTrigger s T = .ok r) ∧
    (∀ r, normalize s T' = .ok r ↔ normalize s T = .ok r) ∧
      ∀ r, normalizeTrigger s T' = .ok r → Irredundant r.parts ∧ Covered (partsOf s qs) r.parts

end

end UnixCommons.Language.NormalizeTrigger
