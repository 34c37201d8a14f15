import Mathlib

/-!
# 記憶域の流れ

`MemoryStream.tpp` の `InputMemoryBuffer` と `OutputMemoryBuffer` の写しと、比べる相手の、位置を持つ配列。確保は失敗しない。
-/

namespace UnixCommons.Stream.Memory

/-! ## 位置 -/

/-- `std::ios_base::openmode`。`other` は、`in` だけでも `out` だけでもない物である。 -/
inductive Openmode
  | input
  | output
  | other
  deriving DecidableEq, Repr

inductive Seekdir
  | beg
  | cur
  | last
  | other
  deriving DecidableEq, Repr

def addOffset (a b : Int) : Int := (a + b).bmod (2 ^ 64)

inductive Seek
  | seekoff (off : Int64) (way : Seekdir) (which : Openmode)
  | seekpos (pos : Int64) (which : Openmode)
  deriving DecidableEq

/-! ## `OutputMemoryBuffer` -/

variable {α : Type}

/-- `int` を取る `pbump` が溢れること。 -/
inductive Fault
  | pbump
  deriving DecidableEq, Repr

/-- `region` は `pbase()` から `epptr()` までの要素であり、書かれていない物は `none` である。 -/
structure OutputMemoryBuffer (α : Type) where
  region : List (Option α)
  pptr : Nat
  maxOffset : Nat

namespace OutputMemoryBuffer

def new (α : Type) (initialSize : Nat) : OutputMemoryBuffer α := ⟨List.replicate initialSize none, 0, 0⟩

def pbump (s : OutputMemoryBuffer α) (offset : Nat) : Except Fault (OutputMemoryBuffer α) :=
  if offset < 2 ^ 31 then return { s with pptr := offset } else throw .pbump

/-- `new_size` を倍にするループ。 -/
def newSizeLoop : Nat → Nat → Nat → Option Nat
  | 0, _, _ => none
  | fuel + 1, newSize, oldSize =>
      if newSize ≤ oldSize then
        let newSize := newSize * 2 % 2 ^ 64
        if newSize = 0 then none else newSizeLoop fuel newSize oldSize
      else
        some newSize

def extend (s : OutputMemoryBuffer α) : Except Fault (Option (OutputMemoryBuffer α)) :=
  match newSizeLoop 64 4096 s.region.length with
  | none => return none
  | some newSize => do
      let region := s.region ++ List.replicate (newSize - s.region.length) none
      return some (← pbump { s with region } s.pptr)

def overflow (s : OutputMemoryBuffer α) (c : Option α) : Except Fault (OutputMemoryBuffer α × Option α) := do
  match ← s.extend, c with
  | some s, some c => return ({ s with region := s.region.set s.pptr (some c), pptr := s.pptr + 1 }, some c)
  | some s, none => return (s, none)
  | none, _ => return (s, none)

def sputc (s : OutputMemoryBuffer α) (c : α) : Except Fault (OutputMemoryBuffer α × Option α) :=
  if s.pptr < s.region.length then
    return ({ s with region := s.region.set s.pptr (some c), pptr := s.pptr + 1 }, some c)
  else
    s.overflow (some c)

/-- `sputn`。`sputc` が `eof()` を返すまで、順に書く。 -/
def sputn (s : OutputMemoryBuffer α) : List α → Except Fault (OutputMemoryBuffer α × Nat)
  | [] => return (s, 0)
  | c :: cs => do
      match ← s.sputc c with
      | (s, none) => return (s, 0)
      | (s, some _) =>
          let (s, count) ← sputn s cs
          return (s, count + 1)

/-- `max_offset_` を改める。 -/
def consider (s : OutputMemoryBuffer α) : OutputMemoryBuffer α :=
  if s.maxOffset < s.pptr then { s with maxOffset := s.pptr } else s

def seekpos (s : OutputMemoryBuffer α) (pos : Int) (which : Openmode) : Except Fault (OutputMemoryBuffer α × Int) :=
  if which ≠ .output then
    return (s, -1)
  else
    let s := s.consider
    if pos < 0 ∨ (s.maxOffset : Int) < pos then
      return (s, -1)
    else do
      let s ← s.pbump pos.toNat
      return (s, pos)

def seekoff (s : OutputMemoryBuffer α) (off : Int) (way : Seekdir) (which : Openmode) : Except Fault
    (OutputMemoryBuffer α × Int) :=
  if which ≠ .output then
    return (s, -1)
  else
    let current := s.pptr
    let s := s.consider
    match way with
    | .beg => s.seekpos off which
    | .cur => s.seekpos (addOffset off current) which
    | .last => s.seekpos (addOffset s.maxOffset off) which
    | .other => return (s, -1)

def largest (s : OutputMemoryBuffer α) : Nat := max s.maxOffset s.pptr

def stored (s : OutputMemoryBuffer α) : List (Option α) := s.region.take s.largest

end OutputMemoryBuffer

inductive Op (α : Type)
  | sputc (c : α)
  | sputn (cs : List α)
  | seek (seek : Seek)

def Op.written : Op α → Nat
  | .sputc _ => 1
  | .sputn cs => cs.length
  | .seek _ => 0

inductive Result (α : Type)
  | char (c : Option α)
  | count (n : Nat)
  | position (pos : Int)
  deriving DecidableEq, Repr

def OutputMemoryBuffer.step (s : OutputMemoryBuffer α) : Op α → Except Fault (OutputMemoryBuffer α × Result α)
  | .sputc c => do
      let (s, c) ← s.sputc c
      return (s, .char c)
  | .sputn cs => do
      let (s, count) ← s.sputn cs
      return (s, .count count)
  | .seek (.seekoff off way which) => do
      let (s, pos) ← s.seekoff off.toInt way which
      return (s, .position pos)
  | .seek (.seekpos pos which) => do
      let (s, pos) ← s.seekpos pos.toInt which
      return (s, .position pos)

def OutputMemoryBuffer.run (s : OutputMemoryBuffer α) : List (Op α) → Except Fault (OutputMemoryBuffer α × List (Result α))
  | [] => return (s, [])
  | op :: ops => do
      let (s, result) ← s.step op
      let (s, results) ← run s ops
      return (s, result :: results)

/-! ## 位置を持つ配列 -/

structure ArrayCursor (α : Type) where
  items : List α
  pos : Nat
  deriving DecidableEq, Repr

namespace ArrayCursor

def write (s : ArrayCursor α) (c : α) : ArrayCursor α :=
  ⟨if s.pos < s.items.length then s.items.set s.pos c else s.items ++ [c], s.pos + 1⟩

/-- 行き先。 -/
def target (s : ArrayCursor α) (mode : Openmode) : Seek → Option Int
  | .seekoff off way which =>
      if which = mode then
        match way with
        | .beg => some off.toInt
        | .cur => some (off.toInt + s.pos)
        | .last => some (off.toInt + s.items.length)
        | .other => none
      else none
  | .seekpos pos which => if which = mode then some pos.toInt else none

def Reaches (s : ArrayCursor α) (target : Int) : Prop := 0 ≤ target ∧ target ≤ s.items.length

instance (s : ArrayCursor α) (target : Int) : Decidable (s.Reaches target) := inferInstanceAs (Decidable (_ ∧ _))

/-- 行き先が中にあれば、動いてその位置を返す。なければ、動かずに `-1` を返す。 -/
def seek (s : ArrayCursor α) (mode : Openmode) (op : Seek) : ArrayCursor α × Int :=
  match s.target mode op with
  | some target => if s.Reaches target then ({ s with pos := target.toNat }, target) else (s, -1)
  | none => (s, -1)

def step (s : ArrayCursor α) : Op α → ArrayCursor α × Result α
  | .sputc c => (s.write c, .char (some c))
  | .sputn cs => (cs.foldl write s, .count cs.length)
  | .seek op => ((s.seek .output op).1, .position (s.seek .output op).2)

def run (s : ArrayCursor α) : List (Op α) → ArrayCursor α × List (Result α)
  | [] => (s, [])
  | op :: ops => ((run (s.step op).1 ops).1, (s.step op).2 :: (run (s.step op).1 ops).2)

/-- 位置から `n` 個までの要素を読み、進む。 -/
def read (s : ArrayCursor α) (n : Nat) : ArrayCursor α × List α :=
  ({ s with pos := s.pos + ((s.items.drop s.pos).take n).length }, (s.items.drop s.pos).take n)

end ArrayCursor

/-! ## `InputMemoryBuffer` -/

/-- `data` は `eback()` から `egptr()` までの要素である。 -/
structure InputMemoryBuffer (α : Type) where
  data : List α
  gptr : Nat
  size_lt : data.length < 2 ^ 63

namespace InputMemoryBuffer

def new (data : List α) (h : data.length < 2 ^ 63) : InputMemoryBuffer α := ⟨data, 0, h⟩

def underflow (s : InputMemoryBuffer α) : Option α := s.data[s.gptr]?

def sgetc (s : InputMemoryBuffer α) : Option α := if s.gptr < s.data.length then s.data[s.gptr]? else s.underflow

def sgetn (s : InputMemoryBuffer α) : Nat → InputMemoryBuffer α × List α
  | 0 => (s, [])
  | n + 1 =>
      match s.sgetc with
      | none => (s, [])
      | some c =>
          let (s, cs) := sgetn { s with gptr := s.gptr + 1 } n
          (s, c :: cs)

def seekpos (s : InputMemoryBuffer α) (pos : Int) (which : Openmode) : InputMemoryBuffer α × Int :=
  if which ≠ .input then (s, -1)
  else if pos < 0 ∨ (s.data.length : Int) < pos then (s, -1)
  else (s, pos)

def seekoff (s : InputMemoryBuffer α) (off : Int) (way : Seekdir) (which : Openmode) : InputMemoryBuffer α × Int :=
  if which ≠ .input then
    (s, -1)
  else
    match way with
    | .beg => s.seekpos off which
    | .cur => s.seekpos (addOffset off s.gptr) which
    | .last => s.seekpos (addOffset s.data.length off) which
    | .other => (s, -1)

def seek (s : InputMemoryBuffer α) : Seek → InputMemoryBuffer α × Int
  | .seekoff off way which => s.seekoff off.toInt way which
  | .seekpos pos which => s.seekpos pos.toInt which

end InputMemoryBuffer

/-- 読む側の操作。 -/
inductive InputOp
  | sgetc
  | sgetn (n : Nat)
  | seek (seek : Seek)
  deriving DecidableEq

abbrev Pair (α : Type) := InputMemoryBuffer α × ArrayCursor α

def Pair.step (s : Pair α) : InputOp → Option (Pair α)
  | .sgetc => some s
  | .sgetn n => some ((s.1.sgetn n).1, (s.2.read n).1)
  | .seek op => some ((s.1.seek op).1, (s.2.seek .input op).1)

/-- 同じ要素の同じ位置にあり、どの読み込みも、どの移動の戻り値も同じである。 -/
structure Pair.Agrees (s : Pair α) : Prop where
  position : s.1.gptr = s.2.pos
  sgetc : s.1.sgetc = s.2.items[s.2.pos]?
  sgetn : ∀ n, (s.1.sgetn n).2 = (s.2.read n).2
  seek : ∀ op, (s.1.seek op).2 = (s.2.seek .input op).2

def Pair.Stays (s : Pair α) (op : InputOp) : Prop :=
  match op with
  | .seek op => ∀ target ∈ s.2.target .input op, s.2.Reaches target → target = s.2.pos
  | _ => True

end UnixCommons.Stream.Memory
