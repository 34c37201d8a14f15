import UnixCommons.Generics.ArrayAutoPtr
import UnixCommons.Lib.Bytes
import UnixCommons.Lib.Cursor

/-!
# ファイルの流れの緩衝域

`FileStreamBuf.cpp` の `OutStreamBuf` と `InStreamBuf` の写しと、それを使う `std::streambuf` の操作。`IO` は失敗しない。
-/

namespace UnixCommons.Stream.File

open Lib
open Lib.Cursor (overwrite)
open Generics (arraySize resetArray)

/-! ## `std::char_traits<char>` -/

def eof : Int := -1

def toIntType (c : UInt8) : Int := c.toNat

def notEof (c : Int) : Int := if c = eof then 0 else c

/-! ## `OutStreamBuf` -/

/-- `buffer` は `pbase()` から `pptr()` までの文字、`written` は `IO::write` に渡した文字である。`buffer` は、`out_buffer_` に
確保した配列の中にある。 -/
structure OutStreamBuf where
  bufferSize : Nat
  buffer : Bytes
  written : Bytes
  positive : 0 < bufferSize
  fits : buffer.length ≤ arraySize bufferSize

namespace OutStreamBuf

def new (bufferSize : Nat) (h : 0 < bufferSize) : OutStreamBuf := ⟨bufferSize, [], [], h, Nat.zero_le _⟩

/-- 空でない `buffer` のある配列には、一文字を置ける。 -/
theorem fits_one (s : OutStreamBuf) (h : s.buffer ≠ []) : 1 ≤ arraySize s.bufferSize :=
  Nat.le_trans (List.length_pos_of_ne_nil h) s.fits

theorem fits_append (s : OutStreamBuf) (c : UInt8) (h : s.buffer.length < arraySize s.bufferSize) :
    (s.buffer ++ [c]).length ≤ arraySize s.bufferSize := by
  rw [List.length_append]
  exact h

/-- `overflow`。戻り値は `true` か `false` を `int_type` にした物である。`none` は、`assert` が成り立たないことである。 -/
def overflow (s : OutStreamBuf) (c : Int) : Option (OutStreamBuf × Int) :=
  if h : s.buffer = [] then
    none
  else
    let written := s.written ++ s.buffer
    if notEof c ≠ 0 then
      some ({ s with buffer := [UInt8.ofNat c.toNat], written, fits := s.fits_one h }, 1)
    else
      some ({ s with buffer := [], written, fits := Nat.zero_le _ }, 0)

/-- `sputc`。`epptr()` は `BUFFER_SIZE_` から決まり、配列の終わりではない。`none` は、配列の外に書くことでもある。 -/
def sputc (s : OutStreamBuf) (c : UInt8) : Option (OutStreamBuf × Int) :=
  if s.buffer.length < s.bufferSize then
    if h : s.buffer.length < arraySize s.bufferSize then
      some ({ s with buffer := s.buffer ++ [c], fits := s.fits_append c h }, toIntType c)
    else
      none
  else
    s.overflow (toIntType c)

def sputn (s : OutStreamBuf) : Bytes → Option OutStreamBuf
  | [] => some s
  | c :: cs =>
      match s.sputc c with
      | none => none
      | some (s, result) => if result = eof then some s else sputn s cs

def destroy (s : OutStreamBuf) : Bytes := if s.buffer ≠ [] then s.written ++ s.buffer else s.written

inductive Put
  | sputc (c : UInt8)
  | sputn (str : Bytes)
  deriving DecidableEq, Repr

def Put.bytes : Put → Bytes
  | .sputc c => [c]
  | .sputn str => str

def put (s : OutStreamBuf) : Put → Option OutStreamBuf
  | .sputc c => (s.sputc c).map (·.1)
  | .sputn str => s.sputn str

/-- 一生の間に `IO::write` に渡す文字。 -/
def lifetime (bufferSize : Nat) (h : 0 < bufferSize) (puts : List Put) : Option Bytes :=
  (puts.foldlM put (new bufferSize h)).map destroy

end OutStreamBuf

/-! ## `InStreamBuf` -/

structure InStreamBuf where
  bufferSize : Nat
  putBackSize : Nat
  buffer : Bytes
  eback : Nat
  gptr : Nat
  egptr : Nat
  deriving DecidableEq, Repr

namespace InStreamBuf

/-- `IO::read` が一度に読む限り。 -/
def readSize (s : InStreamBuf) : Nat := s.bufferSize - s.putBackSize

/-- 構築子。 -/
def new (bufferSize putBackSize : Nat) (memory : Nat → UInt8) : Option InStreamBuf :=
  if bufferSize ≤ putBackSize then none
  else some ⟨bufferSize, putBackSize, resetArray memory bufferSize, putBackSize, putBackSize, putBackSize⟩

/-- `underflow` の終わりまで。 -/
def refill (s : InStreamBuf) (read : Bytes) : InStreamBuf × Int :=
  let count := min (s.gptr - s.eback) s.putBackSize
  let buffer := if count ≠ 0 then overwrite s.buffer (s.putBackSize - count)
      ((s.buffer.drop (s.gptr - count)).take count) else s.buffer
  let buffer := overwrite buffer s.putBackSize read
  if read.length = 0 then
    ({ s with buffer }, eof)
  else
    ({ s with buffer, eback := s.putBackSize - count, gptr := s.putBackSize, egptr :=
      s.putBackSize + read.length }, toIntType (buffer.getD s.putBackSize 0))

/-- `underflow`。`none` は、`IO::read` が確保した配列の外に書くことである。 -/
def underflow (s : InStreamBuf) (read : Bytes) : Option (InStreamBuf × Int) :=
  if s.putBackSize + read.length ≤ s.buffer.length then some (s.refill read) else none

def current (s : InStreamBuf) : Int := toIntType (s.buffer.getD s.gptr 0)

def sgetc (s : InStreamBuf) (read : Bytes) : Option (InStreamBuf × Int) :=
  if s.gptr < s.egptr then some (s, s.current) else s.underflow read

def sbumpc (s : InStreamBuf) (read : Bytes) : Option (InStreamBuf × Int) :=
  if s.gptr < s.egptr then
    some ({ s with gptr := s.gptr + 1 }, s.current)
  else
    (s.underflow read).map fun r =>
      if r.2 = eof then (r.1, eof) else ({ r.1 with gptr := r.1.gptr + 1 }, r.1.current)

def sungetc (s : InStreamBuf) : InStreamBuf × Int :=
  if s.eback < s.gptr then
    let s := { s with gptr := s.gptr - 1 }
    (s, s.current)
  else
    (s, eof)

def sputbackc (s : InStreamBuf) (c : UInt8) : InStreamBuf × Int :=
  if s.eback < s.gptr ∧ s.buffer.getD (s.gptr - 1) 0 = c then
    let s := { s with gptr := s.gptr - 1 }
    (s, s.current)
  else
    (s, eof)

end InStreamBuf

/-! ## 読む操作の列 -/

/-- 緩衝域と、これから `IO::read` が読む文字の列と、最初の空の読み込みの前に読んだ文字。`ended` は空の読み込みがあったこと、`front` は最も進んだ位置である。 -/
structure Session where
  sb : InStreamBuf
  reads : List Bytes
  delivered : Bytes
  ended : Bool
  front : Nat
  deriving DecidableEq, Repr

/-- 読む操作。 -/
inductive Op
  | sgetc
  | sbumpc
  | sungetc
  | sputbackc (c : UInt8)
  deriving DecidableEq, Repr

namespace Session

def init (sb : InStreamBuf) (reads : List Bytes) : Session := ⟨sb, reads, [], false, 0⟩

/-- 次の `IO::read` の読む文字。 -/
def nextRead (s : Session) : Bytes := s.reads.headD []

def pos (s : Session) : Nat := s.delivered.length - (s.sb.egptr - s.sb.gptr)

/-- `underflow` を呼んだ後の、読んだ文字の記録。 -/
def recordRead (s : Session) : Session :=
  { s with
    reads := s.reads.tail
    delivered := if s.ended then s.delivered else s.delivered ++ s.nextRead
    ended := s.ended || s.nextRead.isEmpty }

def moved (s : Session) (sb : InStreamBuf) : Session :=
  let s := { s with sb }
  { s with front := max s.front s.pos }

/-- 操作の後の状態と、戻り値。 -/
def step (s : Session) : Op → Option (Session × Int)
  | .sgetc =>
      (s.sb.sgetc s.nextRead).map fun r =>
        ((if s.sb.gptr < s.sb.egptr then s else s.recordRead).moved r.1, r.2)
  | .sbumpc =>
      (s.sb.sbumpc s.nextRead).map fun r =>
        ((if s.sb.gptr < s.sb.egptr then s else s.recordRead).moved r.1, r.2)
  | .sungetc =>
      let (sb, result) := s.sb.sungetc
      some (s.moved sb, result)
  | .sputbackc c =>
      let (sb, result) := s.sb.sputbackc c
      some (s.moved sb, result)

/-- 最初の空の読み込みの後は、最後に読んだ文字の前へは戻らず、それから後の読み込みも空である。 -/
def Admits (s : Session) (op : Op) : Prop :=
  s.ended = true →
    match op with
    | .sgetc | .sbumpc => s.sb.gptr < s.sb.egptr ∨ s.nextRead = []
    | .sungetc | .sputbackc _ => s.sb.putBackSize < s.sb.gptr ∨ s.sb.gptr = s.sb.eback

instance (s : Session) (op : Op) : Decidable (s.Admits op) := by
  unfold Admits
  cases op <;> exact inferInstance

def charAt (bytes : Bytes) (i : Nat) : Int := (bytes[i]?).elim eof toIntType

/-- 操作の後の状態と戻り値が、読んだ文字の列の位置を正しく進めるか戻し、その位置の文字である。 -/
def Correct (s : Session) (op : Op) (s' : Session) (result : Int) : Prop :=
  match op with
  | .sgetc => s'.pos = s.pos ∧ result = charAt s'.delivered s.pos ∧ (result = eof → s'.ended = true)
  | .sbumpc =>
      s'.pos = min (s.pos + 1) s'.delivered.length ∧ result = charAt s'.delivered s.pos ∧ (result = eof → s'.ended = true)
  | .sungetc =>
      (s'.pos + 1 = s.pos ∧ result = charAt s.delivered s'.pos) ∨
        (s'.pos = s.pos ∧ result = eof ∧ (s.pos = 0 ∨ s.sb.putBackSize ≤ s.front - s.pos))
  | .sputbackc c =>
      (s'.pos + 1 = s.pos ∧ result = charAt s.delivered s'.pos ∧ result = toIntType c) ∨
        (s'.pos = s.pos ∧ result = eof ∧ (s.pos = 0 ∨ s.sb.putBackSize ≤ s.front - s.pos ∨ s.delivered[s.pos - 1]? ≠ some c))

def Right (s : Session) (op : Op) : Prop := ∃ s' result, s.step op = some (s', result) ∧ s.Correct op s' result

end Session

end UnixCommons.Stream.File
