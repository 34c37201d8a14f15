import UnixCommons.Generics.ArrayAutoPtr
import UnixCommons.Lib.Bytes
import UnixCommons.Lib.Cursor

/-!
# 記述子の読み込み

`Listener.cpp` の `DescriptorListener` の写し。出来事の輪は、登録された記述子の `handle_read_` を一つずつ呼ぶ。`read` の結果は、どれでも起こり得る。
-/

namespace UnixCommons.Generics.Listener

open Lib
open Lib.Cursor (between overwrite)
open Generics (arraySize resetArray)

/-! ## 読み込みと呼び出し -/

def newline : UInt8 := 10

/-- `read` の結果。`error` は `EINTR` でも `EAGAIN` でもない `errno` である。 -/
inductive ReadResult
  | data (bytes : Bytes)
  | eintr
  | eagain
  | eof
  | error (errno : Int)
  deriving DecidableEq, Repr

/-- `asked` バイトまでの読み込みで起こり得る結果。 -/
def ReadResult.Possible (asked : Nat) : ReadResult → Prop
  | .data bytes => 0 < bytes.length ∧ bytes.length ≤ asked
  | _ => True

instance (asked : Nat) (result : ReadResult) : Decidable (result.Possible asked) := by
  unfold ReadResult.Possible
  cases result <;> exact inferInstance

/-- `read` と、`callback_` の呼び出しの記録。 -/
inductive Event
  | read (fd : Int) (index asked : Nat) (result : ReadResult)
  | dataReady (fd : Int) (index : Nat) (str : Bytes)
  | closed (fd : Int) (index : Nat) (error : Int)
  | allClosed
  deriving DecidableEq, Repr

/-! ## `DescriptorActionContext` -/

/-- `readEvent` は、`read_event` が登録されていることである。 -/
structure DescriptorActionContext where
  descriptor : Int
  buffer : Bytes
  usedBuffer : Nat
  readEvent : Bool
  deriving DecidableEq, Repr

def DescriptorActionContext.init (descriptor : Int) (memory : Nat → UInt8) (bufferSize : Nat) :
    DescriptorActionContext :=
  ⟨descriptor, resetArray memory bufferSize, 0, true⟩

def memchr (buffer : Bytes) (chunk res : Nat) : Option Nat :=
  ((between buffer chunk (chunk + res)).findIdx? (· = newline)).map (chunk + ·)

/-- 行を渡すループ。渡す行と、`line_start`、`chunk`、`res` の終わりの値を返す。`res` は毎回減るので、`fuel` は `res` で足りる。 -/
def linesLoop (buffer : Bytes) : Nat → Nat → Nat → Nat → List Bytes × Nat × Nat × Nat
  | 0, lineStart, chunk, res => ([], lineStart, chunk, res)
  | fuel + 1, lineStart, chunk, res =>
      match memchr buffer chunk res with
      | none => ([], lineStart, chunk, res)
      | some lineEnd =>
          let (lines, rest) := linesLoop buffer fuel (lineEnd + 1) (lineEnd + 1) (res - (lineEnd - chunk + 1))
          (between buffer lineStart (lineEnd + 1) :: lines, rest)

/-- 読んだ文字を `buffer` に置き、渡す物を返す。 -/
def DescriptorActionContext.consume (context : DescriptorActionContext) (buffersLength : Nat)
    (fullLinesOnly : Bool) (bytes : Bytes) : DescriptorActionContext × List Bytes :=
  if fullLinesOnly then
    let buffer := overwrite context.buffer context.usedBuffer bytes
    let (lines, lineStart, chunk, res) := linesLoop buffer bytes.length 0 context.usedBuffer bytes.length
    if context.usedBuffer + res = buffersLength then
      ({ context with buffer, usedBuffer := 0 }, lines ++ [between buffer lineStart (lineStart + buffersLength)])
    else if chunk ≠ context.usedBuffer then
      ({ context with buffer := overwrite buffer 0 (between buffer chunk (chunk + res)), usedBuffer := res }, lines)
    else
      ({ context with buffer, usedBuffer := context.usedBuffer + res }, lines)
  else
    let buffer := overwrite context.buffer 0 bytes
    ({ context with buffer }, [between buffer 0 bytes.length])

/-! ## `DescriptorListener` -/

def DescriptorActionContext.writePos (context : DescriptorActionContext) (fullLinesOnly : Bool) : Nat :=
  if ¬ fullLinesOnly then 0 else context.usedBuffer

/-- `running` は、`handle_read_` が動いている記述子である。`outside` は、確保した配列の外に書いたことである。 -/
structure DescriptorListener where
  buffersLength : Nat
  fullLinesOnly : Bool
  readContexts : List DescriptorActionContext
  closedDescriptors : Nat
  running : Option Nat
  trace : List Event
  outside : Bool
  deriving DecidableEq, Repr

namespace DescriptorListener

/-- 構築子。`none` は `InvalidArgument` である。`read_contexts_` の要素も、`ArrayAutoPtr` に確保される。 -/
def new (descriptors : List (Int × (Nat → UInt8))) (buffersSize : Nat) (fullLinesOnly : Bool) :
    Option DescriptorListener :=
  if buffersSize = 0 then none
  else some ⟨buffersSize, fullLinesOnly, descriptors.map fun d => .init d.1 d.2 buffersSize,
    0, none, [], decide (arraySize descriptors.length < descriptors.length)⟩

def asked (s : DescriptorListener) (context : DescriptorActionContext) : Nat :=
  if ¬ s.fullLinesOnly then s.buffersLength else s.buffersLength - context.usedBuffer

/-- `event_del` から後。 -/
def close (s : DescriptorListener) (i : Nat) (context : DescriptorActionContext) (error : Int) : DescriptorListener :=
  let rest := if context.usedBuffer ≠ 0
      then [.dataReady context.descriptor i (context.buffer.take context.usedBuffer)] else []
  let closedDescriptors := s.closedDescriptors + 1
  { s with
    readContexts := s.readContexts.set i { context with readEvent := false }
    closedDescriptors
    running := none
    trace := s.trace ++ rest ++ [.closed context.descriptor i error] ++ if closedDescriptors =
      s.readContexts.length then [.allClosed] else [] }

def handleRead (s : DescriptorListener) (i : Nat) (context : DescriptorActionContext)
    (result : ReadResult) : DescriptorListener :=
  let s := { s with trace := s.trace ++ [.read context.descriptor i (s.asked context) result] }
  match result with
  | .eintr => s
  | .eagain => { s with running := none }
  | .error errno => s.close i context errno
  | .eof => s.close i context 0
  | .data bytes =>
      let outside := decide (context.buffer.length < context.writePos s.fullLinesOnly + bytes.length)
      let (context, strs) := context.consume s.buffersLength s.fullLinesOnly bytes
      { s with
        readContexts := s.readContexts.set i context
        trace := s.trace ++ strs.map (.dataReady context.descriptor i)
        outside := s.outside || outside }

/-- 出来事の輪が `handle_read_` を呼ぶことと、動いている `handle_read_` の一回の `read`。 -/
inductive Action
  | ready (i : Nat)
  | read (result : ReadResult)
  deriving DecidableEq, Repr

def step (s : DescriptorListener) : Action → Option DescriptorListener
  | .ready i =>
      match s.running, s.readContexts[i]? with
      | none, some context => if context.readEvent then some { s with running := some i } else none
      | _, _ => none
  | .read result =>
      match s.running with
      | some i =>
          match s.readContexts[i]? with
          | some context => if result.Possible (s.asked context) then some (s.handleRead i context result) else none
          | none => none
      | none => none

end DescriptorListener

/-! ## 記述子毎の記録 -/

namespace Event

def index : Event → Option Nat
  | .read _ index _ _ | .dataReady _ index _ | .closed _ index _ => some index
  | .allClosed => none

def received : Event → Bytes
  | .read _ _ _ (.data bytes) => bytes
  | _ => []

/-- `on_data_ready` に渡した文字。 -/
def delivered : Event → Option Bytes
  | .dataReady _ _ str => some str
  | _ => none

def IsClosed (e : Event) : Prop := ∃ fd index error, e = .closed fd index error

end Event

def eventsOf (i : Nat) (trace : List Event) : List Event := trace.filter (·.index = some i)

def stream (events : List Event) : Bytes := events.flatMap Event.received

def pieces (events : List Event) : List Bytes := events.filterMap Event.delivered

def IsLine (str : Bytes) : Prop := ∃ line, str = line ++ [newline] ∧ newline ∉ line

def IsBlock (n : Nat) (str : Bytes) : Prop := str.length = n ∧ newline ∉ str

end UnixCommons.Generics.Listener
