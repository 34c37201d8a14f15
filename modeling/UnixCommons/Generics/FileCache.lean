import UnixCommons.Lib.Machine

/-!
# ファイルのキャッシュ

`Generics/FileCache.hpp` の `Cache`、`BufferHolder`、`SimpleFileCheckStrategy` の写し。鍵 `mutex_` は持ち主を表し、`get` は鍵の下の一歩ずつと、
条件を待つ間とに分かれる。返した参照を放すことは、鍵の下の部分と、鍵を放した後に `Cache` を手放す部分とに分かれる。条件の待ちは、
知らせがなくても終わることがある。
-/

namespace UnixCommons.Generics.FileCache

open Lib

/-! ## 更新の検査 -/

/-- `object_is_changed`。新しい状態と、結果を返す。`none` は、例外である。 -/
abbrev CheckStrategy (σ ε : Type) := σ → ε → σ × Option Bool

/-- `SimpleFileCheckStrategy::object_is_changed`。入力は `stat` の `st_mtime` であり、`none` は失敗である。 -/
def SimpleFileCheckStrategy.objectIsChanged : CheckStrategy Int (Option Int)
  | lastModificationTime, none => (lastModificationTime, none)
  | lastModificationTime, some mtime =>
      if lastModificationTime < mtime then (mtime, some true) else (lastModificationTime, some false)

/-! ## 状態 -/

/-- `get` の呼び出しと、その返した参照の進み方。`checking`、`updating`、`sharing` の間は、鍵を持つ。`releasing` は、鍵を放した後に
`cache` を手放す前である。 -/
inductive Point
  | checking
  | waiting
  | updating
  | sharing
  | holding
  | releasing
  | finished
  deriving DecidableEq, Repr

def Point.inside : Point → Bool
  | .checking | .updating | .sharing => true
  | _ => false

/-- 呼び出しの出来事。`updated` は、`update` が終えたことである。 -/
inductive Event
  | started (i : Nat)
  | changed (i : Nat)
  | updated
  | returned (i : Nat)
  | threw (i : Nat)
  deriving DecidableEq, Repr

/-- `refCount` と `cache` は `BufferHolder` の、`cacheRefs` は `Cache` の数である。`buffer` と `unreferencedBuffer` は、それぞれの指す先がある
ことである。`users` は、呼び出し側の持つ `Cache` の参照の数、`log` は、新しい順の出来事である。 -/
structure State (σ : Type) where
  checker : σ
  mutex : Option Nat
  refCount : Nat
  cache : Bool
  destroyed : Bool
  buffer : Bool
  unreferencedBuffer : Bool
  cacheRefs : Nat
  users : Nat
  calls : List Point
  log : List Event
  deriving DecidableEq, Repr

variable {σ ε : Type}

def State.init (checker : σ) : State σ := ⟨checker, none, 1, false, false, false, true, 1, 1, [], []⟩

def State.holders (s : State σ) : Nat := s.calls.count .holding

/-! ## 操作 -/

inductive Action (ε : Type)
  | get
  | check (i : Nat) (input : ε)
  | wake (i : Nat)
  | update (i : Nat) (ok : Bool)
  | share (i : Nat)
  | copy (i : Nat)
  /-- `remove_ref_no_delete_` の、鍵の下の部分。 -/
  | release (i : Nat)
  /-- `remove_ref_no_delete_` の `cache` を手放す部分。 -/
  | releaseCache (i : Nat)
  | addUser
  | dropUser
  deriving Repr

def State.at (s : State σ) (i : Nat) (p : Point) : State σ := { s with calls := s.calls.set i p }

def State.note (s : State σ) (e : Event) : State σ := { s with log := e :: s.log }

/-- `Cache::remove_ref`。 -/
def State.removeCacheRef (s : State σ) : State σ :=
  let s := { s with cacheRefs := s.cacheRefs - 1 }
  if s.cacheRefs = 0 ∧ s.unreferencedBuffer then
    { s with unreferencedBuffer := false, refCount := s.refCount - 1, destroyed := s.refCount = 1 }
  else
    s

def State.resetBuffer (s : State σ) : State σ :=
  { s with unreferencedBuffer := s.buffer, refCount := s.refCount + 1, buffer := false }

/-- `BufferHolder::remove_ref_no_delete_` の鍵の下の部分。 -/
def State.removeRef (s : State σ) (i : Nat) : State σ :=
  let s := { s with refCount := s.refCount - 1 }
  if s.refCount ≠ 0 then
    s.at i .finished
  else if ¬ s.cache then
    { s.at i .finished with destroyed := true }
  else
    { s.at i .releasing with cache := false }.resetBuffer

/-- `get` の終わり。共有されている参照を数えるか、`unreferenced_buffer_` の参照を渡す。 -/
def State.shareBuffer (s : State σ) : State σ :=
  if s.buffer then
    { s with refCount := s.refCount + 1 }
  else
    { s with buffer := s.unreferencedBuffer, unreferencedBuffer := false, cache := true, cacheRefs := s.cacheRefs + 1 }

def step (objectIsChanged : CheckStrategy σ ε) (s : State σ) : Action ε → Option (State σ)
  | .get =>
      if s.mutex = none ∧ 0 < s.users then
        some { s.note (.started s.calls.length) with mutex := some s.calls.length, calls := s.calls ++ [.checking] }
      else
        none
  | .check i input =>
      if s.calls[i]? = some .checking then
        let r := objectIsChanged s.checker input
        let s := { s with checker := r.1 }
        match r.2 with
        | none => some { (s.at i .finished).note (.threw i) with mutex := none }
        | some false => some (s.at i .sharing)
        | some true =>
            if s.buffer then some { (s.at i .waiting).note (.changed i) with mutex := none }
            else some ((s.at i .updating).note (.changed i))
      else
        none
  | .wake i =>
      if s.calls[i]? = some .waiting ∧ s.mutex = none then
        some { s.at i (if s.buffer then .sharing else .updating) with mutex := some i }
      else
        none
  | .update i ok =>
      if s.calls[i]? = some .updating then
        if ok then some ((s.at i .sharing).note .updated)
          else some { (s.at i .finished).note (.threw i) with mutex := none }
      else
        none
  | .share i =>
      if s.calls[i]? = some .sharing
        then some { (s.at i .holding).shareBuffer.note (.returned i) with mutex := none } else none
  | .copy i =>
      if s.calls[i]? = some .holding
        then some { s with refCount := s.refCount + 1, calls := s.calls ++ [.holding] } else none
  | .release i => if s.calls[i]? = some .holding ∧ s.mutex = none then some (s.removeRef i) else none
  | .releaseCache i =>
      if s.calls[i]? = some .releasing ∧ (s.cacheRefs = 1 → s.mutex = none)
        then some (s.at i .finished).removeCacheRef else none
  | .addUser => if 0 < s.users then some { s with users := s.users + 1, cacheRefs := s.cacheRefs + 1 } else none
  | .dropUser =>
      -- 呼び出しの途中の `get` は、`Cache` の参照を持つ者が呼んでいる。
      if 0 < s.users ∧ (s.users = 1 → s.mutex = none ∧ .waiting ∉ s.calls)
        then some { s with users := s.users - 1 }.removeCacheRef else none

/-! ## 変わったことの知らせ -/

/-- 呼び出しが、変わったと知った後に、`update` が終えている。 -/
def served (log : List Event) (i : Nat) : Bool := (log.takeWhile (· != .changed i)).contains .updated

/-- 知らせに応えずに、`get` が終わる歩み。`update` が例外を投げるか、待ちを終えた時に緩衝域がまた共有されている。 -/
def dropped (s : State σ) : Action ε → Bool
  | .wake i => s.buffer && !served s.log i
  | .update i ok => !ok && !served s.log i
  | _ => false

end UnixCommons.Generics.FileCache
