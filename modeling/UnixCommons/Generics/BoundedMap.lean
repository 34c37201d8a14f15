import Mathlib
import UnixCommons.Lib.Assoc

/-!
# 大きさに上限のある連想配列

`BoundedMap.hpp` の写し。`container_` は鍵から項目への表、`queue_` は使われた順の並びであり、項目の `order` は `queue_` の中の
自分の節を指す。節は番号で区別する。`Time`、鍵、値の型と、大きさを決める `SizePolicy` は任意であり、時計の値と `SizePolicy` は
呼び出しごとに変わってよい。`size_t` の計算は `2 ^ 64` で切られる。
-/

namespace UnixCommons.Generics.BoundedMap

open Lib

/-- 計算が止まる理由。`dangling` は、`queue_` にない節を指す `order` を使うことである。 -/
inductive Fault
  | assertion
  | dangling
  deriving DecidableEq, Repr

/-- 統計。`int` の欄は、最も大きい値の次に、最も小さい値になるものとする。 -/
structure Stat where
  insertedNew : Int32
  insertExisting : Int32
  removedOutdated : Int32
  removedUpdated : Int32
  notInserted : Int32
  replaced : Int32
  deriving DecidableEq, Repr

structure Ordered (κ τ : Type) where
  node : Nat
  key : κ
  lastUsed : τ

structure Item (δ : Type) where
  data : δ
  size : Nat
  order : Nat

def sizeAdd (x y : Nat) : Nat := (x + y) % 2 ^ 64

def sizeSub (x y : Nat) : Nat := (x + (2 ^ 64 - y)) % 2 ^ 64

variable {κ δ τ : Type} [DecidableEq κ] [Add τ] [LT τ] [DecidableLT τ]

/-- `BoundedMap` の状態。`nextNode` は、次に作る節の番号である。 -/
structure State (κ δ τ : Type) where
  bound : Nat
  timeout : τ
  container : List (κ × Item δ)
  queue : List (Ordered κ τ)
  size : Nat
  stat : Stat
  nextNode : Nat

def State.init (bound : Nat) (timeout : τ) : State κ δ τ := ⟨bound, timeout, [], [], 0, ⟨0, 0, 0, 0, 0, 0⟩, 0⟩

def eraseNode (order : Nat) (queue : List (Ordered κ τ)) : Except Fault (List (Ordered κ τ)) :=
  if queue.any fun n => n.node = order then return queue.filter fun n => n.node ≠ order else throw .dangling

/-- `find_`。見つかった項目の節は、`queue_` の終わりへ移る。 -/
def State.findInner (key : κ) (now : τ) (m : State κ δ τ) : Except Fault (State κ δ τ × Option (Item δ)) :=
  match lookup key m.container with
  | none => return (m, none)
  | some item =>
      match m.queue.find? fun n => n.node = item.order with
      | none => throw .dangling
      | some n =>
          let queue := (m.queue.filter fun n => n.node ≠ item.order) ++ [{ n with lastUsed := now }]
          return ({ m with queue := queue }, some item)

/-- `insert_` の、古い項目を除くループ。 -/
def evictLoop (bound size : Nat) (timeout now : τ) :
    List (Ordered κ τ) → List (κ × Item δ) → Nat → Int32 →
      Except Fault (Bool × List (Ordered κ τ) × List (κ × Item δ) × Nat × Int32)
  | [], container, total, removed => return (¬ sizeAdd total size > bound, [], container, total, removed)
  | n :: queue, container, total, removed =>
      if sizeAdd total size > bound then
        if n.lastUsed + timeout > now then
          return (false, n :: queue, container, total, removed)
        else
          match lookup n.key container with
          | none => throw .assertion
          | some item => evictLoop bound size timeout now queue (eraseKey n.key container)
              (sizeSub total item.size) (removed + 1)
      else
        return (true, n :: queue, container, total, removed)

/-- 新しい項目を入れる `insert_`。`fails` は、項目を作る途中で例外が投げられることである。結果は、例外、または組
`(iterator, bool)` である。 -/
def State.insertInner (key : κ) (data : δ) (now : τ) (policy : κ → δ → Nat) (fails : Bool)
    (m : State κ δ τ) : Except Fault (State κ δ τ × Option (Option (κ × δ) × Bool)) :=
  let size := policy key data
  if size > m.bound then
    return ({ m with stat := { m.stat with notInserted := m.stat.notInserted + 1 } }, some (none, false))
  else do
    let (room, queue, container, total, removed) ←
      evictLoop m.bound size m.timeout now m.queue m.container m.size m.stat.removedOutdated
    let stat := { m.stat with removedOutdated := removed }
    if room then
      let order := m.nextNode
      let m := { m with size := total, stat := stat, nextNode := order + 1 }
      if fails then
        return ({ m with container := container, queue := ← eraseNode order (queue ++ [⟨order, key, now⟩]) }, none)
      else if (lookup key container).isSome then
        throw .assertion
      else
        return ({ m with
          container := container ++ [(key, ⟨data, size, order⟩)],
          queue := queue ++ [⟨order, key, now⟩],
          size := sizeAdd total size,
          stat := { stat with insertedNew := stat.insertedNew + 1 } }, some (some (key, data), true))
    else
      return ({ m with
        container := container, queue := queue, size := total,
        stat := { stat with notInserted := stat.notInserted + 1 } }, some (none, false))

/-- `update_` の、除く項目の範囲を決めるループ。 -/
def scanLoop (bound : Nat) (timeout now : τ) (container : List (κ × Item δ)) (own : Nat) :
    List (Ordered κ τ) → Nat → Except Fault (Option (Nat × Option Nat))
  | [], newSize => if newSize > bound then return none else return some (newSize, none)
  | n :: queue, newSize =>
      if newSize > bound then
        if n.lastUsed + timeout > now then
          return none
        else if n.node ≠ own then
          match lookup n.key container with
          | none => throw .assertion
          | some item => scanLoop bound timeout now container own queue (sizeSub newSize item.size)
        else
          scanLoop bound timeout now container own queue newSize
      else
        return some (newSize, some n.node)

/-- `update_` の、`order` の前の項目を除くループ。 -/
def removeLoop (own : Nat) (order : Option Nat) :
    List (Ordered κ τ) → List (κ × Item δ) → Int32 → List (Ordered κ τ) × List (κ × Item δ) × Int32
  | [], container, removed => ([], container, removed)
  | n :: queue, container, removed =>
      if some n.node = order then
        (n :: queue, container, removed)
      else if n.node ≠ own then
        removeLoop own order queue (eraseKey n.key container) (removed + 1)
      else
        let (queue, container, removed) := removeLoop own order queue container removed
        (n :: queue, container, removed)

def State.removeUpdated (key : κ) (item : Item δ) (m : State κ δ τ) : Except Fault (State κ δ τ × Bool) := do
  let queue ← eraseNode item.order m.queue
  return ({ m with
    container := eraseKey key m.container, queue := queue, size := sizeSub m.size item.size,
    stat := { m.stat with removedUpdated := m.stat.removedUpdated + 1 } }, false)

/-- `update_`。 -/
def State.updateInner (key : κ) (item : Item δ) (now : τ) (policy : κ → δ → Nat) (m : State κ δ τ) :
    Except Fault (State κ δ τ × Bool) :=
  let size := policy key item.data
  let newSize := sizeSub (sizeAdd m.size size) item.size
  if newSize ≤ m.bound then
    return ({ m with container := setKey key { item with size := size } m.container, size := newSize }, true)
  else if size > m.bound then
    m.removeUpdated key item
  else do
    match ← scanLoop m.bound m.timeout now m.container item.order m.queue newSize with
    | none => m.removeUpdated key item
    | some (newSize, order) =>
        let (queue, container, removed) := removeLoop item.order order m.queue m.container m.stat.removedOutdated
        return ({ m with
          container := setKey key { item with size := size } container, queue := queue, size := newSize,
          stat := { m.stat with removedOutdated := removed } }, true)

/-! ## 呼び出し -/

/-- 一つの呼び出し。`now` は時計の値、`policy` はその時の `SizePolicy` である。 -/
inductive Op (κ δ τ : Type)
  | insert (key : κ) (data : δ) (now : τ) (policy : κ → δ → Nat) (fails : Bool)
  | insertOrUpdate (key : κ) (data : δ) (now : τ) (policy : κ → δ → Nat) (fails : Bool)
  | find (key : κ) (now : τ)
  | update (key : κ) (now : τ) (policy : κ → δ → Nat)
  | erase (key : κ)
  | clear
  | bound (newBound : Nat)
  | timeout (newTimeout : τ)

def State.find (key : κ) (now : τ) (m : State κ δ τ) : Except Fault (State κ δ τ × Option (κ × δ)) := do
  let (m, found) ← m.findInner key now
  return (m, found.map fun item => (key, item.data))

def State.insert (key : κ) (data : δ) (now : τ) (policy : κ → δ → Nat) (fails : Bool)
    (m : State κ δ τ) : Except Fault (State κ δ τ × Option (Option (κ × δ) × Bool)) := do
  let (m, found) ← m.findInner key now
  match found with
  | some item =>
      return ({ m with stat := { m.stat with insertExisting := m.stat.insertExisting + 1 } },
        some (some (key, item.data), false))
  | none => m.insertInner key data now policy fails

/-- `insert_or_update` と、`operator []` への代入。 -/
def State.insertOrUpdate (key : κ) (data : δ) (now : τ) (policy : κ → δ → Nat) (fails : Bool)
    (m : State κ δ τ) : Except Fault (State κ δ τ) := do
  let (m, found) ← m.findInner key now
  match found with
  | some item =>
      let item := { item with data := data }
      let (m, replaced) ← { m with container := setKey key item m.container }.updateInner key item now policy
      return if replaced then { m with stat := { m.stat with replaced := m.stat.replaced + 1 } } else m
  | none => return (← m.insertInner key data now policy fails).1

def State.update (key : κ) (now : τ) (policy : κ → δ → Nat) (m : State κ δ τ) : Except Fault (State κ δ τ) :=
  match lookup key m.container with
  | none => return m
  | some item => return (← m.updateInner key item now policy).1

def State.erase (key : κ) (m : State κ δ τ) : Except Fault (State κ δ τ) :=
  match lookup key m.container with
  | none => return m
  | some item => do
      let queue ← eraseNode item.order m.queue
      return { m with container := eraseKey key m.container, queue := queue, size := sizeSub m.size item.size }

def State.step (m : State κ δ τ) : Op κ δ τ → Except Fault (State κ δ τ)
  | .insert key data now policy fails => return (← m.insert key data now policy fails).1
  | .insertOrUpdate key data now policy fails => m.insertOrUpdate key data now policy fails
  | .find key now => return (← m.find key now).1
  | .update key now policy => m.update key now policy
  | .erase key => m.erase key
  | .clear => return { m with container := [], queue := [], size := 0 }
  | .bound newBound => return { m with bound := newBound }
  | .timeout newTimeout => return { m with timeout := newTimeout }

def State.run (m : State κ δ τ) : List (Op κ δ τ) → Except Fault (State κ δ τ)
  | [] => return m
  | op :: ops => do (← m.step op).run ops

end UnixCommons.Generics.BoundedMap
