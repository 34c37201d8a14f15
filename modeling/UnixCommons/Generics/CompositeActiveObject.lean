import UnixCommons.Lib.Machine

/-!
# 活動する物の合成

`ActiveObject.cpp` の `SimpleActiveObject` と `CompositeActiveObject.hpp` の
`CompositeActiveObjectBase` の写し。子は、`ActiveObject` の
約束を守る物であり、その状態だけを見る。鍵 `cond_` を持つ間の操作は一つの動作であり、鍵を放す `wait_object` は、いくつもの動作に
分かれる。ほかの操作は、任意の数の `wait_object` の途中に割り込む。
-/

namespace UnixCommons.Generics.CompositeActiveObject

open Lib

inductive ActiveState
  | active
  | deactivating
  | notActive
  deriving DecidableEq, Repr

/-! ## 一つの活動する物 -/

/-- `activate_object`。`AlreadyActive` を投げるならば `none` である。 -/
def ActiveState.activateObject : ActiveState → Option ActiveState
  | .notActive => some .active
  | _ => none

def ActiveState.deactivateObject : ActiveState → ActiveState
  | .active => .deactivating
  | state => state

/-- `wait_object` の最後の、状態を変える部分。 -/
def ActiveState.waited : ActiveState → ActiveState
  | .deactivating => .notActive
  | state => state

variable {κ : Type} [DecidableEq κ]

def setObject (objects : κ → ActiveState) (child : κ) (state : ActiveState) : κ → ActiveState :=
  fun c => if c = child then state else objects c

/-! ## 子どもの操作 -/

/-- `wait_for_some_objects_`。活動している子を待って止まるならば `none` である。 -/
def waitForSomeObjects (objects : κ → ActiveState) : List κ → Option (κ → ActiveState)
  | [] => some objects
  | child :: rest =>
      if objects child = .active then none else waitForSomeObjects (setObject objects child (objects child).waited) rest

/-- `deactivate_object_`。 -/
def deactivateChildren (synchronous : Bool) (objects : κ → ActiveState) : List κ → (κ → ActiveState)
  | [] => objects
  | child :: rest =>
      let state := (objects child).deactivateObject
      deactivateChildren synchronous (setObject objects child (if synchronous then state.waited else state)) rest

/-- `activate_object_` のループ。活動を始めた子を、終わりから数えた並び `activated` に集める。全ての子が始めたかどうかも返す。 -/
def activateChildren (objects : κ → ActiveState) (activated : List κ) : List κ → (κ → ActiveState) × List κ × Bool
  | [] => (objects, activated, true)
  | child :: rest =>
      match (objects child).activateObject with
      | some state => activateChildren (setObject objects child state) (child :: activated) rest
      | none => (objects, activated, false)

/-! ## 状態 -/

/-- `wait_object` の進み方。`children` の `inside` は、並びの始めの子の `wait_object` が、活動の終わりを待つ部分を過ぎたことである。 -/
inductive WaitPoint (κ : Type)
  | entering
  | copying
  | children (rest : List κ) (inside : Bool)
  | returned
  deriving DecidableEq, Repr

/-- `wait_object` の一つの呼び出し。`stale` は、子の並びを写した後に、活動を始めたか、活動の中で加わった子があることである。 -/
structure Waiter (κ : Type) where
  point : WaitPoint κ
  stale : Bool
  deriving DecidableEq, Repr

structure State (κ : Type) where
  state : ActiveState
  childObjects : List κ
  objects : κ → ActiveState
  waiters : List (Waiter κ)

def State.init (objects : κ → ActiveState) : State κ := ⟨.notActive, [], objects, []⟩

def markStale (waiters : List (Waiter κ)) : List (Waiter κ) := waiters.map fun w => { w with stale := true }

/-! ## 鍵の下の操作 -/

/-- `activate_object`。活動しているか、止まる途中ならば、`AlreadyActive` を投げる。子が始められなければ、始めた子を止めて待つ。 -/
def State.activateObject (synchronous : Bool) (s : State κ) : Option (State κ) :=
  if s.state = .notActive then
    match activateChildren s.objects [] s.childObjects with
    | (objects, _, true) => some { s with state := .active, objects := objects, waiters := markStale s.waiters }
    | (objects, activated, false) => do
        let objects ← waitForSomeObjects (deactivateChildren synchronous objects activated) activated
        some { s with objects := objects }
  else
    some s

def State.deactivateObject (synchronous : Bool) (s : State κ) : State κ :=
  if s.state = .active then
    { s with state := .deactivating, objects := deactivateChildren synchronous s.objects s.childObjects.reverse }
  else
    s

/-- `add_child_object` の、子の状態を合成に合わせる部分。子が始められなければ `none` である。 -/
def State.adopt (child : κ) (s : State κ) : Option ActiveState :=
  if s.state = .active then
    if s.objects child = .active then some .active else (s.objects child).activateObject
  else if s.objects child = .active then
    some (s.objects child).deactivateObject.waited
  else
    some (s.objects child)

def State.addChildObject (child : κ) (addToHead : Bool) (s : State κ) : State κ :=
  match s.adopt child with
  | some state =>
      { s with
        childObjects := if addToHead then child :: s.childObjects else s.childObjects ++ [child]
        objects := setObject s.objects child state
        waiters := if s.state = .active then markStale s.waiters else s.waiters }
  | none => s

def State.clearChildren (synchronous : Bool) (s : State κ) : Option (State κ) :=
  if s.state ≠ .notActive then do
    let children := s.childObjects.reverse
    let objects ← waitForSomeObjects (deactivateChildren synchronous s.objects children) children
    some { s with state := .notActive, objects := objects, childObjects := [] }
  else
    some { s with childObjects := [] }

/-! ## 動作 -/

/-- 一つの動作。`wait` は、番号の呼び出しが次の点へ進むことである。 -/
inductive Action (κ : Type)
  | activate
  | deactivate
  | addChild (child : κ) (addToHead : Bool)
  | clearChildren
  | waitCall
  | wait (i : Nat)
  deriving DecidableEq, Repr

def State.waitStep (s : State κ) (i : Nat) (w : Waiter κ) : Option (State κ) :=
  match w.point with
  -- 条件変数は理由なく覚めることがあるので、活動していない時はいつでも先へ進める。
  | .entering => if s.state = .active then none
      else some { s with waiters := s.waiters.set i { w with point := .copying } }
  | .copying => some { s with waiters := s.waiters.set i ⟨.children s.childObjects.reverse false, false⟩ }
  | .children (child :: rest) false =>
      if s.objects child = .active then none
      else some { s with waiters := s.waiters.set i { w with point := .children (child :: rest) true } }
  | .children (child :: rest) true =>
      some { s with
        objects := setObject s.objects child (s.objects child).waited
        waiters := s.waiters.set i { w with point := .children rest false } }
  | .children [] _ =>
      some { s with state := s.state.waited, waiters := s.waiters.set i { w with point := .returned } }
  | .returned => none

def step (synchronous : Bool) (s : State κ) : Action κ → Option (State κ)
  | .activate => s.activateObject synchronous
  | .deactivate => some (s.deactivateObject synchronous)
  | .addChild child addToHead => some (s.addChildObject child addToHead)
  | .clearChildren => s.clearChildren synchronous
  | .waitCall => some { s with waiters := s.waiters ++ [⟨.entering, false⟩] }
  | .wait i => do s.waitStep i (← s.waiters[i]?)

end UnixCommons.Generics.CompositeActiveObject

/-!
## 例外を投げる子

`CompositeActiveObjectBase` の `activate_object_` の、失敗した時の後始末の写し。子のどの呼び出しも、`eh::Exception` を投げることがある。鍵の下で
変わる `state_` の途中の値は、外から見えない。
-/

namespace UnixCommons.Generics.CompositeActiveObject.Throwing

variable {κ : Type}

inductive Method
  | activateObject
  | deactivateObject
  | waitObject
  deriving DecidableEq, Repr

structure Call (κ : Type) where
  child : κ
  method : Method
  deriving DecidableEq, Repr

/-- 子の呼び出しが投げる例外の `what()`。投げなければ `none` である。 -/
abbrev Throws (κ : Type) := κ → Method → Option String

inductive Error
  | alreadyActive (what : String)
  | childException (what : String)
  deriving DecidableEq, Repr

/-- 行った呼び出しと、投げた例外の `what()`。 -/
structure Outcome (κ : Type) where
  calls : List (Call κ)
  thrown : Option String
  deriving DecidableEq, Repr

def Outcome.andThen (first second : Outcome κ) : Outcome κ :=
  match first.thrown with
  | some _ => first
  | none => ⟨first.calls ++ second.calls, second.thrown⟩

def invoke (throws : Throws κ) (child : κ) (method : Method) : Outcome κ := ⟨[⟨child, method⟩], throws child method⟩

/-- どの子でも `body` を行い、投げた例外の `what()` を `all_errors` に集めるループ。 -/
def collect (header : String) (body : κ → Outcome κ) (rit : List κ) : Outcome κ :=
  let allErrors := rit.foldl (fun allErrors child => (body child).thrown.elim allErrors (allErrors ++ · ++ "\n")) ""
  { calls := rit.flatMap fun child => (body child).calls
    thrown := if allErrors = "" then none else some (header ++ allErrors) }

def waitForSomeObjects (throws : Throws κ) (rit : List κ) : Outcome κ :=
  collect "Can't wait child active object. Caught eh::Exception:\n" (fun child => invoke throws child .waitObject) rit

/-- `deactivate_object_` のループの一回。 -/
def stopChild (throws : Throws κ) (synchronous : Bool) (child : κ) : Outcome κ :=
  (invoke throws child .deactivateObject).andThen (if synchronous then invoke throws child .waitObject else ⟨[], none⟩)

/-- `deactivate_object_`。 -/
def deactivateChildren (throws : Throws κ) (synchronous : Bool) (rit : List κ) : Outcome κ :=
  collect "Can't deactivate child active object. Caught eh::Exception:\n" (stopChild throws synchronous) rit

/-- `activate_object_` の `try` の中のループ。`it` の前までを、終わりから数えた並び `rit` として返す。 -/
def activateLoop (throws : Throws κ) (rit : List κ) : List κ → List κ × Outcome κ
  | [] => (rit, ⟨[], none⟩)
  | child :: rest =>
      match throws child .activateObject with
      | some what => (rit, ⟨[⟨child, .activateObject⟩], some what⟩)
      | none =>
          let (rit, outcome) := activateLoop throws (child :: rit) rest
          (rit, ⟨⟨child, .activateObject⟩ :: outcome.calls, outcome.thrown⟩)

structure Composite (κ : Type) where
  state : ActiveState
  childObjects : List κ
  deriving DecidableEq, Repr

/-- `activate_object` の後の合成と、行った呼び出しと、投げた例外。 -/
structure Activation (κ : Type) where
  composite : Composite κ
  calls : List (Call κ)
  thrown : Option Error
  deriving DecidableEq, Repr

/-- 失敗した時の後始末。`deactivate_object_` が投げれば、`wait_for_some_objects_` は行われない。 -/
def rollBack (throws : Throws κ) (synchronous : Bool) (rit : List κ) : Outcome κ :=
  (deactivateChildren throws synchronous rit).andThen (waitForSomeObjects throws rit)

/-- `SimpleActiveObject::activate_object` と `activate_object_`。 -/
def activateObject (throws : Throws κ) (synchronous : Bool) (c : Composite κ) : Activation κ :=
  if c.state = .notActive then
    match activateLoop throws [] c.childObjects with
    | (_, ⟨calls, none⟩) => ⟨{ c with state := .active }, calls, none⟩
    | (rit, ⟨calls, some what⟩) =>
        let outcome := rollBack throws synchronous rit
        ⟨{ c with state := .notActive }, calls ++ outcome.calls,
          some (.childException (what ++ outcome.thrown.getD ""))⟩
  else
    ⟨c, [], some (.alreadyActive "already active")⟩

end UnixCommons.Generics.CompositeActiveObject.Throwing
