import Mathlib
import UnixCommons.Generics.CompositeActiveObject

/-!
# 仕事の列

`TaskRunner.cpp` の `TaskRunnerJob`、`ThreadRunner.cpp` の `ThreadRunner`、
`ActiveObject.cpp` の `ActiveObjectCommonImpl` の写し。鍵
`work_mutex_` の下の操作は一つの動作であり、鍵を持ったまま糸を始める `add_thread` と、鍵を持たない `wait_object` は、いくつもの動作に
分かれる。信号の数は `SEM_VALUE_MAX` までであり、これを越える `release` は例外を投げる。
-/

namespace UnixCommons.Generics.TaskRunner

open CompositeActiveObject (ActiveState)

/-- 構築の引数。`threadsNumber` が 0 ならば、構築は `InvalidArgument` を投げる。 -/
structure Config where
  threadsNumber : Nat
  maxPendingTasks : Nat
  startThreads : Nat
  semValueMax : Nat
  positive : 0 < threadsNumber

def Config.limited (c : Config) : Bool := decide (c.maxPendingTasks ≠ 0)

/-- `ThreadRunner::start` の、始める糸の数。 -/
def Config.toStart (c : Config) : Nat :=
  if c.startThreads = 0 ∨ c.startThreads > c.threadsNumber then c.threadsNumber else c.startThreads

inductive Point
  | created
  | passing
  | checking
  | acquiring
  | locking
  | releasing (task : Nat)
  | executing (task : Nat)
  | counting
  | finished
  deriving DecidableEq, Repr

structure Thread where
  point : Point
  joined : Bool
  deriving DecidableEq, Repr

inductive EnqueueResult
  | accepted
  | invalidArgument
  | overflow
  | pushFailed
  | releaseFailed
  deriving DecidableEq, Repr

inductive Producer
  /-- `not_full_` を待つ。`timed` は、時刻まで待つことである。 -/
  | acquiring (timed : Bool)
  | pushing
  | starting
  | created
  /-- 鍵を持ち、始めた糸を `number_of_unused_threads_` にまだ数えていない。 -/
  | counted
  | releasing
  | returned (result : EnqueueResult)
  deriving DecidableEq, Repr

def Producer.holds : Producer → Bool
  | .starting => true
  | .created => true
  | .counted => true
  | _ => false

inductive Waiter
  | entered
  | testing
  | joining (i : Nat)
  | inJoin (i : Nat)
  | stopping
  | clearing
  | terminating
  /-- 最後の鍵を待つ。`skipped` は、活動していないので糸を待たなかったことである。 -/
  | leaving (skipped : Bool)
  deriving DecidableEq, Repr

/-- `jobs` は、`jobs_` のどの場所がどの糸を指すかである。`pushed` は、押し込まれた仕事の数、`popped`、`started`、`dropped` は、取られた仕事、始まった
仕事、`clear` で除かれた仕事の記録、`lost` は、投げた `new_task_.release` の数、`settled` は、最後に返った `wait_object` までに始まった糸の数である。 -/
structure State where
  tasks : List Nat
  newTask : Nat
  notFull : Nat
  unusedThreads : Nat
  terminating : Bool
  activeState : ActiveState
  numberRunning : Nat
  startSemaphore : Nat
  jobs : Nat → Nat
  threads : List Thread
  producers : List Producer
  waiter : Option Waiter
  pushed : Nat
  popped : List Nat
  started : List Nat
  dropped : List Nat
  lost : Nat
  settled : Nat

def State.init (c : Config) : State where
  tasks := []
  newTask := 0
  notFull := min c.maxPendingTasks c.semValueMax
  unusedThreads := 0
  terminating := false
  activeState := .notActive
  numberRunning := 0
  startSemaphore := 0
  jobs := fun _ => 0
  threads := []
  producers := []
  waiter := none
  pushed := 0
  popped := []
  started := []
  dropped := []
  lost := 0
  settled := 0

/-- どの `enqueue_task` も鍵を持っていない。 -/
def State.unlocked (s : State) : Bool := !s.producers.any Producer.holds

def State.setThread (s : State) (i : Nat) (t : Thread) (point : Point) : State :=
  { s with threads := s.threads.set i { t with point := point } }

def State.setProducer (s : State) (i : Nat) (p : Producer) : State := { s with producers := s.producers.set i p }

/-! ## 仕事を押し込む -/

/-- `add_thread` の、糸を始めないと決める条件。 -/
def State.enoughThreads (c : Config) (s : State) : Prop :=
  s.numberRunning = 0 ∨ s.numberRunning = c.threadsNumber ∨ s.tasks.length ≤ s.unusedThreads

instance (c : Config) (s : State) : Decidable (s.enoughThreads c) :=
  inferInstanceAs (Decidable (s.numberRunning = 0 ∨ s.numberRunning = c.threadsNumber ∨
    s.tasks.length ≤ s.unusedThreads))

/-- `enqueue_task` の始め。 -/
def State.enqueueCall (c : Config) (s : State) (null timed : Bool) : State :=
  let p := if null then .returned .invalidArgument else if c.limited then .acquiring timed else .pushing
  { s with producers := s.producers ++ [p] }

def State.push (c : Config) (s : State) (i : Nat) : State :=
  let s := { s with tasks := s.tasks ++ [s.pushed], pushed := s.pushed + 1 }
  s.setProducer i (if s.enoughThreads c then .releasing else .starting)

/-- `push_back` が投げれば、`not_full_` を返す。 -/
def State.failPush (c : Config) (s : State) (i : Nat) : State :=
  let s := { s with notFull := if c.limited ∧ s.notFull < c.semValueMax then s.notFull + 1 else s.notFull }
  s.setProducer i (.returned .pushFailed)

/-- `start_one_thread_` の `pthread_create`。 -/
def State.createThread (s : State) : State :=
  { s with
    jobs := fun j => if j = s.numberRunning then s.threads.length else s.jobs j
    threads := s.threads ++ [⟨.created, false⟩] }

/-- `enqueue_task` の一歩。`fault` は、時刻が来ること、`push_back` や `pthread_create` が失敗することである。 -/
def State.produce (c : Config) (s : State) (i : Nat) (fault : Bool) : Option State :=
  match s.producers[i]? with
  | none => none
  | some (.acquiring timed) =>
      if s.notFull > 0 then some ({ s with notFull := s.notFull - 1 }.setProducer i .pushing)
      else if timed ∧ !fault then none
      else some (s.setProducer i (.returned .overflow))
  | some .pushing =>
      if s.unlocked then some (if fault then s.failPush c i else s.push c i) else none
  | some .starting =>
      if fault ∨ s.numberRunning = c.threadsNumber then some (s.setProducer i .releasing)
        else some (s.createThread.setProducer i .created)
  | some .created => some ({ s with numberRunning := s.numberRunning + 1 }.setProducer i .counted)
  | some .counted => some ({ s with unusedThreads := (s.unusedThreads + 1) % 2 ^ 32 }.setProducer i .releasing)
  | some .releasing =>
      if s.newTask < c.semValueMax then some ({ s with newTask := s.newTask + 1 }.setProducer i (.returned .accepted))
      else some ({ s with lost := s.lost + 1 }.setProducer i (.returned .releaseFailed))
  | some (.returned _) => none

/-! ## 糸 -/

def State.pop (c : Config) (s : State) (i : Nat) (t : Thread) : State :=
  if s.terminating then
    s.setThread i t .finished
  else
    match s.tasks with
    | [] => s.setThread i t .acquiring
    | task :: tasks =>
        { s with tasks := tasks, unusedThreads := (s.unusedThreads + 2 ^ 32 - 1) % 2 ^ 32, popped :=
          s.popped ++ [task] }.setThread i t
          (if c.limited then .releasing task else .executing task)

def State.work (c : Config) (s : State) (i : Nat) : Option State :=
  match s.threads[i]? with
  | none => none
  | some t =>
      match t.point with
      | .created => if s.startSemaphore > 0 then some
          ({ s with startSemaphore := s.startSemaphore - 1 }.setThread i t .passing) else none
      | .passing => some ({ s with startSemaphore := s.startSemaphore + 1 }.setThread i t .checking)
      | .checking => some (s.setThread i t (if s.numberRunning > 0 then .acquiring else .finished))
      | .acquiring => if s.newTask > 0 then some ({ s with newTask := s.newTask - 1 }.setThread i t .locking) else none
      | .locking => if s.unlocked then some (s.pop c i t) else none
      | .releasing task =>
          -- 例外は `work` の外側の `catch` に達し、糸は終わる。
          if s.notFull < c.semValueMax then some ({ s with notFull := s.notFull + 1 }.setThread i t (.executing task))
          else some (s.setThread i t .finished)
      | .executing task => some ({ s with started := s.started ++ [task] }.setThread i t .counting)
      | .counting =>
          if s.unlocked
            then some ({ s with unusedThreads := (s.unusedThreads + 1) % 2 ^ 32 }.setThread i t .acquiring) else none
      | .finished => none

/-! ## 始め、止め、待つ -/

def State.clear (c : Config) (s : State) : State :=
  if c.limited then
    if s.notFull + s.tasks.length ≤ c.semValueMax
      then { s with notFull := s.notFull + s.tasks.length, tasks := [], dropped := s.dropped ++ s.tasks }
    else { s with notFull := c.semValueMax }
  else
    { s with tasks := [], dropped := s.dropped ++ s.tasks }

/-- `ThreadRunner::start` と `started`。 -/
def State.start (c : Config) (s : State) : State :=
  { s with
    activeState := .active
    jobs := fun j => if j < c.toStart then s.threads.length + j else s.jobs j
    threads := s.threads ++ List.replicate c.toStart ⟨.created, false⟩
    numberRunning := c.toStart
    startSemaphore := s.startSemaphore + 1
    unusedThreads := c.startThreads % 2 ^ 32 }

/-- `activate_object`。`AlreadyActive` を投げる時も、`AlreadyStarted` を受けて投げる時も、状態は変わらない。 -/
def State.activateObject (c : Config) (s : State) : State :=
  if s.activeState = .notActive ∧ s.numberRunning = 0 then s.start c else s

/-- `deactivate_object`。`terminate` の `release` が投げれば、プログラムが終わる。 -/
def State.deactivateObject (c : Config) (s : State) : Option State :=
  if s.activeState = .active then
    if s.newTask + c.threadsNumber ≤ c.semValueMax then
      some { s with activeState := .deactivating, terminating := true, newTask := s.newTask + c.threadsNumber }
    else none
  else some s

def State.join (s : State) (i : Nat) : Option State :=
  match s.threads[s.jobs i]? with
  | none => none
  | some t =>
      if t.point = .finished then
        some { s with threads := s.threads.set (s.jobs i) { t with joined := true }, waiter := some (.joining (i + 1)) }
      else none

def State.wait (s : State) : Option State :=
  match s.waiter with
  | none => none
  | some .entered => some { s with waiter := some (if s.activeState = .notActive then .leaving true else .testing) }
  | some .testing => some { s with waiter := some (if s.numberRunning = 0 then .terminating else .joining 0) }
  | some (.joining i) => some { s with waiter := some (if i < s.numberRunning then .inJoin i else .stopping) }
  | some (.inJoin i) => s.join i
  | some .stopping =>
      if s.startSemaphore > 0 then some
        { s with startSemaphore := s.startSemaphore - 1, waiter := some .clearing } else none
  | some .clearing => some { s with numberRunning := 0, waiter := some .terminating }
  | some .terminating => some { s with terminating := false, waiter := some (.leaving false) }
  | some (.leaving _) =>
      if s.unlocked then
        some { s with
          activeState := if s.activeState = .deactivating then .notActive else s.activeState
          waiter := none
          settled := s.threads.length }
      else none

/-! ## 動作 -/

/-- 一つの動作。`enqueue` と `waitCall` は呼び出しの始めであり、`produce`、`work`、`wait` はその一歩である。 -/
inductive Action
  | enqueue (null timed : Bool)
  | produce (i : Nat) (fault : Bool)
  | work (i : Nat)
  | clear
  | activate
  | deactivate
  | waitCall
  | wait
  deriving DecidableEq, Repr

def step (c : Config) (s : State) : Action → Option State
  | .enqueue null timed => some (s.enqueueCall c null timed)
  | .produce i fault => s.produce c i fault
  | .work i => s.work c i
  | .clear => if s.unlocked then some (s.clear c) else none
  | .activate => if s.unlocked then some (s.activateObject c) else none
  | .deactivate => if s.unlocked then s.deactivateObject c else none
  | .waitCall => if s.waiter = none then some { s with waiter := some .entered } else none
  | .wait => s.wait

/-! ## 待つ間に始まる糸 -/

def Producer.uncounted : Producer → Bool
  | .created => true
  | _ => false

def pastLoop : Option Waiter → Bool
  | some .stopping => true
  | some .clearing => true
  | some .terminating => true
  | some (.leaving false) => true
  | _ => false

/-- 待つループを出た後に糸を始めるか、まだ数えていない糸のあるうちにループを出る。 -/
def State.startsLate (c : Config) (s : State) : Action → Bool
  | .produce i fault => decide (s.producers[i]? = some .starting ∧ fault = false ∧
      s.numberRunning ≠ c.threadsNumber) && pastLoop s.waiter
  | .wait =>
      match s.waiter with
      | some (.joining i) => decide (s.numberRunning ≤ i) && s.producers.any Producer.uncounted
      | _ => false
  | _ => false

/-- `wait_object` が、活動していないとして、始まった糸を待たないか、待たずに返る前に、`activate_object` が糸を始める。 -/
def State.waitsNothing (s : State) : Action → Bool
  | .wait => decide (s.waiter = some .entered ∧ s.activeState = .notActive ∧ s.numberRunning ≠ 0)
  | .activate => decide (s.waiter = some (.leaving true) ∧ s.activeState = .notActive ∧ s.numberRunning = 0)
  | _ => false

end UnixCommons.Generics.TaskRunner
