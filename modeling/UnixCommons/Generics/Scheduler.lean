import Mathlib.Data.List.Basic

/-!
# 予定の配達

`Scheduler.cpp` の `Planner::PlannerJob` の写し。時刻は、正規の `Time` の表すマイクロ秒の値である。鍵を持つ間の操作は一つの動作である。
`schedule` は鍵を放した後に信号を送り、`work` は、鍵を放す所で動作に分かれる。時計は、動作の間に進む。
-/

namespace UnixCommons.Generics.Planner

/-- `TimedMessage`。`number` は何番目の `schedule` かを、`asked` はその時に渡された時刻を記す。 -/
structure TimedMessage (γ : Type) where
  time : Int
  goal : γ
  number : Nat
  asked : Int
  deriving DecidableEq, Repr

/-- `work` の進み方。`deadline` は `pabs_time` の指す時刻であり、`none` は空のポインタである。 -/
inductive Worker
  | stopped
  | choosing
  | idle (deadline : Option Int)
  | blocked (deadline : Option Int)
  /-- 眠りから覚めて、また鍵を取る。`event` は `timed_wait` の結果である。 -/
  | awake (deadline : Option Int) (event : Bool)
  | adjusting (deadline : Option Int)
  | delivering
  | inDeliver
  deriving DecidableEq, Repr

/-- `calls` は `deliver` の呼び出しとその時の時計、`scheduled`、`delivered`、`removed` は、予定した物、配達した物、除かれた物の記録である。
`signalers` は、鍵を放してまだ信号を送っていない `schedule` の数である。 -/
structure State (γ : Type) where
  messages : List (TimedMessage γ)
  pending : List (TimedMessage γ)
  haveNewEvents : Bool
  deliveryTimeShift : Int
  terminating : Bool
  worker : Worker
  signalers : Nat
  clock : Int
  scheduled : List (TimedMessage γ)
  calls : List (TimedMessage γ × Int)
  delivered : List (TimedMessage γ)
  removed : List (TimedMessage γ)

variable {γ : Type} [DecidableEq γ]

def State.init (clock : Int) : State γ := ⟨[], [], false, 0, false, .stopped, 0, clock, [], [], [], []⟩

/-! ## 予定する -/

/-- `schedule` のループ。終わりから、`m` より早い物を探す。並びは終わりから数え、`m` が始めに入るかどうかも返す。 -/
def insertLoop (m : TimedMessage γ) : List (TimedMessage γ) → List (TimedMessage γ) × Bool
  | [] => ([m], true)
  | x :: rest =>
      if x.time < m.time then (m :: x :: rest, false)
      else
        let (rest, signal) := insertLoop m rest
        (x :: rest, signal)

/-- `schedule` の、鍵を持つ部分。空の `goal` は `InvalidArgument` を投げる。 -/
def State.schedule (s : State γ) (goal : Option γ) (time : Int) : State γ :=
  match goal with
  | none => s
  | some goal =>
      let m : TimedMessage γ := ⟨if time > 0 then time else 0, goal, s.scheduled.length, time⟩
      let (reversed, signal) := insertLoop m s.messages.reverse
      { s with
        messages := reversed.reverse
        haveNewEvents := signal || s.haveNewEvents
        signalers := if signal then s.signalers + 1 else s.signalers
        scheduled := s.scheduled ++ [m] }

/-- `unschedule` のループ。 -/
def unscheduleLoop (goal : γ) : List (TimedMessage γ) → List (TimedMessage γ) × List (TimedMessage γ) × Nat
  | [] => ([], [], 0)
  | x :: rest =>
      let (kept, erased, removed) := unscheduleLoop goal rest
      if x.goal = goal then (kept, x :: erased, removed + 1) else (x :: kept, erased, removed)

def State.unschedule (s : State γ) (goal : γ) : State γ × Nat :=
  let (kept, erased, removed) := unscheduleLoop goal s.messages
  ({ s with messages := kept, removed := s.removed ++ erased }, removed)

def State.clear (s : State γ) : State γ := { s with messages := [], removed := s.removed ++ s.messages }

/-! ## 糸 -/

/-- 配達の時刻。 -/
def deliveryTime (adjustment : Bool) (shift time : Int) : Int :=
  if adjustment then (if time > shift then time - shift else 0) else time

def pumpLoop (adjustment : Bool) (shift curTime : Int) : List (TimedMessage γ) → List
    (TimedMessage γ) × List (TimedMessage γ) × Option Int
  | [] => ([], [], none)
  | m :: rest =>
      let absTime := deliveryTime adjustment shift m.time
      if absTime ≤ curTime then
        let (chosen, rest, deadline) := pumpLoop adjustment shift curTime rest
        (m :: chosen, rest, deadline)
      else
        ([], m :: rest, some absTime)

def State.choose (adjustment : Bool) (s : State γ) : State γ :=
  if s.terminating then
    { s with worker := .stopped }
  else
    let (chosen, rest, deadline) := pumpLoop adjustment s.deliveryTimeShift s.clock s.messages
    let pending := s.pending ++ chosen
    { s with messages := rest, pending := pending, worker := if pending = [] then .idle deadline else .delivering }

/-- `svc 2` の、待つループを出た後、鍵を放すまで。`event` は `new_event_in_schedule` である。 -/
def State.leaveWait (s : State γ) (deadline : Option Int) (event : Bool) : State γ :=
  if s.terminating then { s with worker := .stopped }
  else if event then { s with haveNewEvents := false, worker := .adjusting deadline }
  else { s with worker := .delivering }

/-- 遅れの半分を `delivery_time_shift_` とする。 -/
def State.adjust (adjustment : Bool) (s : State γ) (deadline : Option Int) : State γ :=
  match deadline with
  | some absTime =>
      if adjustment ∧ s.clock > absTime
        then { s with deliveryTimeShift := (s.clock - absTime).tdiv 2, worker := .choosing }
      else { s with worker := .choosing }
  | none => { s with worker := .choosing }

def State.work (adjustment : Bool) (s : State γ) : Option (State γ) :=
  match s.worker with
  | .stopped => none
  | .choosing => some (s.choose adjustment)
  | .idle deadline =>
      some (if s.haveNewEvents then s.leaveWait deadline true else { s with worker := .blocked deadline })
  | .blocked _ => none
  | .awake deadline event => some (s.leaveWait deadline (event && s.haveNewEvents))
  | .adjusting deadline => some (s.adjust adjustment deadline)
  | .delivering =>
      match s.pending with
      | [] => some { s with worker := .choosing }
      | m :: _ => some { s with calls := s.calls ++ [(m, s.clock)], worker := .inDeliver }
  | .inDeliver =>
      some { s with delivered := s.delivered ++ s.pending.take 1, pending := s.pending.tail, worker := .delivering }

/-! ## 動作 -/

def Worker.wake : Worker → Worker
  | .blocked deadline => .awake deadline true
  | worker => worker

inductive Action (γ : Type)
  | schedule (goal : Option γ) (time : Int)
  | signal
  | unschedule (goal : γ)
  | clear
  /-- `deactivate_object` の `make_terminate`。 -/
  | terminate
  | restart
  | work
  | timeout
  | spurious
  | fail
  | tick (clock : Int)
  deriving DecidableEq, Repr

def step (adjustment : Bool) (s : State γ) : Action γ → Option (State γ)
  | .schedule goal time => some (s.schedule goal time)
  | .signal => if s.signalers = 0 then none else some { s with signalers := s.signalers - 1, worker := s.worker.wake }
  | .unschedule goal => some (s.unschedule goal).1
  | .clear => some s.clear
  | .terminate => some { s with terminating := true, haveNewEvents := true, worker := s.worker.wake }
  | .restart => if s.worker = .stopped then some { s with terminating := false, worker := .choosing } else none
  | .work => s.work adjustment
  | .timeout =>
      match s.worker with
      | .blocked (some absTime) =>
          if s.clock ≥ absTime then some { s with worker := .awake (some absTime) false } else none
      | _ => none
  | .spurious => if s.worker.wake = s.worker then none else some { s with worker := s.worker.wake }
  | .fail =>
      match s.worker with
      | .blocked deadline => some { s with worker := .awake deadline false }
      | _ => none
  | .tick clock => if s.clock ≤ clock then some { s with clock := clock } else none

end UnixCommons.Generics.Planner
