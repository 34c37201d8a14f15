import Mathlib.Logic.Function.Basic
import UnixCommons.Lib.Machine

/-! # 接続の集まりとその方針 -/

/-!
## 接続の集まりの方針

`HTTP/HttpAsyncPolicies.cpp` の `PoolPolicySimpleStatistics`、`PoolPolicySimpleDecider`、`PoolPolicySimpleEmptyThread`、
`PoolPolicySimpleEmptyConnection` の写し。知らせは、どれも `mutex_` の下の一歩である。名前は住所の代わりの番号であり、表の中の順、すなわち
住所の順は、加える時に与えられる。`SPECIAL_IDENTIFIER` と、名前の `0` は `none` である。
-/

namespace UnixCommons.HTTP.PoolPolicy

inductive States
  | activeAwaiting
  | active
  | closureAwaiting
  | closureOnNextTry
  | closing
  deriving DecidableEq, Repr

/-- `SimpleStat`。`items_count` は `unsigned` であるが、零より小さくなることを述べるために、整数で表す。
零以上、`2 ^ 32` 未満の間は、比べた結果は変わらない。 -/
structure SimpleStat where
  state : States
  itemsCount : Int
  deriving DecidableEq, Repr

structure Connection extends SimpleStat where
  server : Option Nat
  thread : Option Nat
  deriving DecidableEq, Repr

structure Thread extends SimpleStat where
  full : Bool
  deriving DecidableEq, Repr

def Connection.new (server : Nat) : Connection := ⟨⟨.activeAwaiting, 0⟩, some server, none⟩

def Thread.new : Thread := ⟨⟨.activeAwaiting, 0⟩, false⟩

/-- 設定。`closureDelay` は、`time_t` である。 -/
structure Settings where
  connectionsPerServer : Nat
  connectionsPerThreads : Nat
  threadDelay : Int
  connectionDelay : Int
  deriving Repr

/-- `threads` は `threads_` の名前を、`servers` は `ConnectionPtrs` の名前を、住所の順に並べる。 -/
structure Policy where
  servers : Nat → Option (List Nat)
  threads : List Nat
  thread : Nat → Option Thread
  connections : Nat → Option Connection

def Policy.init : Policy := ⟨fun _ => none, [], fun _ => none, fun _ => none⟩

def insertAt (position x : Nat) (xs : List Nat) : List Nat := xs.take position ++ x :: xs.drop position

namespace Policy

def serverAdded (p : Policy) (server : Nat) : Policy :=
  match p.servers server with
  | some _ => p
  | none => { p with servers := Function.update p.servers server (some []) }

def serverConnectionAdded (p : Policy) (server connection position : Nat) : Policy :=
  { p with
    connections := Function.update p.connections connection (some ((p.connections connection).getD (.new server)))
    servers := Function.update p.servers server ((p.servers server).map (insertAt position connection)) }

def serverConnectionRemoved (p : Policy) (server connection : Nat) : Policy :=
  match p.connections connection with
  | none => p
  | some r =>
      { p with
        servers := Function.update p.servers server ((p.servers server).map (·.erase connection))
        connections := Function.update p.connections connection
          (if r.thread.isSome then some { r with server := none } else none) }

def threadAdded (p : Policy) (thread position : Nat) : Policy :=
  { p with
    threads := insertAt position thread p.threads
    thread := Function.update p.thread thread (some ((p.thread thread).getD .new)) }

def threadRemoved (p : Policy) (thread : Nat) : Policy :=
  { p with threads := p.threads.erase thread, thread := Function.update p.thread thread none }

def threadConnectionAdded (p : Policy) (thread connection : Nat) : Policy :=
  { p with
    connections := Function.update p.connections connection ((p.connections connection).map fun r =>
      { r with thread := some thread })
    thread := Function.update p.thread thread
      ((p.thread thread).map fun r => { r with itemsCount := r.itemsCount + 1, state := .active }) }

def threadConnectionRemoved (p : Policy) (thread connection : Nat) : Policy :=
  { p with
    connections := Function.update p.connections connection
      ((p.connections connection).bind fun r => if r.server.isSome then some { r with thread := none } else none)
    thread := Function.update p.thread thread
      ((p.thread thread).map fun r => { r with itemsCount := r.itemsCount - 1, full := false }) }

def connectionRequestAdded (p : Policy) (connection : Nat) : Policy :=
  { p with
    connections := Function.update p.connections connection
      ((p.connections connection).map fun r => { r with itemsCount := r.itemsCount + 1, state := .active }) }

def connectionRequestRemoved (p : Policy) (connection : Nat) : Policy :=
  { p with
    connections := Function.update p.connections connection
      ((p.connections connection).map fun r => { r with itemsCount := r.itemsCount - 1 }) }

end Policy

/-- `choose_thread` のループ。 -/
def chooseThreadLoop (perThreads : Nat) : List Nat → (Nat → Option Thread) → Option Nat × (Nat → Option Thread)
  | [], threads => (none, threads)
  | t :: ts, threads =>
      match threads t with
      | none => chooseThreadLoop perThreads ts threads
      | some r =>
          if r.state = .closing then chooseThreadLoop perThreads ts threads
          else if r.itemsCount < perThreads
            then (some t, Function.update threads t (some { r with state := .activeAwaiting }))
          else chooseThreadLoop perThreads ts (Function.update threads t (some { r with full := true }))

def Policy.chooseThread (cfg : Settings) (p : Policy) : Policy × Option Nat :=
  let r := chooseThreadLoop cfg.connectionsPerThreads p.threads p.thread
  ({ p with thread := r.2 }, r.1)

/-- `choose_connection` のループ。 -/
def chooseConnectionLoop (connections : Nat → Option Connection) : List Nat → Int → Option Nat → Option Nat
  | [], _, chosen => chosen
  | c :: cs, requests, chosen =>
      match connections c with
      | none => chooseConnectionLoop connections cs requests chosen
      | some r =>
          if r.state = .closing then chooseConnectionLoop connections cs requests chosen
          else if r.itemsCount = 0 then some c
          else if requests = 0 ∨ r.itemsCount < requests then chooseConnectionLoop connections cs r.itemsCount (some c)
          else chooseConnectionLoop connections cs requests chosen

def Policy.chooseConnection (cfg : Settings) (p : Policy) (server : Nat) : Policy × Option Nat :=
  match p.servers server with
  | none => (p, none)
  | some ptrs =>
      match chooseConnectionLoop p.connections ptrs 0 none with
      | none => (p, none)
      | some c =>
          match p.connections c with
          | none => (p, none)
          | some r =>
              if cfg.connectionsPerServer ≤ ptrs.length ∨ r.itemsCount = 0 then
                ({ p with connections := Function.update p.connections c (some
                  { r with state := .activeAwaiting }) }, some c)
              else (p, none)

/-- 表の中の物を見る時の、名前、状態、`additional_closing_validator`。 -/
structure View where
  id : Nat
  state : States
  validator : Bool
  deriving DecidableEq, Repr

/-- `time_t` の `CLOSURE_DELAY_` は、`int` として返る。 -/
def closureInt (delay : Int) : Int := delay.bmod 4294967296

/-- `process_entity_active_state` のループ。 -/
def activeLoop (current : Nat) : List View → Bool → Bool → Bool
  | [], condition, awaiting => condition && awaiting
  | v :: vs, condition, awaiting =>
      if v.id = current then activeLoop current vs condition awaiting
      else if v.validator && awaiting then true
      else
        let condition := condition || v.validator
        if v.state = .closureAwaiting then
          if condition then true else activeLoop current vs condition true
        else activeLoop current vs condition awaiting

def processEntityActiveState (delay : Int) (current : Nat) (stat : SimpleStat) (map : List View) : States × Int :=
  if stat.itemsCount ≠ 0 then (stat.state, -1)
  else if activeLoop current map false false ∨ delay = 0 then (.closing, 0)
  else (.closureAwaiting, closureInt delay)

def processEntityClosureAwaitingState (delay : Int) (stat : SimpleStat) (map : List View) : States × Int :=
  (if map.any (fun v => v.state = .active || v.state = .activeAwaiting) then stat.state
    else .closureOnNextTry, closureInt delay)

def whenCloseEntity (delay : Int) (current : Nat) (stat : SimpleStat) (map : List View) : States × Int :=
  match stat.state with
  | .activeAwaiting => (.activeAwaiting, -1)
  | .closing => (.closing, -1)
  | .closureOnNextTry => (.closing, 0)
  | .active => processEntityActiveState delay current stat map
  | .closureAwaiting => processEntityClosureAwaitingState delay stat map

namespace Policy

def threadViews (p : Policy) : List View := p.threads.filterMap fun t => (p.thread t).map fun r => ⟨t, r.state, !r.full⟩

def connectionViews (p : Policy) (ptrs : List Nat) : List View :=
  ptrs.filterMap fun c => (p.connections c).map fun r => ⟨c, r.state, true⟩

def whenCloseThread (cfg : Settings) (p : Policy) (thread : Nat) : Policy × Int :=
  match p.thread thread with
  | none => (p, -1)
  | some r =>
      let answer := whenCloseEntity cfg.threadDelay thread r.toSimpleStat p.threadViews
      ({ p with thread := Function.update p.thread thread (some { r with state := answer.1 }) }, answer.2)

def whenCloseConnection (cfg : Settings) (p : Policy) (connection : Nat) : Policy × Int :=
  match p.connections connection with
  | none => (p, -1)
  | some r =>
      match r.server.bind p.servers with
      | none => (p, -1)
      | some ptrs =>
          let answer := whenCloseEntity cfg.connectionDelay connection r.toSimpleStat (p.connectionViews ptrs)
          ({ p with connections := Function.update p.connections connection (some { r with state := answer.1 }) }, answer.2)

end Policy

end UnixCommons.HTTP.PoolPolicy

/-!
## 接続の集まり

`HTTP/HttpAsyncPool.cpp` の `Server::add_request`、`EventThreadPool::add_connection`、`Connection`、`EventThread` が、方針に知らせる順の写し。
接続と糸の番号は、作られた順である。接続と糸の呼び返しがいつ起こるかは、問わない。
-/

namespace UnixCommons.HTTP.HttpAsyncPool

open Lib PoolPolicy

/-- 接続と、糸の列。`adding` は、`thread_connection_added` の後で、列に置く前である。 -/
inductive Place
  | unplaced
  | adding (thread : Nat)
  | queued (thread : Nat)
  | running (thread : Nat)
  | left
  deriving DecidableEq, Repr

/-- `Connection` の物。`listed` は、`Server::connections_` にあることである。`calls` は `add_request` の途中の呼び出し、`failed` はその例外を捕らえた
途中の呼び出し、`held` は接続の持つ要求の数である。 -/
structure ConnObject where
  server : Nat
  listed : Bool
  place : Place
  calls : Nat
  failed : Nat
  held : Nat
  deriving DecidableEq, Repr

def ConnObject.new (server : Nat) : ConnObject := ⟨server, true, .unplaced, 0, 0, 0⟩

def Place.thread? : Place → Option Nat
  | .adding t | .queued t | .running t => some t
  | _ => none

def Place.started : Place → Bool
  | .running _ | .left => true
  | _ => false

/-- `Server::mutex_` を持つ `Server::add_request` の進み方。`threadSpecial` と `threadChosen` の間は、`EventThreadPool::mutex_` も持つ。 -/
inductive Section
  /-- `choose_connection` が、接続を選ばなかった。 -/
  | special
  | created (c : Nat)
  | threadSpecial (c : Nat)
  | threadChosen (c t : Nat)
  /-- `EventThread::add_connection` の前である。 -/
  | adding (c t : Nat)
  /-- `EventThread::add_connection` の例外を捕らえた。 -/
  | threadThrew (c t : Nat)
  | notPlaced (c : Nat)
  /-- `connection_request_added` の前である。 -/
  | ready (c : Nat)
  deriving DecidableEq, Repr

def Section.conn? : Section → Option Nat
  | .special => none
  | .created c | .threadSpecial c | .threadChosen c _ | .adding c _ | .threadThrew c _ | .notPlaced c | .ready c => some c

/-- `EventThreadPool::mutex_` を持つ。 -/
def Section.inPool : Section → Bool
  | .threadSpecial _ | .threadChosen _ _ => true
  | _ => false

/-- 選ぶことと、数を増やすことと、閉じてよいという答え。答えは、その時の `items_count` を持つ。 -/
inductive Event
  | connectionChosen (c : Nat)
  | requestAdded (c : Nat)
  | connectionClosed (c : Nat) (itemsCount : Int)
  | threadChosen (t : Nat)
  | connectionAdded (t : Nat)
  | threadClosed (t : Nat) (itemsCount : Int)
  deriving DecidableEq, Repr

/-- `threads` は作られた糸の数、`pool` は `EventThreadPool::mutex_` を持つ呼び出しのサーバ、`log` は出来事の記録である。 -/
structure State where
  policy : Policy
  conns : List ConnObject
  threads : Nat
  sections : Nat → Option Section
  pool : Option Nat
  log : List Event

def State.init : State := ⟨.init, [], 0, fun _ => none, none, []⟩

namespace State

def enter (s : State) (server : Nat) (sec : Option Section) : State :=
  { s with sections := Function.update s.sections server sec }

def setConn (s : State) (c : Nat) (o : ConnObject) : State := { s with conns := s.conns.set c o }

def note (s : State) (events : List Event) : State := { s with log := s.log ++ events }

end State

/-- `SignalQueue::add` の結果。`threwLeft` は、列に置いた後の、管への書き込みの失敗である。 -/
inductive Outcome
  | returned
  | threw
  | threwLeft
  deriving DecidableEq, Repr

inductive Action
  | serverAdded (server : Nat)
  | chooseConnection (server : Nat)
  | create (server position : Nat)
  | createFails (server : Nat)
  /-- `EventThreadPool::add_connection` が糸を選ぶ。 -/
  | chooseThread (server : Nat)
  | addThread (server position : Nat)
  | placeThread (server : Nat)
  /-- `thread_connection_added` の前の例外。 -/
  | placeFails (server : Nat)
  | enqueueConnection (server : Nat) (outcome : Outcome)
  | catchThread (server : Nat)
  | catchPlace (server : Nat)
  | addRequest (server : Nat)
  | enqueueRequest (c : Nat) (outcome : Outcome)
  | catchRequest (c : Nat)
  | removeRequest (c : Nat)
  /-- `EventThread::process_connection_`。 -/
  | register (c : Nat)
  | registerFails (c : Nat)
  | tryCloseConnection (c : Nat)
  /-- `Server::exclude_connection` と `deactivate_connection_`。 -/
  | excludeConnection (c : Nat)
  /-- `EventThread::exclude_connection`。 -/
  | leaveThread (c : Nat)
  | tryCloseThread (t : Nat)
  /-- `exclude_thread_from_choice_list` と `deactivate_object`。 -/
  | removeThread (t : Nat)
  deriving Repr

variable (cfg : Settings)

def step (s : State) : Action → Option State
  | .serverAdded server => some { s with policy := s.policy.serverAdded server }
  | .chooseConnection server =>
      match s.sections server, s.policy.servers server with
      | none, some _ =>
          let r := s.policy.chooseConnection cfg server
          let s := { s with policy := r.1 }
          match r.2 with
          | none => some (s.enter server (some .special))
          | some c =>
              match s.conns[c]? with
              | some o =>
                  -- `Server::connections_` になければ、例外を投げる。
                  if o.listed ∧ o.server = server then some ((s.enter server (some (.ready c))).note [.connectionChosen c])
                  else some (s.note [.connectionChosen c])
              | none => some (s.note [.connectionChosen c])
      | _, _ => none
  | .create server position =>
      match s.sections server with
      | some .special =>
          let c := s.conns.length
          let s := { s with policy := s.policy.serverConnectionAdded server c position, conns :=
              s.conns ++ [ConnObject.new server] }
          some (s.enter server (some (.created c)))
      | _ => none
  | .createFails server =>
      match s.sections server with
      | some .special => some (s.enter server none)
      | _ => none
  | .chooseThread server =>
      match s.sections server, s.pool with
      | some (.created c), none =>
          let r := s.policy.chooseThread cfg
          let s := { s with policy := r.1, pool := some server }
          match r.2 with
          | none => some (s.enter server (some (.threadSpecial c)))
          | some t => some ((s.enter server (some (.threadChosen c t))).note [.threadChosen t])
      | _, _ => none
  | .addThread server position =>
      match s.sections server with
      | some (.threadSpecial c) =>
          let t := s.threads
          let s := { s with policy := s.policy.threadAdded t position, threads := t + 1 }
          some (s.enter server (some (.threadChosen c t)))
      | _ => none
  | .placeThread server =>
      match s.sections server with
      | some (.threadChosen c t) =>
          match s.conns[c]? with
          | some o =>
              let s := { s with policy := s.policy.threadConnectionAdded t c, pool := none }
              some (((s.setConn c { o with place := .adding t }).enter server
                (some (.adding c t))).note [.connectionAdded t])
          | none => none
      | _ => none
  | .placeFails server =>
      match s.sections server with
      | some (.created c) => some (s.enter server (some (.notPlaced c)))
      | some (.threadSpecial c) | some (.threadChosen c _) =>
          some ({ s with pool := none }.enter server (some (.notPlaced c)))
      | _ => none
  | .enqueueConnection server outcome =>
      match s.sections server with
      | some (.adding c t) =>
          match s.conns[c]? with
          | some o =>
              match outcome with
              | .returned => some ((s.setConn c { o with place := .queued t }).enter server (some (.ready c)))
              | .threw => some (s.enter server (some (.threadThrew c t)))
              | .threwLeft => some ((s.setConn c { o with place := .queued t }).enter server (some (.threadThrew c t)))
          | none => none
      | _ => none
  | .catchThread server =>
      match s.sections server with
      | some (.threadThrew c t) =>
          match s.conns[c]? with
          | some o =>
              let s := { s with policy := s.policy.threadConnectionRemoved t c }
              some ((s.setConn c { o with place := if o.place = .adding t then .unplaced
                else o.place }).enter server (some (.ready c)))
          | none => none
      | _ => none
  | .catchPlace server =>
      match s.sections server with
      | some (.notPlaced c) =>
          match s.conns[c]? with
          | some o =>
              let s := { s with policy := s.policy.serverConnectionRemoved server c }
              some ((s.setConn c { o with listed := false }).enter server none)
          | none => none
      | _ => none
  | .addRequest server =>
      match s.sections server with
      | some (.ready c) =>
          match s.conns[c]? with
          | some o =>
              let s := { s with policy := s.policy.connectionRequestAdded c }
              some (((s.setConn c { o with calls := o.calls + 1 }).enter server none).note [.requestAdded c])
          | none => none
      | _ => none
  | .enqueueRequest c outcome =>
      match s.conns[c]? with
      | some o =>
          if o.calls = 0 then none
          else
            match outcome with
            | .returned => some (s.setConn c { o with calls := o.calls - 1, held := o.held + 1 })
            | .threw => some (s.setConn c { o with calls := o.calls - 1, failed := o.failed + 1 })
            | .threwLeft => some (s.setConn c { o with calls := o.calls - 1, failed := o.failed + 1, held := o.held + 1 })
      | none => none
  | .catchRequest c =>
      match s.conns[c]? with
      | some o =>
          if o.failed = 0 then none
          else some ({ s with policy := s.policy.connectionRequestRemoved c }.setConn c { o with failed := o.failed - 1 })
      | none => none
  | .removeRequest c =>
      match s.conns[c]? with
      | some o =>
          if o.held = 0 ∨ !o.place.started then none
          else some ({ s with policy := s.policy.connectionRequestRemoved c }.setConn c { o with held := o.held - 1 })
      | none => none
  | .register c =>
      match s.conns[c]? with
      | some o =>
          match o.place with
          | .queued t => some (s.setConn c { o with place := .running t })
          | _ => none
      | none => none
  | .registerFails c =>
      match s.conns[c]? with
      | some o =>
          match o.place with
          | .queued t => some ({ s with policy := s.policy.threadConnectionRemoved t c }.setConn c { o with place := .left })
          | _ => none
      | none => none
  | .tryCloseConnection c =>
      match s.conns[c]? with
      | some o =>
          if o.place.started then
            let r := s.policy.whenCloseConnection cfg c
            let events :=
              if r.2 = 0 then ((r.1.connections c).map fun r => Event.connectionClosed c r.itemsCount).toList else []
            some ({ s with policy := r.1 }.note events)
          else none
      | none => none
  | .excludeConnection c =>
      match s.conns[c]? with
      | some o =>
          if o.listed ∧ s.sections o.server = none then
            some ({ s with policy := s.policy.serverConnectionRemoved o.server c }.setConn c { o with listed := false })
          else none
      | none => none
  | .leaveThread c =>
      match s.conns[c]? with
      | some o =>
          match o.place with
          | .running t =>
              if o.listed then none
              else some ({ s with policy := s.policy.threadConnectionRemoved t c }.setConn c { o with place := .left })
          | _ => none
      | none => none
  | .tryCloseThread t =>
      let r := s.policy.whenCloseThread cfg t
      let events := if r.2 = 0 then ((r.1.thread t).map fun r => Event.threadClosed t r.itemsCount).toList else []
      some ({ s with policy := r.1 }.note events)
  | .removeThread t =>
      match s.pool, s.policy.thread t with
      | none, some _ => some { s with policy := s.policy.threadRemoved t }
      | _, _ => none

def writeFails : Action → Bool
  | .enqueueConnection _ outcome | .enqueueRequest _ outcome => outcome == .threwLeft
  | _ => false

end UnixCommons.HTTP.HttpAsyncPool
