import UnixCommons.Lib.Machine

/-! # 要求の受け渡し -/

/-!
## 知らせる列

`HTTP/HttpAsyncPoolInternals.ipp` の `SignalQueue` の写し。`add` は、鍵の下で列に置く歩みと、管に書く歩みとに分かれる。管への書き込みは
失敗することがある。`handle_read_` は、管から読む歩みと、列から一つずつ取り出す歩みとに分かれる。取り出した物は、すぐに `data_callback_` に渡される。
-/

namespace UnixCommons.HTTP.SignalQueue

open Lib

inductive RequestType
  | data
  | quit
  | check
  deriving DecidableEq, Repr

/-- `add` の呼び出しの進み方。`signalling` は、空の列に置き、まだ管に書いていない。 -/
inductive Adder
  | signalling
  | returned
  | threw
  deriving DecidableEq, Repr

/-- 呼ばれた関数。`data` の番号は、物を置いた `add` の番号である。 -/
inductive Callback
  | data (item : Nat)
  | quit
  | check
  deriving DecidableEq, Repr

/-- `data_callback_` に渡した物。 -/
def Callback.item? : Callback → Option Nat
  | .data item => some item
  | _ => none

/-- `handle_read_` の進み方。`draining` は、`states[RT_DATA]` の成り立つ時の、列を空にする間である。 -/
inductive Reader
  | idle
  | draining (quit check : Bool)
  deriving DecidableEq, Repr

inductive Flush
  | before
  | draining
  | after
  deriving DecidableEq, Repr

/-- `pipe` は、管の中のバイト、`callbacks` は、呼ばれた順の関数である。 -/
structure State where
  queue : List Nat
  pipe : List RequestType
  removed : Bool
  adders : List Adder
  reader : Reader
  flush : Flush
  callbacks : List Callback
  deriving DecidableEq, Repr

def State.init : State := ⟨[], [], true, [], .idle, .before, []⟩

/-- `data_callback_` に渡した順の物。 -/
def State.passed (s : State) : List Nat := s.callbacks.filterMap Callback.item?

inductive Action
  | register
  | push
  | signal (i : Nat) (ok : Bool)
  | post (request : RequestType)
  /-- `handle_read_` が `n` バイトを読む。`0` は、`EAGAIN` である。 -/
  | read (n : Nat)
  /-- `handle_read_` の読み取りが失敗するか、管が閉じている。 -/
  | readFails
  | pop
  | flushBegin
  | flushPop
  deriving DecidableEq, Repr

/-- `handle_read_` の終わり。 -/
def State.finish (s : State) (quit check : Bool) : State :=
  if quit then
    -- `terminate_`
    { s with reader := .idle, removed := true, callbacks := s.callbacks ++ [.quit] }
  else if check then
    { s with reader := .idle, callbacks := s.callbacks ++ [.check] }
  else
    { s with reader := .idle }

def step (s : State) : Action → Option State
  | .register => if s.flush = .before then some { s with removed := false } else none
  | .push =>
      if s.flush = .before then
        some { s with queue := s.queue ++ [s.adders.length], adders := s.adders ++
          [if s.queue = [] then .signalling else .returned] }
      else
        none
  | .signal i ok =>
      if s.adders[i]? = some .signalling then
        if ok then some { s with pipe := s.pipe ++ [.data], adders := s.adders.set i .returned }
          else some { s with adders := s.adders.set i .threw }
      else
        none
  | .post request => if request ≠ .data then some { s with pipe := s.pipe ++ [request] } else none
  | .read n =>
      -- `data` より一つ少なく読むので、読み取りは繰り返されない。
      if s.removed = false ∧ s.reader = .idle ∧ n ≤ 255 ∧ n ≤ s.pipe.length then
        let states := s.pipe.take n
        let s := { s with pipe := s.pipe.drop n }
        if .data ∈ states then some { s with reader := .draining (decide (.quit ∈ states)) (decide (.check ∈ states)) }
        else some (s.finish (decide (.quit ∈ states)) (decide (.check ∈ states)))
      else
        none
  | .readFails => if s.removed = false ∧ s.reader = .idle then some (s.finish true false) else none
  | .pop =>
      match s.reader, s.queue with
      | .idle, _ => none
      | .draining quit check, [] => some (s.finish quit check)
      | .draining _ _, item :: rest => some { s with queue := rest, callbacks := s.callbacks ++ [.data item] }
  | .flushBegin => if s.flush = .before then some { s with removed := true, flush := .draining } else none
  | .flushPop =>
      if s.flush = .draining then
        match s.queue with
        -- 管に残るバイトも読み捨てる。
        | [] => some { s with flush := .after, pipe := [] }
        | item :: rest => some { s with queue := rest, callbacks := s.callbacks ++ [.data item] }
      else
        none

def signalFails : Action → Bool
  | .signal _ ok => !ok
  | _ => false

end UnixCommons.HTTP.SignalQueue

/-!
## 失敗した要求

`HTTP/HttpAsyncPool.cpp` の `RequestsTransferer` と、`Server` の `transf_unused_requests`、
`transf_failed_request`、`process_requests`、
`process_request`、`add_request` の写し。呼び出す先の答えは、呼ぶたびに進む番号で引く。受け取られた仕事は、その場で行う。
-/

namespace UnixCommons.HTTP.RequestsTransferer

variable {ρ : Type}

inductive RequestPolicy
  | resendAll
  | cancelAll
  | cancelFirstResendOthers
  | moreDetailsRequired
  deriving DecidableEq, Repr

/-- `RequestsTransferer` を作り、`enqueue_task` に渡すことの結果。 -/
inductive Transfer
  | notBuilt
  | refused
  | accepted
  deriving DecidableEq, Repr

/-- `Server::add_request` の道筋。`fresh` は、新しい接続である。 -/
inductive AddRequest
  | deactivated
  | invalidConnection
  | notConstructed
  | notPlaced
  | connectionThrew (fresh : Bool)
  | added (fresh : Bool)
  deriving DecidableEq, Repr

/-- 一度の呼び出しの答え。`enqueue` は、要求の `set_error` と `enqueue_task` が例外を投げないことである。 -/
structure Answer where
  transfer : Transfer
  enqueue : Bool
  requestPolicy : RequestPolicy
  deactivating : Bool
  addRequest : AddRequest
  deriving DecidableEq, Repr

/-- `readded` は、`Connection::add_request` が返ったことである。 -/
inductive Event (ρ : Type)
  | serverConnectionAdded
  | serverConnectionRemoved
  | connectionRequestAdded (request : ρ)
  | connectionRequestRemoved (request : ρ)
  | checkTryClose
  | readded (request : ρ)
  | serverRequestRemoved (request : ρ)
  | onError (request : ρ)
  | quickOnError (request : ρ)
  | error
  deriving DecidableEq, Repr

structure World (ρ : Type) where
  tick : Nat
  log : List (Event ρ)
  deriving DecidableEq, Repr

def World.init : World ρ := ⟨0, []⟩

def World.note (w : World ρ) (events : List (Event ρ)) : World ρ := { w with log := w.log ++ events }

def World.call (w : World ρ) : World ρ := { w with tick := w.tick + 1 }

section Server

variable (env : Nat → Answer) (description : String)

def addRequest (request : ρ) (w : World ρ) : World ρ × Bool :=
  match (env w.tick).addRequest with
  | .deactivated | .invalidConnection | .notConstructed => (w.call, false)
  | .notPlaced => (w.call.note [.serverConnectionAdded, .serverConnectionRemoved], false)
  | .connectionThrew fresh =>
      (w.call.note ((if fresh then [.serverConnectionAdded] else []) ++
        [.connectionRequestAdded request, .connectionRequestRemoved request, .checkTryClose]), false)
  | .added fresh =>
      (w.call.note ((if fresh then [.serverConnectionAdded] else []) ++
        [.connectionRequestAdded request, .readded request]), true)

/-- `add_task_on_error_`。`set_error` は、空の説明を断る。 -/
def addTaskOnError (request : ρ) (w : World ρ) : World ρ :=
  if description ≠ "" ∧ (env w.tick).enqueue then
    w.call.note [.serverRequestRemoved request, .onError request]
  else
    w.call.note [.serverRequestRemoved request, .error, .quickOnError request]

def processRequest (request : ρ) (w : World ρ) : World ρ :=
  match (env w.tick).requestPolicy with
  | .resendAll =>
      let r := addRequest env request w.call
      if r.2 then r.1 else addTaskOnError env description request r.1
  | _ => addTaskOnError env description request w.call

/-- `RP_MORE_DETAILS_REQUIRED` のループ。 -/
def detailLoop : List ρ → World ρ → List ρ × World ρ
  | [], w => ([], w)
  | request :: requests, w =>
      if (env w.tick).deactivating then (request :: requests, w.call)
      else detailLoop requests (processRequest env description request w.call)

/-- `RP_CANCEL_FIRST_RESEND_OTHERS` の部分。 -/
def cancelFirst : List ρ → World ρ → List ρ × World ρ
  | [], w => ([], w)
  | request :: requests, w => (requests, addTaskOnError env description request w)

def resendLoop : List ρ → World ρ → List ρ × World ρ
  | [], w => ([], w.call)
  | request :: requests, w =>
      if (env w.tick).deactivating then (request :: requests, w.call)
      else
        let r := addRequest env request w.call
        if r.2 then resendLoop requests r.1 else (request :: requests, r.1)

def cancelLoop : List ρ → World ρ → World ρ
  | [], w => w
  | request :: requests, w => cancelLoop requests (addTaskOnError env description request w)

/-- `process_requests`。どの答えも、次の答えの部分に続く。 -/
def processRequests (requests : List ρ) (w : World ρ) : World ρ :=
  let policy := (env w.tick).requestPolicy
  let r := (requests, w.call)
  let r := if policy = .moreDetailsRequired then detailLoop env description r.1 r.2 else r
  let r := if policy = .moreDetailsRequired ∨ policy = .cancelFirstResendOthers
      then cancelFirst env description r.1 r.2 else r
  let r := if policy ≠ .cancelAll then resendLoop env r.1 r.2 else r
  cancelLoop env description r.1 r.2

def execute (request : Option ρ) (requests : List ρ) (w : World ρ) : World ρ :=
  let w := match request with
    | some request => processRequest env description request w
    | none => w
  if requests = [] then w else processRequests env description requests w

def quickLoop : List ρ → World ρ → World ρ
  | [], w => w
  | request :: requests, w => quickLoop requests (w.note [.serverRequestRemoved request, .quickOnError request])

def transfRequests (request : Option ρ) (requests : List ρ) (w : World ρ) : World ρ :=
  match (env w.tick).transfer with
  | .accepted => execute env description request requests w.call
  | .notBuilt => quickLoop (request.toList ++ requests) (w.call.note [.error])
  -- `requests` は、仕事に移されていて、空である。
  | .refused => quickLoop request.toList (w.call.note [.error])

def transfUnusedRequests (requests : List ρ) : World ρ := transfRequests env description none requests .init

def transfFailedRequest (request : ρ) : World ρ := transfRequests env description (some request) [] .init

end Server

end UnixCommons.HTTP.RequestsTransferer
