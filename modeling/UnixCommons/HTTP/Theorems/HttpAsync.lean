import UnixCommons.HTTP.Lemmas.HttpAsyncPoolStep
import UnixCommons.HTTP.Lemmas.RequestsTransferer

/-!
# 非同期の HTTP の定理

要求の信号の列、要求の受け渡し、接続の数の上限。
-/

namespace UnixCommons.HTTP.SignalQueue

open Lib

/-!
## 知らせる列の定理

管への書き込みが失敗すると、例外を投げた `add` の物も列に残り、知らせのないまま `flush` に渡される。
-/

variable {s : State} {actions : List Action}

/-- 渡した物は、置いた順に一度ずつであり、`flush` の後には、返した `add` の物は全て渡されている。例外を投げた `add` の物は渡されない。`flush` の前に
列が空でなければ、管に知らせがあるか、知らせる途中の `add` があるか、`handle_read_` が列を空にする途中である。 -/
structure State.LosesNothing (s : State) : Prop where
  ordered : s.passed.Pairwise (· < ·)
  delivered : s.flush = .after → ∀ i, s.adders[i]? = some .returned → s.passed.count i = 1
  refused : ∀ i, s.adders[i]? = some .threw → i ∉ s.passed
  woken : s.flush = .before → s.queue ≠ [] → s.Woken

/-- どの列でも、`flush` の後には、置いた物が全て、置いた順に渡されている。例外を投げた `add` の物も渡されている。 -/
theorem flush_passes_all (hrun : execute step State.init actions = some s) (hf : s.flush = .after) :
    s.passed = List.range s.adders.length := by
  have hs : s.Ordered := execute_always (fun _ _ _ hs h => hs.step h) .init hrun
  rw [← hs.ordered, hs.flushed hf, List.append_nil]

/-- 書き込みの失敗しない列の、どの状態でも、物は失われない。 -/
theorem signal_queue_loses_nothing (hok : Along step (fun _ action => signalFails action = false) State.init actions)
    (hrun : execute step State.init actions = some s) : s.LosesNothing := by
  have ho : s.Ordered := execute_always (fun _ _ _ hs h => hs.step h) .init hrun
  have hs : s.Signalled := execute_invariant (fun _ _ _ hs hok h => hs.step hok h) .init hok hrun
  constructor
  · have hsorted : (s.passed ++ s.queue).Pairwise (· < ·) := by
      rw [ho.ordered]
      exact List.pairwise_lt_range
    exact (List.pairwise_append.mp hsorted).1
  · intro hf i hi
    have hlt : i < s.adders.length := (List.getElem?_eq_some_iff.mp hi).1
    rw [flush_passes_all hrun hf]
    rw [List.nodup_range.count, if_pos (List.mem_range.mpr hlt)]
  · intro i hi
    exact absurd (List.mem_of_getElem? hi) hs.clean
  · exact hs.woken

/-- 二つの `add` の間に `handle_read_` が列を空にする列。 -/
def drainedRun : List Action :=
  [.push, .push, .register, .signal 0 true, .read 1, .pop, .push, .pop, .pop, .pop, .push,
    .signal 3 true, .flushBegin, .flushPop, .flushPop]

theorem signal_queue_loses_nothing_drained :
    ∃ s, execute step State.init drainedRun = some s ∧ s.passed = [0, 1, 2, 3] ∧ s.LosesNothing := by
  have hok : Along step (fun _ action => signalFails action = false) State.init drainedRun := by decide
  exact ⟨_, rfl, rfl, signal_queue_loses_nothing hok rfl⟩

/-- 一つ目の `add` の書き込みが失敗し、二つ目の `add` は知らせない列。 -/
def silentRun : List Action := [.register, .push, .signal 0 false, .push]

/-- 列に物が残り、誰も列を見ない。 -/
theorem signal_queue_silent : ∃ s, execute step State.init silentRun = some s ∧ s.queue = [0, 1] ∧ ¬ s.LosesNothing := by
  refine ⟨_, rfl, rfl, fun h => ?_⟩
  rcases h.woken rfl (by decide) with hpipe | hadder | hreader
  · exact absurd hpipe (by decide)
  · exact absurd hadder (by decide)
  · exact hreader rfl

/-- 例外を投げた `add` の物が、`flush` に渡される列。 -/
example : (execute step State.init (silentRun ++ [.flushBegin, .flushPop, .flushPop,
    .flushPop])).map (fun s => (s.passed, s.adders)) =
    some ([0, 1], [.threw, .returned]) := by decide

end UnixCommons.HTTP.SignalQueue

namespace UnixCommons.HTTP.RequestsTransferer

/-!
## 失敗した要求の定理

要求を移した仕事を `enqueue_task` が断ると、移した要求は仕事と共に捨てられる。
-/

variable {ρ : Type} [DecidableEq ρ]

structure AnsweredOnce (requests : List ρ) (log : List (Event ρ)) : Prop extends Answered requests log where
  once : ∀ request, requests.count request = 1 →
    (readded log request = 1 ∧ reported log request = 0) ∨ (readded log request = 0 ∧ reported log request = 1)

theorem AnsweredOnce.ofAnswers {requests : List ρ} {w : World ρ} (h : Answers requests .init w) :
    AnsweredOnce requests w.log := by
  obtain ⟨log, hlog, ha⟩ := h
  cases hlog
  exact ⟨ha, fun _ hr => ha.once hr⟩

/-- `transf_unused_requests` がどの要求にも一度だけ答えるのは、要求のない時と、仕事が断られない時であり、その時に限る。`transf_failed_request` は、いつも
一度だけ答える。 -/
theorem failed_requests_answered (env : Nat → Answer) (description : String) (requests : List ρ)
    (request : ρ) : (AnsweredOnce requests (transfUnusedRequests env description requests).log ↔
    requests = [] ∨ (env 0).transfer ≠ .refused) ∧
      AnsweredOnce [request] (transfFailedRequest env description request).log := by
  have hall : Answers (if (env 0).transfer = .refused then [] else requests) .init
      (transfUnusedRequests env description requests) :=
    transfRequests_answers env description none requests .init
  have hone : Answers ([request] ++ if (env 0).transfer = .refused then [] else []) .init
      (transfFailedRequest env description request) :=
    transfRequests_answers env description (some request) [] .init
  refine ⟨⟨fun h => ?_, fun h => .ofAnswers ?_⟩, .ofAnswers ?_⟩
  · by_contra hc
    simp only [not_or, not_not] at hc
    -- 断られた時は、誰も答えていない。
    have hnone : AnsweredOnce [] (transfUnusedRequests env description requests).log :=
      .ofAnswers (by simpa [hc.2] using hall)
    obtain ⟨first, hfirst⟩ := List.exists_mem_of_ne_nil requests hc.1
    have hcount : requests.count first = 0 := by rw [← h.counted first, hnone.counted first, List.count_nil]
    exact List.count_eq_zero.mp hcount hfirst
  · rcases h with rfl | h
    · simpa using hall
    · simpa [h] using hall
  · simpa using hone

/-- `enqueue_task` が断ると、渡した要求は、加えられもせず、知らされもしない。 -/
theorem failed_request_dropped :
    let env : Nat → Answer := fun _ => ⟨.refused, true, .resendAll, false, .added false⟩
    let log := (transfUnusedRequests env "Closed" [7]).log
    log = [.error] ∧ ¬ AnsweredOnce [7] log := by
  refine ⟨rfl, fun h => ?_⟩
  rcases h.once 7 (by decide) with ⟨h, -⟩ | ⟨-, h⟩
  · exact absurd h (by decide)
  · exact absurd h (by decide)

/-- 一つ目を取り消し、二つ目を送り直し、三つ目の送り直しが失敗する列。 -/
example :
    let env : Nat → Answer := fun n =>
      ⟨.accepted, n != 2, .cancelFirstResendOthers, false, if n < 5 then .added true else .connectionThrew false⟩
    (transfUnusedRequests env "Closed" [7, 8, 9]).log =
      [.serverRequestRemoved 7, .error, .quickOnError 7, .serverConnectionAdded, .connectionRequestAdded 8, .readded 8,
        .connectionRequestAdded 9, .connectionRequestRemoved 9, .checkTryClose,
        .serverRequestRemoved 9, .onError 9] := by decide

end UnixCommons.HTTP.RequestsTransferer

namespace UnixCommons.HTTP.HttpAsyncPool

open Lib PoolPolicy

/-!
## 接続の集まりの定理

列に置いた後の書き込みが失敗すると、要求は、接続と、例外を捕らえた `add_request` とで、二度減る。また、
`int` に直すと零になる待つ時間は、すぐに閉じてよいという答えになる。
-/

variable {cfg : Settings} {s : State} {actions : List Action}

/-- 閉じてよいと答えた接続と糸は空であり、その後に選ばれも増やされもしない。どの数も零より小さくならない。 -/
structure State.Kept (cfg : Settings) (s : State) : Prop where
  closedEmpty : ∀ e ∈ s.log, e.Empty
  neverAgain : s.log.Pairwise Event.Allowed
  connectionItems : ∀ c r, s.policy.connections c = some r → 0 ≤ r.itemsCount
  threadItems : ∀ t r, s.policy.thread t = some r → 0 ≤ r.itemsCount ∧ r.itemsCount ≤ max 1 cfg.connectionsPerThreads
  serverLimit : ∀ server ptrs, s.policy.servers server = some ptrs →
    ptrs.countP (nonClosing s.policy.connections) ≤ max 1 cfg.connectionsPerServer
  threadLimit : ∀ t, (places s.conns).count (some t) ≤ max 1 cfg.connectionsPerThreads

theorem Inv.kept (h : Inv cfg s) : s.Kept cfg := by
  constructor
  · exact h.log.empty
  · exact h.log.ordered
  · intro c r hr
    have hlt : c < s.conns.length := by
      by_contra hle
      rw [h.conn.fresh c (Nat.le_of_not_lt hle)] at hr
      cases hr
    have hitems := ((h.conn.conn c _ (List.getElem?_eq_getElem hlt)).record r hr).items
    omega
  · intro t r hr
    have hitems := h.thread.items t r.toSimpleStat (by simp [Policy.threadStat, hr])
    have hlim := h.thread.limit t
    constructor
    · omega
    · omega
  · intro server ptrs hptrs
    exact Nat.le_of_add_right_le (h.conn.limit server ptrs hptrs)
  · exact h.thread.limit

/-- 書き込みの失敗しない列の、どの状態でも、方針は守られる。 -/
theorem pool_policy_kept (hc : Representable cfg.connectionDelay) (hd : Representable cfg.threadDelay)
    (hok : Along (step cfg) (fun _ action => writeFails action = false) State.init actions)
    (hrun : execute (step cfg) State.init actions = some s) : s.Kept cfg := by
  have hinv : Inv cfg s := execute_invariant (fun _ _ _ h hw hstep => h.step hc hd hw hstep) .init hok hrun
  exact hinv.kept

instance {delay : Int} : Decidable (Representable delay) := inferInstanceAs (Decidable (_ → _))

def openRun : List Action :=
  [.serverAdded 0, .chooseConnection 0, .create 0 0, .chooseThread 0, .addThread 0 0,
    .placeThread 0, .enqueueConnection 0 .returned,
    .addRequest 0, .register 0, .enqueueRequest 0 .returned]

/-- 要求に答えた後に、接続と糸を閉じ、次の要求のために、新しい接続を作る列。 -/
def closedRun : List Action :=
  openRun ++ [.removeRequest 0, .tryCloseConnection 0, .tryCloseConnection 0, .tryCloseConnection 0,
    .chooseConnection 0, .create 0 0,
    .chooseThread 0, .placeThread 0, .enqueueConnection 0 .threw, .catchThread 0, .addRequest 0,
    .excludeConnection 0, .leaveThread 0]

theorem pool_policy_kept_closed :
    ∃ s, execute (step ⟨1, 5, 3, 3⟩) State.init closedRun = some s ∧
      s.log = [.connectionAdded 0, .requestAdded 0, .connectionClosed 0 0, .threadChosen 0,
      .connectionAdded 0, .requestAdded 1] ∧ s.Kept ⟨1, 5, 3, 3⟩ := by
  have hok : Along (step ⟨1, 5, 3, 3⟩) (fun _ action => writeFails action = false) State.init closedRun := by decide
  exact ⟨_, rfl, rfl, pool_policy_kept (by decide) (by decide) hok rfl⟩

def twiceRun : List Action :=
  openRun ++ [.chooseConnection 0, .addRequest 0, .enqueueRequest 0 .threwLeft, .removeRequest 0,
    .removeRequest 0, .catchRequest 0]

/-- 一つの要求が二度減り、数が零より小さくなる。 -/
theorem pool_policy_twice :
    ∃ s, execute (step ⟨1, 5, 3, 3⟩) State.init twiceRun = some s ∧ (s.policy.connections 0).map
      (·.itemsCount) = some (-1) ∧ ¬ s.Kept ⟨1, 5, 3, 3⟩ :=
  ⟨_, rfl, rfl, fun h => absurd (h.connectionItems 0 _ rfl) (by decide)⟩

/-- 待つ時間が `2 ^ 32` であると、閉じてよいと答えた接続が、次の要求のために選ばれる。 -/
example : (execute (step ⟨1, 5, 3, 4294967296⟩) State.init
    (openRun ++ [.removeRequest 0, .tryCloseConnection 0, .chooseConnection 0])).map (·.log) =
    some [.connectionAdded 0, .requestAdded 0, .connectionClosed 0 0, .connectionChosen 0] := rfl

end UnixCommons.HTTP.HttpAsyncPool
