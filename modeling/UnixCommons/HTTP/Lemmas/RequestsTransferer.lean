import Mathlib.Tactic.SplitIfs
import Mathlib.Tactic
import UnixCommons.HTTP.RequestsTransferer

/-! # 要求の受け渡しの補題 -/

/-! ## 知らせる列の補題 -/

namespace UnixCommons.HTTP.SignalQueue

open Lib

variable {s t : State} {i : Nat} {quit check : Bool} {action : Action}

attribute [local grind =] State.finish

@[simp] theorem finish_queue : (s.finish quit check).queue = s.queue := by
  simp only [State.finish]
  split_ifs <;> rfl

@[simp] theorem finish_pipe : (s.finish quit check).pipe = s.pipe := by
  simp only [State.finish]
  split_ifs <;> rfl

@[simp] theorem finish_adders : (s.finish quit check).adders = s.adders := by
  simp only [State.finish]
  split_ifs <;> rfl

@[simp] theorem finish_flush : (s.finish quit check).flush = s.flush := by
  simp only [State.finish]
  split_ifs <;> rfl

@[simp] theorem finish_passed : (s.finish quit check).passed = s.passed := by
  simp only [State.finish]
  split_ifs <;> simp [State.passed, Callback.item?]

structure State.Ordered (s : State) : Prop where
  ordered : s.passed ++ s.queue = List.range s.adders.length
  flushed : s.flush = .after → s.queue = []

theorem State.Ordered.init : State.init.Ordered := ⟨rfl, by simp [State.init]⟩

theorem State.Ordered.same (hs : s.Ordered) (hq : t.queue = s.queue) (hp : t.passed = s.passed)
    (ha : t.adders.length = s.adders.length)
    (hf : t.flush = .after → s.flush = .after) : t.Ordered := by
  constructor
  · rw [hq, hp, ha]
    exact hs.ordered
  · intro h
    rw [hq]
    exact hs.flushed (hf h)

theorem State.Ordered.pop (hs : s.Ordered) {item : Nat} {rest : List Nat}
    (hq : s.queue = item :: rest) (htq : t.queue = rest)
    (hp : t.callbacks = s.callbacks ++ [.data item]) (ha : t.adders = s.adders) (hf : t.flush = s.flush) : t.Ordered := by
  constructor
  · rw [ha, ← hs.ordered, hq, htq]
    simp [State.passed, hp, Callback.item?]
  · intro h
    have hnil := hs.flushed (hf ▸ h)
    rw [hq] at hnil
    cases hnil

theorem State.Ordered.step (hs : s.Ordered) (h : SignalQueue.step s action = some t) : t.Ordered := by
  cases action with
  | register =>
      simp only [SignalQueue.step] at h
      split_ifs at h
      cases h
      exact hs.same rfl rfl rfl id
  | push =>
      simp only [SignalQueue.step] at h
      rw [Option.ite_none_right_eq_some] at h
      obtain ⟨hf, heq⟩ := h
      cases heq
      constructor
      · simp only [List.length_append, List.length_singleton, List.range_succ, ← hs.ordered, State.passed, List.append_assoc]
      · simp [hf]
  | signal i ok =>
      simp only [SignalQueue.step] at h
      split_ifs at h
      · cases h
        exact hs.same rfl rfl (by simp) id
      · cases h
        exact hs.same rfl rfl (by simp) id
  | post request =>
      simp only [SignalQueue.step] at h
      split_ifs at h
      cases h
      exact hs.same rfl rfl rfl id
  | read n =>
      simp only [SignalQueue.step] at h
      split_ifs at h
      · cases h
        exact hs.same rfl rfl rfl id
      · cases h
        exact hs.same (by simp) (finish_passed.trans rfl) (by simp) (by simp)
  | readFails =>
      simp only [SignalQueue.step] at h
      split_ifs at h
      cases h
      exact hs.same (by simp) (by simp) (by simp) (by simp)
  | pop =>
      simp only [SignalQueue.step] at h
      split at h
      · cases h
      · cases h
        exact hs.same (by simp) (by simp) (by simp) (by simp)
      · rename_i item rest _ hq
        cases h
        exact hs.pop hq rfl rfl rfl rfl
  | flushBegin =>
      simp only [SignalQueue.step] at h
      split_ifs at h
      cases h
      exact hs.same rfl rfl rfl (by simp)
  | flushPop =>
      simp only [SignalQueue.step] at h
      split_ifs at h
      split at h
      · rename_i hq
        cases h
        exact ⟨hs.ordered, fun _ => hq⟩
      · rename_i item rest hq
        cases h
        exact hs.pop hq rfl rfl rfl rfl

def State.Woken (s : State) : Prop := .data ∈ s.pipe ∨ .signalling ∈ s.adders ∨ s.reader ≠ .idle

/-- 例外を投げた `add` はなく、`flush` の前の列が空でなければ、これから列を見る者がある。 -/
structure State.Signalled (s : State) : Prop where
  clean : .threw ∉ s.adders
  woken : s.flush = .before → s.queue ≠ [] → s.Woken

theorem State.Signalled.init : State.init.Signalled := ⟨by simp [State.init], by simp [State.init]⟩

theorem State.Signalled.step (hs : s.Signalled) (hok : signalFails action = false)
    (h : SignalQueue.step s action = some t) : t.Signalled := by
  cases action with
  | register =>
      simp only [SignalQueue.step] at h
      split_ifs at h
      cases h
      exact ⟨hs.clean, hs.woken⟩
  | push =>
      simp only [SignalQueue.step] at h
      rw [Option.ite_none_right_eq_some] at h
      obtain ⟨hf, heq⟩ := h
      cases heq
      constructor
      · simp only [List.mem_append, List.mem_singleton, not_or]
        refine ⟨hs.clean, ?_⟩
        split_ifs <;> simp
      · intro _ _
        by_cases hq : s.queue = []
        · exact .inr (.inl (by simp [hq]))
        · rcases hs.woken hf hq with hpipe | hadder | hreader
          · exact .inl hpipe
          · exact .inr (.inl (List.mem_append_left _ hadder))
          · exact .inr (.inr hreader)
  | signal i ok =>
      obtain rfl : ok = true := by simpa [signalFails] using hok
      simp only [SignalQueue.step, if_true] at h
      split_ifs at h
      cases h
      constructor
      · intro hmem
        rcases List.mem_or_eq_of_mem_set hmem with hmem | heq
        · exact hs.clean hmem
        · cases heq
      · intro _ _
        exact .inl (by simp)
  | post request =>
      simp only [SignalQueue.step] at h
      split_ifs at h
      cases h
      refine ⟨hs.clean, fun hf hq => ?_⟩
      rcases hs.woken hf hq with hpipe | hother
      · exact .inl (List.mem_append_left _ hpipe)
      · exact .inr hother
  | read n =>
      simp only [SignalQueue.step] at h
      split_ifs at h with hguard hdata
      · cases h
        exact ⟨hs.clean, fun _ _ => .inr (.inr (by simp))⟩
      · cases h
        refine ⟨by simpa using hs.clean, fun hf hq => ?_⟩
        rcases hs.woken (by simpa using hf) (by simpa using hq) with hpipe | hadder | hreader
        · left
          rw [← List.take_append_drop n s.pipe, List.mem_append] at hpipe
          simpa using hpipe.resolve_left hdata
        · exact .inr (.inl (by simpa using hadder))
        · exact absurd hguard.2.1 hreader
  | readFails =>
      simp only [SignalQueue.step] at h
      split_ifs at h with hguard
      cases h
      refine ⟨by simpa using hs.clean, fun hf hq => ?_⟩
      rcases hs.woken (by simpa using hf) (by simpa using hq) with hpipe | hadder | hreader
      · exact .inl (by simpa using hpipe)
      · exact .inr (.inl (by simpa using hadder))
      · exact absurd hguard.2 hreader
  | pop =>
      simp only [SignalQueue.step] at h
      split at h
      · cases h
      · rename_i hq
        cases h
        exact ⟨by simpa using hs.clean, fun _ hne => absurd hq (by simpa using hne)⟩
      · rename_i hreader _
        cases h
        exact ⟨hs.clean, fun _ _ => .inr (.inr (by simp [hreader]))⟩
  | flushBegin =>
      simp only [SignalQueue.step] at h
      split_ifs at h
      cases h
      exact ⟨hs.clean, by simp⟩
  | flushPop =>
      simp only [SignalQueue.step] at h
      split_ifs at h with hf
      split at h
      · cases h
        exact ⟨hs.clean, by simp⟩
      · cases h
        exact ⟨hs.clean, by simp [hf]⟩

end UnixCommons.HTTP.SignalQueue

/-! ## 失敗した要求の補題 -/

namespace UnixCommons.HTTP.RequestsTransferer

variable {ρ : Type}

section Counts

variable [DecidableEq ρ]

def readded (log : List (Event ρ)) (request : ρ) : Nat := log.count (.readded request)

/-- `on_error` と `quick_on_error` の呼び出し。 -/
def reported (log : List (Event ρ)) (request : ρ) : Nat := log.count (.onError request) + log.count (.quickOnError request)

def removed (log : List (Event ρ)) (request : ρ) : Nat := log.count (.serverRequestRemoved request)

/-- `requests` のどの要求も、現れる度に一度、接続に加えられたか知らされ、知らされる度に一度、`server_request_removed` が呼ばれた。 -/
structure Answered (requests : List ρ) (log : List (Event ρ)) : Prop where
  counted : ∀ request, readded log request + reported log request = requests.count request
  removed : ∀ request, removed log request = reported log request

namespace Answered

variable {requests others : List ρ} {request : ρ} {log log' : List (Event ρ)}

theorem nil : Answered ([] : List ρ) [] := ⟨fun _ => rfl, fun _ => rfl⟩

theorem append (h : Answered requests log) (h' : Answered others log') : Answered (requests ++ others) (log ++ log') := by
  constructor
  · intro r
    have h₁ := h.counted r
    have h₂ := h'.counted r
    simp only [readded, reported, List.count_append] at h₁ h₂ ⊢
    omega
  · intro r
    have h₁ := h.removed r
    have h₂ := h'.removed r
    simp only [RequestsTransferer.removed, reported, List.count_append] at h₁ h₂ ⊢
    omega

theorem once (h : Answered requests log) (hr : requests.count request = 1) :
    (readded log request = 1 ∧ reported log request = 0) ∨ (readded log request = 0 ∧ reported log request = 1) := by
  have hsum := h.counted request
  omega

theorem quiet (h : ∀ r, readded log r = 0 ∧ reported log r = 0 ∧ RequestsTransferer.removed log r = 0) : Answered [] log :=
  ⟨fun r => by simp [h r], fun r => by simp [h r]⟩

theorem error : Answered ([] : List ρ) [.error] := quiet (by simp [readded, reported, RequestsTransferer.removed])

theorem onError : Answered [request] [.serverRequestRemoved request, .onError request] := by
  constructor <;> intro r <;> simp [readded, reported, RequestsTransferer.removed, List.count_cons]

theorem quickOnError : Answered [request] [.serverRequestRemoved request, .quickOnError request] := by
  constructor <;> intro r <;> simp [readded, reported, RequestsTransferer.removed, List.count_cons]

end Answered

end Counts

/-- `w` から `w'` までに、`requests` に答えた。 -/
def Answers [DecidableEq ρ] (requests : List ρ) (w w' : World ρ) : Prop :=
  ∃ log, w'.log = w.log ++ log ∧ Answered requests log

section Answers

variable [DecidableEq ρ] {requests others : List ρ} {request : ρ} {w w' w'' : World ρ} {events : List (Event ρ)}

theorem Answers.refl (w : World ρ) : Answers [] w w := ⟨[], by simp, .nil⟩

theorem Answers.call (w : World ρ) : Answers [] w w.call := ⟨[], by simp [World.call], .nil⟩

theorem Answers.note (h : Answered requests events) : Answers requests w (w.note events) := ⟨events, rfl, h⟩

theorem Answers.trans (h : Answers requests w w') (h' : Answers others w' w'') : Answers (requests ++ others) w w'' := by
  obtain ⟨log, hlog, ha⟩ := h
  obtain ⟨log', hlog', ha'⟩ := h'
  exact ⟨log ++ log', by rw [hlog', hlog, List.append_assoc], ha.append ha'⟩

theorem Answers.ofCall (h : Answers requests w.call w') : Answers requests w w' := (Answers.call w).trans h

end Answers

section Server

variable [DecidableEq ρ] (env : Nat → Answer) (description : String)

theorem addRequest_answers (request : ρ) (w : World ρ) :
    Answers (if (addRequest env request w).2 then [request] else []) w (addRequest env request w).1 := by
  unfold addRequest
  split
  · exact .call w
  · exact .call w
  · exact .call w
  · exact .ofCall (.note (.quiet (by simp [readded, reported, removed])))
  · refine .ofCall (.note (.quiet fun r => ?_))
    split <;> simp [readded, reported, removed]
  · refine .ofCall (.note ⟨fun r => ?_, fun r => ?_⟩)
    · split <;> simp [readded, reported, List.count_cons]
    · split <;> simp [reported, removed]

theorem addRequest_added {request : ρ} {w : World ρ} (h : (addRequest env request w).2 = true) :
    Answers [request] w (addRequest env request w).1 := by
  simpa [h] using addRequest_answers env request w

theorem addRequest_threw {request : ρ} {w : World ρ} (h : (addRequest env request w).2 = false) :
    Answers [] w (addRequest env request w).1 := by
  simpa [h] using addRequest_answers env request w

theorem addTaskOnError_answers (request : ρ) (w : World ρ) : Answers [request] w
    (addTaskOnError env description request w) := by
  unfold addTaskOnError
  split
  · exact .ofCall (.note .onError)
  · refine .ofCall (.note ⟨fun r => ?_, fun r => ?_⟩)
    · simp [readded, reported, List.count_cons]
    · simp [reported, removed, List.count_cons]

theorem processRequest_answers (request : ρ) (w : World ρ) : Answers [request] w
    (processRequest env description request w) := by
  unfold processRequest
  split
  · apply Answers.ofCall
    cases h : (addRequest env request w.call).2 with
    | true => simpa [h] using addRequest_added env h
    | false => simpa [h] using (addRequest_threw env h).trans (addTaskOnError_answers env description request _)
  · exact .ofCall (addTaskOnError_answers env description request _)

def Handles (requests : List ρ) (w : World ρ) (r : List ρ × World ρ) : Prop :=
  ∃ done, requests = done ++ r.1 ∧ Answers done w r.2

variable {requests : List ρ} {w w' : World ρ} {r : List ρ × World ρ}

theorem Handles.none (h : Answers [] w w') : Handles requests w (requests, w') := ⟨[], rfl, h⟩

theorem Handles.cons {request : ρ} (h : Answers [request] w w') (ht : Handles requests w' r) :
    Handles (request :: requests) w r := by
  obtain ⟨done, hdone, ha⟩ := ht
  exact ⟨request :: done, by rw [hdone, List.cons_append], h.trans ha⟩

theorem Handles.trans {r' : List ρ × World ρ} (h : Handles requests w r) (h' : Handles r.1 r.2 r') :
    Handles requests w r' := by
  obtain ⟨done, hdone, ha⟩ := h
  obtain ⟨done', hdone', ha'⟩ := h'
  exact ⟨done ++ done', by rw [hdone, hdone', List.append_assoc], ha.trans ha'⟩

theorem Handles.answers (h : Handles requests w r) (h' : Answers r.1 r.2 w') : Answers requests w w' := by
  obtain ⟨done, hdone, ha⟩ := h
  simpa only [hdone] using ha.trans h'

theorem detailLoop_handles (requests : List ρ) (w : World ρ) : Handles requests w
    (detailLoop env description requests w) := by
  induction requests generalizing w with
  | nil => exact .none (.refl w)
  | cons request requests ih =>
      unfold detailLoop
      split
      · exact .none (.call w)
      · exact .cons (.ofCall (processRequest_answers env description request w.call)) (ih _)

theorem cancelFirst_handles (requests : List ρ) (w : World ρ) : Handles requests w
    (cancelFirst env description requests w) := by
  cases requests with
  | nil => exact .none (.refl w)
  | cons request requests => exact .cons (addTaskOnError_answers env description request w) (.none (.refl _))

theorem resendLoop_handles (requests : List ρ) (w : World ρ) : Handles requests w (resendLoop env requests w) := by
  induction requests generalizing w with
  | nil => exact .none (.call w)
  | cons request requests ih =>
      unfold resendLoop
      split
      · exact .none (.call w)
      · cases h : (addRequest env request w.call).2 with
        | true => simpa [h] using Handles.cons (.ofCall (addRequest_added env h)) (ih _)
        | false => simpa [h] using Handles.none (.ofCall (addRequest_threw env h))

theorem cancelLoop_answers (requests : List ρ) (w : World ρ) : Answers requests w
    (cancelLoop env description requests w) := by
  induction requests generalizing w with
  | nil => exact .refl w
  | cons request requests ih => exact (addTaskOnError_answers env description request w).trans (ih _)

theorem Handles.part {p : Prop} [Decidable p] {f : List ρ → World ρ → List ρ × World ρ}
    (hf : ∀ requests w, Handles requests w (f requests w))
    (h : Handles requests w r) : Handles requests w (if p then f r.1 r.2 else r) := by
  split
  · exact h.trans (hf _ _)
  · exact h

theorem processRequests_answers (requests : List ρ) (w : World ρ) : Answers requests w
    (processRequests env description requests w) := by
  have hcall : Handles requests w (requests, w.call) := .none (.call w)
  -- どの部分も、前の部分の残りから答え始める。
  have hdetail := hcall.part (p := (env w.tick).requestPolicy = .moreDetailsRequired) (detailLoop_handles env description)
  have hfirst := hdetail.part (p := (env w.tick).requestPolicy = .moreDetailsRequired ∨
      (env w.tick).requestPolicy = .cancelFirstResendOthers)
    (cancelFirst_handles env description)
  have hresend := hfirst.part (p := (env w.tick).requestPolicy ≠ .cancelAll) (resendLoop_handles env)
  exact hresend.answers (cancelLoop_answers env description _ _)

theorem execute_answers (request : Option ρ) (requests : List ρ) (w : World ρ) :
    Answers (request.toList ++ requests) w (execute env description request requests w) := by
  have hall : ∀ w : World ρ, Answers requests w
      (if requests = [] then w else processRequests env description requests w) := by
    intro w
    split
    · rename_i h
      simpa only [h] using Answers.refl w
    · exact processRequests_answers env description requests w
  cases request with
  | none => exact hall w
  | some request => exact (processRequest_answers env description request w).trans (hall _)

theorem quickLoop_answers (requests : List ρ) (w : World ρ) : Answers requests w (quickLoop requests w) := by
  induction requests generalizing w with
  | nil => exact .refl w
  | cons request requests ih => exact (Answers.note .quickOnError).trans (ih _)

theorem transfRequests_answers (request : Option ρ) (requests : List ρ) (w : World ρ) :
    Answers (request.toList ++ if (env w.tick).transfer = .refused then [] else requests) w
      (transfRequests env description request requests w) := by
  have herror : Answers ([] : List ρ) w (w.call.note [.error]) := .ofCall (.note .error)
  unfold transfRequests
  cases h : (env w.tick).transfer with
  | accepted => simpa using Answers.ofCall (execute_answers env description request requests w.call)
  | notBuilt => simpa using herror.trans (quickLoop_answers (request.toList ++ requests) _)
  | refused => simpa using herror.trans (quickLoop_answers request.toList _)

end Server

end UnixCommons.HTTP.RequestsTransferer
