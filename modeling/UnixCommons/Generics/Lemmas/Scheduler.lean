import UnixCommons.Generics.Scheduler
import UnixCommons.Lib.Machine

/-! # 予定の配達の補題 -/

namespace UnixCommons.Generics.Planner

open Lib

variable {γ : Type}
variable {adjustment : Bool} {s t : State γ} {m x : TimedMessage γ}
    {l messages pending delivered removed scheduled : List (TimedMessage γ)}
variable {calls : List (TimedMessage γ × Int)} {goal : γ} {time shift clock curTime : Int}
    {worker : Worker} {action : Action γ}
variable {deadline : Option Int} {haveNewEvents : Bool} {signalers : Nat}

/-! ## ループ -/

theorem insertLoop_spec (m : TimedMessage γ) (l : List (TimedMessage γ)) :
    ∃ later earlier, l = later ++ earlier ∧ insertLoop m l = (later ++ m :: earlier, earlier.isEmpty) ∧
      (∀ x ∈ later, m.time ≤ x.time) ∧ (∀ x ∈ earlier.head?, x.time < m.time) := by
  induction l with
  | nil => exact ⟨[], [], rfl, rfl, by simp, by simp⟩
  | cons x l ih =>
      rw [insertLoop]
      by_cases h : x.time < m.time
      · rw [if_pos h]
        refine ⟨[], x :: l, rfl, rfl, by simp, ?_⟩
        intro y hy
        simp only [List.head?_cons, Option.mem_some_iff] at hy
        exact hy ▸ h
      · obtain ⟨later, earlier, rfl, heq, hlater, hearlier⟩ := ih
        rw [if_neg h, heq]
        refine ⟨x :: later, earlier, rfl, rfl, ?_, hearlier⟩
        intro y hy
        cases hy with
        | head => exact Int.not_lt.mp h
        | tail _ hy => exact hlater y hy

theorem unscheduleLoop_eq [DecidableEq γ] (goal : γ) (l : List (TimedMessage γ)) :
    unscheduleLoop goal l = (l.filter (fun x => !decide (x.goal = goal)), l.filter (fun x => decide (x.goal = goal)),
      (l.filter (fun x => decide (x.goal = goal))).length) := by
  induction l with
  | nil => rfl
  | cons x l ih =>
      rw [unscheduleLoop, ih]
      by_cases h : x.goal = goal <;> simp [h]

theorem pumpLoop_spec (adjustment : Bool) (shift curTime : Int) (l : List (TimedMessage γ)) :
    ∃ chosen rest, l = chosen ++ rest ∧
      pumpLoop adjustment shift curTime l = (chosen, rest, rest.head?.map fun x => deliveryTime adjustment shift x.time) ∧
      ∀ x ∈ chosen, deliveryTime adjustment shift x.time ≤ curTime := by
  induction l with
  | nil => exact ⟨[], [], rfl, rfl, by simp⟩
  | cons x l ih =>
      rw [pumpLoop]
      by_cases h : deliveryTime adjustment shift x.time ≤ curTime
      · obtain ⟨chosen, rest, rfl, heq, hchosen⟩ := ih
        rw [if_pos h, heq]
        refine ⟨x :: chosen, rest, rfl, rfl, ?_⟩
        intro y hy
        cases hy with
        | head => exact h
        | tail _ hy => exact hchosen y hy
      · rw [if_neg h]
        exact ⟨[], x :: l, rfl, rfl, by simp⟩

theorem deliveryTime_mono {a b : Int} (h : a ≤ b) : deliveryTime adjustment shift a ≤ deliveryTime adjustment shift b := by
  unfold deliveryTime
  split
  · split <;> split <;> omega
  · exact h

@[simp] theorem deliveryTime_false : deliveryTime false shift time = time := rfl

/-! ## 不変条件 -/

def Sorted (messages : List (TimedMessage γ)) : Prop := messages.Pairwise fun a b => a.time ≤ b.time

structure Partition (messages pending delivered removed scheduled : List (TimedMessage γ)) : Prop where
  perm : (messages ++ pending ++ delivered ++ removed).Perm scheduled
  numbered : scheduled.map TimedMessage.number = List.range scheduled.length
  clipped : ∀ m ∈ scheduled, m.time = max m.asked 0

/-- 呼び出したのは、配達した物と、今 `deliver` の中にある物だけである。 -/
structure Called (worker : Worker) (pending delivered : List (TimedMessage γ))
    (calls : List (TimedMessage γ × Int)) : Prop where
  logged : calls.map Prod.fst = delivered ++ if worker = .inDeliver then pending.take 1 else []
  busy : worker = .inDeliver → pending ≠ []
  empty : worker ≠ .inDeliver → worker ≠ .delivering → pending = []

/-- 早めない時は、どの物も、その時刻の前に選ばれたり、配達されたりしない。 -/
structure Timely (adjustment : Bool) (clock : Int) (pending : List (TimedMessage γ))
    (calls : List (TimedMessage γ × Int)) : Prop where
  pending : adjustment = false → ∀ m ∈ pending, m.time ≤ clock
  calls : adjustment = false → ∀ call ∈ calls, call.1.time ≤ call.2

def Covers (adjustment : Bool) (shift : Int) (deadline : Option Int) (messages : List (TimedMessage γ)) : Prop :=
  ∀ m ∈ messages, ∃ absTime, deadline = some absTime ∧ absTime ≤ deliveryTime adjustment shift m.time

def Worker.deadline? : Worker → Option (Option Int)
  | .idle deadline => some deadline
  | .blocked deadline => some deadline
  | .awake deadline _ => some deadline
  | _ => none

/-- 眠ろうとする糸は、間に合う期限を持つか、新しい物を知らされている。 -/
structure Awaited (adjustment : Bool) (worker : Worker) (shift : Int) (haveNewEvents : Bool)
    (signalers : Nat) (messages : List (TimedMessage γ)) : Prop where
  covered : ∀ deadline, worker.deadline? = some deadline → haveNewEvents = false → Covers adjustment shift deadline messages
  signalled : ∀ deadline, worker = .blocked deadline → haveNewEvents = true → 0 < signalers

structure State.Inv (adjustment : Bool) (s : State γ) : Prop where
  sorted : Sorted s.messages
  partition : Partition s.messages s.pending s.delivered s.removed s.scheduled
  called : Called s.worker s.pending s.delivered s.calls
  timely : Timely adjustment s.clock s.pending s.calls
  awaited : Awaited adjustment s.worker s.deliveryTimeShift s.haveNewEvents s.signalers s.messages

theorem Covers.mono (h : Covers adjustment shift deadline messages)
    (hl : ∀ x ∈ l, ∃ y ∈ messages, y.time ≤ x.time) : Covers adjustment shift deadline l := by
  intro x hx
  obtain ⟨y, hy, hle⟩ := hl x hx
  obtain ⟨absTime, hd, ht⟩ := h y hy
  exact ⟨absTime, hd, Int.le_trans ht (deliveryTime_mono hle)⟩

theorem Awaited.of_not_waiting (hd : worker.deadline? = none) :
    Awaited adjustment worker shift haveNewEvents signalers messages := by
  constructor
  · intro deadline hdeadline
    rw [hd] at hdeadline
    cases hdeadline
  · intro deadline hw
    subst hw
    cases hd

theorem Awaited.mono (h : Awaited adjustment worker shift haveNewEvents signalers messages)
    (hl : ∀ x ∈ l, ∃ y ∈ messages, y.time ≤ x.time) : Awaited adjustment worker shift haveNewEvents signalers l :=
  ⟨fun deadline hd hn => (h.covered deadline hd hn).mono hl, h.signalled⟩

theorem Awaited.awake {event : Bool} (h : Awaited adjustment worker shift haveNewEvents signalers messages)
    (hw : worker.deadline? = some deadline) : Awaited adjustment
    (.awake deadline event) shift haveNewEvents signalers messages := by
  constructor
  · intro deadline' hd hn
    simp only [Worker.deadline?, Option.some.injEq] at hd
    exact hd ▸ h.covered deadline hw hn
  · intro deadline' hd
    cases hd

theorem Called.of_resting {worker' : Worker} (h : Called worker pending delivered calls) (hw : worker ≠ .inDeliver)
    (hd : worker ≠ .delivering) (hw' : worker' ≠ .inDeliver) : Called worker' pending delivered calls := by
  have hlogged := h.logged
  rw [if_neg hw] at hlogged
  refine ⟨?_, fun hb => absurd hb hw', fun _ _ => h.empty hw hd⟩
  rw [if_neg hw']
  exact hlogged

theorem Worker.wake_eq_inDeliver_iff : worker.wake = .inDeliver ↔ worker = .inDeliver := by
  cases worker <;> simp [Worker.wake]

theorem Worker.wake_eq_delivering_iff : worker.wake = .delivering ↔ worker = .delivering := by
  cases worker <;> simp [Worker.wake]

theorem Worker.wake_ne_blocked : worker.wake ≠ .blocked deadline := by cases worker <;> simp [Worker.wake]

theorem Worker.wake_deadline? : worker.wake.deadline? = worker.deadline? := by cases worker <;> rfl

theorem Called.wake (h : Called worker pending delivered calls) : Called worker.wake pending delivered calls := by
  obtain ⟨hlogged, hbusy, hempty⟩ := h
  constructor
  · simpa only [Worker.wake_eq_inDeliver_iff] using hlogged
  · simpa only [Worker.wake_eq_inDeliver_iff] using hbusy
  · simpa only [ne_eq, Worker.wake_eq_inDeliver_iff, Worker.wake_eq_delivering_iff] using hempty

theorem Awaited.wake {n : Nat} {event : Bool} (h : Awaited adjustment worker shift haveNewEvents signalers messages)
    (he : event = false → haveNewEvents = false) : Awaited adjustment worker.wake shift event n messages := by
  constructor
  · intro deadline hd hn
    rw [Worker.wake_deadline?] at hd
    exact h.covered deadline hd (he hn)
  · intro deadline hw
    exact absurd hw Worker.wake_ne_blocked

/-! ## 鍵の下の操作 -/

theorem Sorted.insert {earlier later : List (TimedMessage γ)} (h : Sorted (earlier ++ later))
    (hlater : ∀ x ∈ later, m.time ≤ x.time)
    (hearlier : ∀ x ∈ earlier.getLast?, x.time < m.time) : Sorted (earlier ++ m :: later) := by
  obtain ⟨he, hl, hel⟩ := List.pairwise_append.mp h
  have hbefore : ∀ x ∈ earlier, x.time ≤ m.time := by
    intro x hx
    cases hlast : earlier.getLast? with
    | none =>
        rw [List.getLast?_eq_none_iff.mp hlast] at hx
        cases hx
    | some y =>
        obtain ⟨front, rfl⟩ := List.getLast?_eq_some_iff.mp hlast
        have hy := hearlier y (by rw [hlast, Option.mem_some_iff])
        rcases List.mem_append.mp hx with hx | hx
        · have := (List.pairwise_append.mp he).2.2 x hx y List.mem_cons_self
          omega
        · obtain rfl := List.mem_singleton.mp hx
          omega
  apply List.pairwise_append.mpr
  refine ⟨he, List.pairwise_cons.mpr ⟨hlater, hl⟩, ?_⟩
  intro x hx y hy
  cases hy with
  | head => exact hbefore x hx
  | tail _ hy => exact hel x hx y hy

theorem State.Inv.schedule {goal : Option γ} (h : s.Inv adjustment) : (s.schedule goal time).Inv adjustment := by
  cases goal with
  | none => exact h
  | some goal =>
      obtain ⟨hsorted, ⟨hperm, hnumbered, hclipped⟩, hcalled, htimely, hawaited⟩ := h
      rw [State.schedule]
      generalize hm : (⟨if time > 0 then time else 0, goal, s.scheduled.length, time⟩ : TimedMessage γ) = m
      obtain ⟨later, earlier, hmessages, heq, hlater, hearlier⟩ := insertLoop_spec m s.messages.reverse
      have hsplit : s.messages = earlier.reverse ++ later.reverse := by
        rw [← List.reverse_append, ← hmessages, List.reverse_reverse]
      have hinserted : (later ++ m :: earlier).reverse = earlier.reverse ++ m :: later.reverse := by simp
      simp only [heq, hinserted]
      refine ⟨?_, ⟨?_, ?_, ?_⟩, hcalled, htimely, ?_⟩
      · apply Sorted.insert
        · exact hsplit ▸ hsorted
        · simpa using hlater
        · simpa [List.getLast?_reverse] using hearlier
      · have : (earlier.reverse ++ m :: later.reverse).Perm (s.messages ++ [m]) := by
          rw [hsplit]
          exact List.perm_middle.trans (List.perm_append_singleton m _).symm
        calc
          _ = (earlier.reverse ++ m :: later.reverse) ++ (s.pending ++ s.delivered ++ s.removed) := by simp
          List.Perm _ ((s.messages ++ [m]) ++ (s.pending ++ s.delivered ++ s.removed)) := this.append_right _
          List.Perm _ ((s.messages ++ (s.pending ++ s.delivered ++ s.removed)) ++ [m]) := by
            rw [List.append_assoc s.messages [m], List.append_assoc s.messages _ [m]]
            exact List.perm_append_comm.append_left _
          List.Perm _ (s.scheduled ++ [m]) := (by simpa using hperm : List.Perm _ _).append_right _
      · have : m.number = s.scheduled.length := hm ▸ rfl
        simp [hnumbered, List.range_succ, this]
      · intro x hx
        rcases List.mem_append.mp hx with hx | hx
        · exact hclipped x hx
        · obtain rfl := List.mem_singleton.mp hx
          rw [← hm]
          simp only
          split <;> omega
      · cases hsignal : earlier.isEmpty with
        | true =>
            refine ⟨fun _ _ hn => ?_, fun _ _ _ => ?_⟩
            · simp at hn
            · simp
        | false =>
            simp only [Bool.false_or, Bool.false_eq_true, if_false]
            apply hawaited.mono
            intro x hx
            rw [hsplit]
            rcases List.mem_append.mp hx with hx | hx
            · exact ⟨x, List.mem_append_left _ hx, Int.le_refl _⟩
            · cases hx with
              | tail _ hx => exact ⟨x, List.mem_append_right _ hx, Int.le_refl _⟩
              | head =>
                  cases earlier with
                  | nil => cases hsignal
                  | cons y earlier =>
                      exact ⟨y, by simp, Int.le_of_lt (hearlier y (by simp))⟩

section Erase

variable {kept erased : List (TimedMessage γ)}

theorem State.Inv.erase (h : s.Inv adjustment) (hsub : kept.Sublist s.messages) (hperm : (kept ++ erased).Perm s.messages) :
    ({ s with messages := kept, removed := s.removed ++ erased }).Inv adjustment := by
  obtain ⟨hsorted, ⟨hall, hnumbered, hclipped⟩, hcalled, htimely, hawaited⟩ := h
  refine ⟨hsorted.sublist hsub, ⟨?_, hnumbered, hclipped⟩, hcalled, htimely,
    hawaited.mono fun x hx => ⟨x, hsub.subset hx, Int.le_refl _⟩⟩
  calc
    _ = kept ++ ((s.pending ++ s.delivered ++ s.removed) ++ erased) := by simp
    List.Perm _ (kept ++ (erased ++ (s.pending ++ s.delivered ++ s.removed))) := List.perm_append_comm.append_left _
    _ = (kept ++ erased) ++ (s.pending ++ s.delivered ++ s.removed) := by simp
    List.Perm _ (s.messages ++ (s.pending ++ s.delivered ++ s.removed)) := hperm.append_right _
    List.Perm _ s.scheduled := by simpa using hall

theorem State.Inv.unschedule [DecidableEq γ] (h : s.Inv adjustment) : (s.unschedule goal).1.Inv adjustment := by
  rw [State.unschedule, unscheduleLoop_eq]
  refine h.erase List.filter_sublist ?_
  exact List.perm_append_comm.trans (List.filter_append_perm (fun x => decide (x.goal = goal)) s.messages)

theorem State.Inv.clear (h : s.Inv adjustment) : s.clear.Inv adjustment :=
  h.erase (List.nil_sublist _) (List.Perm.refl _)

end Erase

/-! ## 糸 -/

theorem State.Inv.choose (h : s.Inv adjustment) (hw : s.worker = .choosing) : (s.choose adjustment).Inv adjustment := by
  obtain ⟨hsorted, ⟨hperm, hnumbered, hclipped⟩, hcalled, htimely, hawaited⟩ := h
  have hempty : s.pending = [] := hcalled.empty (by simp [hw]) (by simp [hw])
  rw [State.choose]
  split
  · refine ⟨hsorted, ⟨hperm, hnumbered, hclipped⟩, ?_, htimely, .of_not_waiting rfl⟩
    exact hcalled.of_resting (by simp [hw]) (by simp [hw]) (by simp)
  · obtain ⟨chosen, rest, hsplit, heq, hchosen⟩ := pumpLoop_spec adjustment s.deliveryTimeShift s.clock s.messages
    simp only [heq, hempty, List.nil_append]
    rw [hsplit] at hsorted
    have hrest := (List.pairwise_append.mp hsorted).2.1
    have hlogged : s.calls.map Prod.fst = s.delivered := by simpa [hw] using hcalled.logged
    refine ⟨hrest, ⟨?_, hnumbered, hclipped⟩, ⟨?_, ?_, ?_⟩, ⟨?_, htimely.calls⟩, ?_⟩
    · have : (rest ++ chosen).Perm s.messages := hsplit ▸ List.perm_append_comm
      calc
        _ = (rest ++ chosen) ++ (s.delivered ++ s.removed) := by simp
        List.Perm _ (s.messages ++ (s.delivered ++ s.removed)) := this.append_right _
        List.Perm _ s.scheduled := by simpa [hempty] using hperm
    · split <;> simp [hlogged]
    · split <;> simp
    · split <;> simp_all
    · intro hadj x hx
      have := hchosen x hx
      rwa [hadj, deliveryTime_false] at this
    · split
      · constructor
        · intro deadline hd _ x hx
          obtain rfl := Option.some.inj hd
          cases rest with
          | nil => cases hx
          | cons y rest =>
              refine ⟨_, rfl, deliveryTime_mono ?_⟩
              cases hx with
              | head => exact Int.le_refl _
              | tail _ hx => exact (List.pairwise_cons.mp hrest).1 x hx
        · intro deadline hd
          cases hd
      · exact .of_not_waiting rfl

theorem State.Inv.leaveWait {event : Bool} (h : s.Inv adjustment) (hw : s.worker.deadline?.isSome) :
    (s.leaveWait deadline event).Inv adjustment := by
  obtain ⟨hsorted, hpartition, hcalled, htimely, -⟩ := h
  have hd : s.worker ≠ .inDeliver := by
    intro hd
    simp [hd, Worker.deadline?] at hw
  have hd' : s.worker ≠ .delivering := by
    intro hd
    simp [hd, Worker.deadline?] at hw
  rw [State.leaveWait]
  split
  · exact ⟨hsorted, hpartition, hcalled.of_resting hd hd' (by simp), htimely, .of_not_waiting rfl⟩
  · split
    · exact ⟨hsorted, hpartition, hcalled.of_resting hd hd' (by simp), htimely, .of_not_waiting rfl⟩
    · exact ⟨hsorted, hpartition, hcalled.of_resting hd hd' (by simp), htimely, .of_not_waiting rfl⟩

theorem State.Inv.adjust (h : s.Inv adjustment) (hw : s.worker ≠ .inDeliver)
    (hd : s.worker ≠ .delivering) : (s.adjust adjustment deadline).Inv adjustment := by
  obtain ⟨hsorted, hpartition, hcalled, htimely, -⟩ := h
  have hcalled : Called .choosing s.pending s.delivered s.calls := hcalled.of_resting hw hd (by simp)
  cases deadline with
  | none => exact ⟨hsorted, hpartition, hcalled, htimely, .of_not_waiting rfl⟩
  | some absTime =>
      rw [State.adjust]
      split
      · exact ⟨hsorted, hpartition, hcalled, htimely, .of_not_waiting rfl⟩
      · exact ⟨hsorted, hpartition, hcalled, htimely, .of_not_waiting rfl⟩

theorem State.Inv.callDeliver {rest : List (TimedMessage γ)} (h : s.Inv adjustment)
    (hw : s.worker = .delivering) (hpending : s.pending = m :: rest) :
    ({ s with calls := s.calls ++ [(m, s.clock)], worker := .inDeliver }).Inv adjustment := by
  obtain ⟨hsorted, hpartition, hcalled, htimely, -⟩ := h
  have hlogged : s.calls.map Prod.fst = s.delivered := by simpa [hw] using hcalled.logged
  refine ⟨hsorted, hpartition, ⟨?_, ?_, ?_⟩, ⟨htimely.pending, ?_⟩, .of_not_waiting rfl⟩
  · simp [hlogged, hpending]
  · simp [hpending]
  · intro hne
    exact absurd rfl hne
  · intro hadj call hcall
    rcases List.mem_append.mp hcall with hcall | hcall
    · exact htimely.calls hadj call hcall
    · obtain rfl := List.mem_singleton.mp hcall
      exact htimely.pending hadj m (by simp [hpending])

theorem State.Inv.finishDeliver (h : s.Inv adjustment) (hw : s.worker = .inDeliver) :
    ({ s with delivered := s.delivered ++ s.pending.take 1, pending := s.pending.tail, worker :=
    .delivering }).Inv adjustment := by
  obtain ⟨hsorted, ⟨hperm, hnumbered, hclipped⟩, hcalled, htimely, -⟩ := h
  have hlogged := hcalled.logged
  rw [if_pos hw] at hlogged
  refine ⟨hsorted, ⟨?_, hnumbered, hclipped⟩, ⟨?_, ?_, ?_⟩, ⟨?_, htimely.calls⟩, .of_not_waiting rfl⟩
  · obtain ⟨m, rest, hpending⟩ := List.exists_cons_of_ne_nil (hcalled.busy hw)
    rw [hpending] at hperm ⊢
    refine List.Perm.trans ?_ hperm
    simp only [List.tail_cons, List.take_succ_cons, List.take_zero, List.append_assoc, List.cons_append, List.nil_append]
    apply List.Perm.append_left
    have hmiddle : ((rest ++ s.delivered) ++ m :: s.removed).Perm
        (m :: ((rest ++ s.delivered) ++ s.removed)) := List.perm_middle
    simpa using hmiddle
  · simp [hlogged]
  · simp
  · simp
  · intro hadj x hx
    exact htimely.pending hadj x (List.mem_of_mem_tail hx)

theorem State.Inv.work (h : s.Inv adjustment) (hstep : s.work adjustment = some t) : t.Inv adjustment := by
  rw [State.work] at hstep
  cases hw : s.worker with
  | stopped => simp [hw] at hstep
  | blocked deadline => simp [hw] at hstep
  | choosing =>
      simp only [hw, Option.some.injEq] at hstep
      exact hstep ▸ h.choose hw
  | idle deadline =>
      simp only [hw, Option.some.injEq] at hstep
      cases hn : s.haveNewEvents with
      | true =>
          rw [hn, if_pos rfl] at hstep
          exact hstep ▸ h.leaveWait (by rw [hw]; rfl)
      | false =>
          rw [if_neg (by simp [hn])] at hstep
          obtain ⟨hsorted, hpartition, hcalled, htimely, hawaited⟩ := h
          subst hstep
          refine ⟨hsorted, hpartition, hcalled.of_resting (by simp [hw]) (by simp [hw]) (by simp), htimely, ⟨?_, ?_⟩⟩
          · intro deadline' hd
            exact hawaited.covered deadline' (by rw [hw]; exact hd)
          · intro deadline' _ hn'
            simp [hn] at hn'
  | awake deadline event =>
      simp only [hw, Option.some.injEq] at hstep
      exact hstep ▸ h.leaveWait (by rw [hw]; rfl)
  | adjusting deadline =>
      simp only [hw, Option.some.injEq] at hstep
      exact hstep ▸ h.adjust (by simp [hw]) (by simp [hw])
  | delivering =>
      simp only [hw] at hstep
      cases hpending : s.pending with
      | nil =>
          simp only [hpending, Option.some.injEq] at hstep
          obtain ⟨hsorted, hpartition, hcalled, htimely, -⟩ := h
          rw [← hpending] at hstep
          subst hstep
          refine ⟨hsorted, hpartition, ⟨?_, ?_, ?_⟩, htimely, .of_not_waiting rfl⟩
          · simpa [hw] using hcalled.logged
          · simp
          · exact fun _ _ => hpending
      | cons m rest =>
          simp only [hpending, Option.some.injEq] at hstep
          rw [← hpending] at hstep
          exact hstep ▸ h.callDeliver hw hpending
  | inDeliver =>
      simp only [hw, Option.some.injEq] at hstep
      exact hstep ▸ h.finishDeliver hw

/-! ## 動作 -/

theorem State.Inv.init (clock : Int) : (State.init clock : State γ).Inv adjustment := by
  refine ⟨List.Pairwise.nil, ⟨List.Perm.refl _, rfl, by simp [State.init]⟩,
    ⟨rfl, by simp [State.init], fun _ _ => rfl⟩, ⟨?_, ?_⟩, .of_not_waiting rfl⟩
  · simp [State.init]
  · simp [State.init]

theorem State.Inv.wake {n : Nat} {event terminating : Bool} (h : s.Inv adjustment)
    (he : event = false → s.haveNewEvents = false) :
    ({ s with haveNewEvents := event, terminating := terminating, signalers := n, worker :=
    s.worker.wake }).Inv adjustment :=
  ⟨h.sorted, h.partition, h.called.wake, h.timely, h.awaited.wake he⟩

theorem State.Inv.awake {event : Bool} (h : s.Inv adjustment) (hw : s.worker = .blocked deadline) :
    ({ s with worker := .awake deadline event }).Inv adjustment :=
  ⟨h.sorted, h.partition, h.called.of_resting (by simp [hw]) (by simp [hw]) (by simp), h.timely,
    h.awaited.awake (by rw [hw]; rfl)⟩

theorem State.Inv.step [DecidableEq γ] (h : s.Inv adjustment)
    (hstep : step adjustment s action = some t) : t.Inv adjustment := by
  cases action with
  | schedule goal time =>
      obtain rfl := Option.some.inj hstep
      exact h.schedule
  | signal =>
      rw [Planner.step] at hstep
      split at hstep
      · cases hstep
      · obtain rfl := Option.some.inj hstep
        exact h.wake id
  | unschedule goal =>
      obtain rfl := Option.some.inj hstep
      exact h.unschedule
  | clear =>
      obtain rfl := Option.some.inj hstep
      exact h.clear
  | terminate =>
      obtain rfl := Option.some.inj hstep
      exact h.wake (by simp)
  | restart =>
      rw [Planner.step] at hstep
      split at hstep
      case isTrue hw =>
        obtain rfl := Option.some.inj hstep
        exact ⟨h.sorted, h.partition, h.called.of_resting (by simp [hw]) (by simp [hw]) (by simp),
          h.timely, .of_not_waiting rfl⟩
      · cases hstep
  | work => exact h.work hstep
  | timeout =>
      rw [Planner.step] at hstep
      cases hw : s.worker with
      | blocked deadline =>
          cases deadline with
          | none => simp [hw] at hstep
          | some absTime =>
              simp only [hw] at hstep
              split at hstep
              · obtain rfl := Option.some.inj hstep
                exact h.awake hw
              · cases hstep
      | _ => simp [hw] at hstep
  | spurious =>
      rw [Planner.step] at hstep
      split at hstep
      · cases hstep
      · obtain rfl := Option.some.inj hstep
        exact h.wake id
  | fail =>
      rw [Planner.step] at hstep
      cases hw : s.worker with
      | blocked deadline =>
          simp only [hw, Option.some.injEq] at hstep
          exact hstep ▸ h.awake hw
      | _ => simp [hw] at hstep
  | tick clock =>
      rw [Planner.step] at hstep
      split at hstep
      case isTrue hclock =>
        obtain rfl := Option.some.inj hstep
        refine ⟨h.sorted, h.partition, h.called, ⟨fun hadj x hx => ?_, h.timely.calls⟩, h.awaited⟩
        exact Int.le_trans (h.timely.pending hadj x hx) hclock
      · cases hstep

end UnixCommons.Generics.Planner
