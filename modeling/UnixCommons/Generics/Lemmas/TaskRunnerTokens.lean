import Mathlib.Data.List.Perm.Basic
import UnixCommons.Generics.Lemmas.TaskRunner

/-!
# 仕事と信号の補題

活動の始めに全ての糸を始める時、押し込まれた仕事は、待つか、取られたか、除かれたかの一つであり、`new_task_` の信号は、途中の呼び出しと糸のものを合わせて、待つ仕事とまだ止まっていない糸の分に足りる。
-/

namespace UnixCommons.Generics.TaskRunner

open Lib
open CompositeActiveObject (ActiveState)

variable {c : Config} {s t : State} {action : Action} {i base : Nat} {th : Thread} {x y : Producer} {point : Point}

/-! ## 仕事の置き場 -/

def Point.held : Point → List Nat
  | .releasing task => [task]
  | .executing task => [task]
  | _ => []

def heldTasks (threads : List Thread) : List Nat := threads.flatMap fun th => th.point.held

/-- 押し込まれた仕事は一つの置き場にあり、取られた仕事と待つ仕事は、押し込まれた順に並ぶ。 -/
structure State.Ordered (s : State) : Prop where
  order : (s.popped ++ s.tasks).Sublist (List.range s.pushed)
  places : (s.popped ++ s.tasks ++ s.dropped).Perm (List.range s.pushed)
  starts : (s.started ++ heldTasks s.threads).Perm s.popped

theorem heldTasks_setThread (ht : s.threads[i]? = some th) (hpoint : point.held = th.point.held) :
    heldTasks (s.setThread i th point).threads = heldTasks s.threads := by
  obtain ⟨before, after, hsplit, hset⟩ := exists_split_of_getElem? ht
  rw [State.setThread, hset, hsplit]
  simp [heldTasks, hpoint]

theorem heldTasks_perm (ht : s.threads[i]? = some th) :
    ∃ rest, (heldTasks s.threads).Perm (rest ++ th.point.held) ∧
      ∀ point, (heldTasks (s.setThread i th point).threads).Perm (rest ++ point.held) := by
  obtain ⟨before, after, hsplit, hset⟩ := exists_split_of_getElem? ht
  have hmove : ∀ l : List Nat, (heldTasks before ++ (l ++ heldTasks after)).Perm
      (heldTasks before ++ heldTasks after ++ l) := by
    intro l
    rw [List.append_assoc]
    exact List.perm_append_comm.append_left _
  refine ⟨heldTasks before ++ heldTasks after, ?_, ?_⟩
  · rw [hsplit]
    simpa [heldTasks] using hmove th.point.held
  · intro point
    rw [State.setThread, hset]
    simpa [heldTasks] using hmove point.held

theorem heldTasks_start {n : Nat} (threads : List Thread) :
    heldTasks (threads ++ List.replicate n ⟨.created, false⟩) = heldTasks threads := by
  have hnew : heldTasks (List.replicate n ⟨.created, false⟩) = [] := by
    apply List.flatMap_eq_nil_iff.mpr
    intro th hth
    rw [(List.mem_replicate.mp hth).2]
    rfl
  rw [heldTasks, List.flatMap_append]
  exact (congrArg (heldTasks threads ++ ·) hnew).trans (List.append_nil _)

theorem heldTasks_join (ht : s.threads[i]? = some th) :
    heldTasks (s.threads.set i { th with joined := true }) = heldTasks s.threads := by
  obtain ⟨before, after, hsplit, hset⟩ := exists_split_of_getElem? ht
  rw [hset, hsplit]
  simp [heldTasks]

theorem State.Ordered.init : (State.init c).Ordered := ⟨List.Sublist.refl _, List.Perm.refl _, List.Perm.refl _⟩

theorem State.Ordered.setThread (h : s.Ordered) (ht : s.threads[i]? = some th)
    (hpoint : point.held = th.point.held) : (s.setThread i th point).Ordered := by
  refine ⟨h.order, h.places, ?_⟩
  rw [heldTasks_setThread ht hpoint]
  exact h.starts

theorem State.Ordered.push (h : s.Ordered) : (s.push c i).Ordered := by
  have hrange : List.range (s.pushed + 1) = List.range s.pushed ++ [s.pushed] := List.range_succ
  refine ⟨?_, ?_, h.starts⟩
  · simp only [State.push, State.setProducer, hrange, ← List.append_assoc]
    exact h.order.append (List.Sublist.refl _)
  · simp only [State.push, State.setProducer, hrange]
    calc
      _ = (s.popped ++ s.tasks) ++ ([s.pushed] ++ s.dropped) := by simp
      List.Perm _ ((s.popped ++ s.tasks) ++ (s.dropped ++ [s.pushed])) := List.perm_append_comm.append_left _
      _ = (s.popped ++ s.tasks ++ s.dropped) ++ [s.pushed] := by simp
      List.Perm _ (List.range s.pushed ++ [s.pushed]) := h.places.append_right _

theorem State.Ordered.clear (h : s.Ordered) : (s.clear c).Ordered := by
  have hsub : (s.popped ++ []).Sublist (List.range s.pushed) :=
    ((List.Sublist.refl _).append (List.nil_sublist _)).trans h.order
  have hperm : (s.popped ++ [] ++ (s.dropped ++ s.tasks)).Perm (List.range s.pushed) := by
    refine List.Perm.trans ?_ h.places
    simpa using List.perm_append_comm.append_left s.popped
  rw [State.clear]
  split
  · split
    · exact ⟨hsub, hperm, h.starts⟩
    · exact ⟨h.order, h.places, h.starts⟩
  · exact ⟨hsub, hperm, h.starts⟩

theorem State.Ordered.pop {task : Nat} {tasks : List Nat} (h : s.Ordered)
    (ht : s.threads[i]? = some th) (hp : th.point = .locking)
    (hq : s.tasks = task :: tasks) (hheld : point.held = [task]) :
    ({ s with tasks := tasks, unusedThreads := (s.unusedThreads + 2 ^ 32 - 1) % 2 ^ 32, popped :=
    s.popped ++ [task] }.setThread i th point).Ordered := by
  obtain ⟨rest, hbefore, hafter⟩ := heldTasks_perm ht
  simp only [hp, Point.held, List.append_nil] at hbefore
  have hafter := hafter point
  rw [hheld] at hafter
  obtain ⟨order, places, starts⟩ := h
  rw [hq] at order places
  refine ⟨by simpa [State.setThread] using order, by simpa [State.setThread] using places, ?_⟩
  calc
    List.Perm _ (s.started ++ (rest ++ [task])) := hafter.append_left _
    _ = (s.started ++ rest) ++ [task] := (List.append_assoc _ _ _).symm
    List.Perm _ ((s.started ++ heldTasks s.threads) ++ [task]) := (hbefore.symm.append_left _).append_right _
    List.Perm _ (s.popped ++ [task]) := starts.append_right _

theorem State.Ordered.execute {task : Nat} (h : s.Ordered) (ht : s.threads[i]? = some th) (hp : th.point = .executing task) :
    ({ s with started := s.started ++ [task] }.setThread i th .counting).Ordered := by
  obtain ⟨rest, hbefore, hafter⟩ := heldTasks_perm ht
  have hafter := hafter .counting
  simp only [hp, Point.held, List.append_nil] at hbefore hafter
  refine ⟨h.order, h.places, ?_⟩
  calc
    List.Perm _ ((s.started ++ [task]) ++ rest) := hafter.append_left _
    _ = s.started ++ ([task] ++ rest) := List.append_assoc _ _ _
    List.Perm _ (s.started ++ (rest ++ [task])) := List.perm_append_comm.append_left _
    List.Perm _ (s.started ++ heldTasks s.threads) := hbefore.symm.append_left _
    List.Perm _ s.popped := h.starts

theorem State.Ordered.move (h : s.Ordered)
    (hslot : ∀ (i : Nat) (th : Thread), s.threads[i]? = some th → th.point.holdsSlot = true →
    s.notFull < c.semValueMax) (hm : Move c s action t) : t.Ordered := by
  cases hm with
  | push hp hu => exact h.push
  | create hp hn =>
      refine ⟨h.order, h.places, ?_⟩
      have hcreate : heldTasks (s.threads ++ List.replicate 1 ⟨.created, false⟩) =
          heldTasks s.threads := heldTasks_start s.threads
      simp only [State.setProducer, State.createThread]
      rw [List.replicate_one] at hcreate
      rw [hcreate]
      exact h.starts
  | startAcquire ht hp | startRelease ht hp | taskAcquire ht hp hf | unuse ht hp hu | free ht hp hf =>
      exact State.Ordered.setThread ⟨h.order, h.places, h.starts⟩ ht (by simp [hp, Point.held])
  | begin ht hp hn | notBegin ht hp hn | stop ht hp hu hf | retry ht hp hu hf hq =>
      exact h.setThread ht (by simp [hp, Point.held])
  | freeFailed ht hp hf => exact absurd (hslot _ _ ht (by rw [hp]; rfl)) (Nat.not_lt.mpr hf)
  | pop ht hp hu hf hq =>
      refine h.pop ht hp hq ?_
      split
      · rfl
      · rfl
  | execute ht hp => exact h.execute ht hp
  | clear hu => exact h.clear
  | start hu ha hn =>
      refine ⟨h.order, h.places, ?_⟩
      simp only [State.start]
      rw [heldTasks_start]
      exact h.starts
  | join hw ht hp =>
      refine ⟨h.order, h.places, ?_⟩
      rw [heldTasks_join ht]
      exact h.starts
  | _ => exact ⟨h.order, h.places, h.starts⟩

/-! ## 全ての糸を始める時 -/

def Point.unfinished : Point → Bool
  | .finished => false
  | _ => true

/-- 糸は、活動の始めに全て始まり、`enqueue_task` は糸を始めない。 -/
structure State.Staffed (c : Config) (s : State) : Prop where
  pool : ∃ base, s.Pool c base
  slots : s.Slots c
  none : s.producersWhere Producer.holds = 0
  all : s.numberRunning = 0 ∨ s.numberRunning = c.threadsNumber
  limited : 0 < s.threadsWhere Point.holdsSlot → c.limited = true

structure State.Lively (s : State) : Prop where
  active : s.activeState = .active → s.terminating = false ∧ s.numberRunning ≠ 0
  stopping : s.terminating = true → s.numberRunning ≠ 0 ∨ s.waiter = some .terminating
  alive : s.terminating = false → ∀ k th, s.threads[k]? = some th → s.threads.length ≤
    k + s.numberRunning → th.point.unfinished = true

def stopsOwed (terminating : Bool) (unfinished : Nat) : Nat := if terminating then unfinished else 0

@[simp] theorem stopsOwed_true {n : Nat} : stopsOwed true n = n := rfl

@[simp] theorem stopsOwed_false {n : Nat} : stopsOwed false n = 0 := rfl

def State.Tokens (s : State) : Prop :=
  s.tasks.length + stopsOwed s.terminating (s.threadsWhere Point.unfinished) ≤
    s.newTask + s.producersWhere Producer.owes + s.threadsWhere Point.holdsToken + s.lost

section Staffed

theorem State.Staffed.current (h : s.Staffed c) (ht : s.threads[i]? = some th) (hp : th.point.unfinished = true) :
    s.threads.length ≤ i + s.numberRunning ∧ s.numberRunning ≠ 0 := by
  obtain ⟨base, hpool⟩ := h.pool
  have hlength := hpool.length_eq h.none
  have hlt := (List.getElem?_eq_some_iff.mp ht).1
  have hnot : ¬ i < base + joinedCount s.numberRunning s.waiter := by
    intro hi
    have hfinished := hpool.finished th (List.mem_of_getElem? ht) ((hpool.joined i th ht).mpr hi)
    rw [hfinished] at hp
    cases hp
  omega

theorem State.Staffed.unfinished_le (h : s.Staffed c) : s.threadsWhere Point.unfinished ≤ s.numberRunning := by
  obtain ⟨base, hpool⟩ := h.pool
  have hlength := hpool.length_eq h.none
  have hle : s.threadsWhere Point.unfinished ≤ s.threads.length - base := by
    refine countP_le_of_getElem? ?_
    intro k th hk hlt
    have hjoined := (hpool.joined k th hk).mpr (by omega)
    rw [hpool.finished th (List.mem_of_getElem? hk) hjoined]
    rfl
  omega

theorem State.Staffed.slot_lt (h : s.Staffed c) (ht : s.threads[i]? = some th)
    (hp : th.point.holdsSlot = true) : s.notFull < c.semValueMax := by
  have hpos := threadsWhere_pos ht hp
  have htotal := h.slots (h.limited hpos)
  omega

theorem State.Staffed.not_holds (h : s.Staffed c) (hp : s.producers[i]? = some x) : x.holds = false := by
  have hnone : ∀ p ∈ s.producers, p.holds = false := by simpa [State.producersWhere, List.countP_eq_zero] using h.none
  exact hnone x (List.mem_of_getElem? hp)

theorem State.Staffed.startsLate_eq (h : s.Staffed c) : s.startsLate c action = false := by
  cases action with
  | produce i fault =>
      have hp : s.producers[i]? ≠ some .starting := fun hp => by simpa [Producer.holds] using h.not_holds hp
      simp [State.startsLate, hp]
  | wait =>
      rw [State.startsLate]
      split
      · have hany : s.producers.any Producer.uncounted = false := by
          have hzero := Nat.eq_zero_of_le_zero (h.none ▸ uncounted_le_holds s)
          simpa [State.producersWhere, List.countP_eq_zero] using hzero
        rw [hany, Bool.and_false]
      · rfl
  | _ => rfl

theorem State.Staffed.none_set (h : s.Staffed c) (hp : s.producers[i]? = some x)
    (hy : y.holds = false) : (s.setProducer i y).producersWhere Producer.holds = 0 := by
  have hcount := @producersWhere_set s i Producer.holds x y hp
  rw [h.not_holds hp, hy, h.none] at hcount
  exact Nat.add_right_cancel hcount

theorem State.Staffed.limited_set (h : s.Staffed c) (ht : s.threads[i]? = some th)
    (hpoint : point.holdsSlot = true → c.limited = true)
    (hpos : 0 < (s.setThread i th point).threadsWhere Point.holdsSlot) : c.limited = true := by
  cases hslot : point.holdsSlot with
  | true => exact hpoint hslot
  | false =>
      apply h.limited
      have hcount := @threadsWhere_set s i th Point.holdsSlot point ht
      rw [if_neg (show ¬ point.holdsSlot = true by simp [hslot])] at hcount
      omega

theorem State.Staffed.move (h : s.Staffed c) (hall : c.toStart = c.threadsNumber)
    (hm : Move c s action t) : t.Staffed c := by
  obtain ⟨base, hpool⟩ := h.pool
  obtain ⟨base', -, hpool'⟩ := hpool.move h.startsLate_eq hm
  have hslots := h.slots.move hm
  cases hm with
  | enqueue null timed =>
      refine ⟨⟨base', hpool'⟩, hslots, ?_, h.all, h.limited⟩
      have hnone := h.none
      simp only [State.enqueueCall, State.producersWhere] at hnone ⊢
      cases null <;> cases c.limited <;> simpa [Producer.holds] using hnone
  | acquire hp hf | overflow hp hf | release hp | lose hp hf | failPush hp hu =>
      exact ⟨⟨base', hpool'⟩, hslots, h.none_set hp rfl, h.all, h.limited⟩
  | push hp hu =>
      refine ⟨⟨base', hpool'⟩, hslots, ?_, h.all, h.limited⟩
      have henough : ({ s with tasks := s.tasks ++ [s.pushed], pushed := s.pushed + 1 }).enoughThreads c := by
        rcases h.all with hn | hn
        · exact .inl hn
        · exact .inr (.inl hn)
      rw [State.push, if_pos henough]
      exact h.none_set hp rfl
  | startFailed hp | create hp hn | count hp | note hp => simpa [Producer.holds] using h.not_holds hp
  | startAcquire ht hp | startRelease ht hp | taskAcquire ht hp hf | execute ht hp
  | unuse ht hp hu | begin ht hp hn | notBegin ht hp hn
  | stop ht hp hu hf | retry ht hp hu hf hq | free ht hp hf | freeFailed ht hp hf =>
      exact ⟨⟨base', hpool'⟩, hslots, h.none, h.all, h.limited_set ht (by simp [Point.holdsSlot])⟩
  | pop ht hp hu hf hq =>
      refine ⟨⟨base', hpool'⟩, hslots, h.none, h.all, h.limited_set ht ?_⟩
      split
      · exact fun _ => ‹_›
      · simp [Point.holdsSlot]
  | clear hu =>
      obtain ⟨notFull, tasks, dropped, hclear, -⟩ := s.clear_eq c
      rw [hclear] at hpool' hslots ⊢
      exact ⟨⟨base', hpool'⟩, hslots, h.none, h.all, h.limited⟩
  | start hu ha hn =>
      refine ⟨⟨base', hpool'⟩, hslots, h.none, .inr hall, fun hpos => h.limited ?_⟩
      rw [State.start, State.threadsWhere, countP_start rfl] at hpos
      exact hpos
  | cleared hw => exact ⟨⟨base', hpool'⟩, hslots, h.none, .inl rfl, h.limited⟩
  | join hw ht hp =>
      refine ⟨⟨base', hpool'⟩, hslots, h.none, h.all, fun hpos => h.limited ?_⟩
      rw [State.threadsWhere, countP_join ht] at hpos
      exact hpos
  | _ => exact ⟨⟨base', hpool'⟩, hslots, h.none, h.all, h.limited⟩

theorem State.Staffed.init : (State.init c).Staffed c := by
  refine ⟨⟨0, .init⟩, .init, rfl, .inl rfl, ?_⟩
  intro hpos
  cases hpos

end Staffed

/-! ## 止まること -/

section Lively

theorem State.Lively.alive_set (h : s.Lively) (i : Nat) (th : Thread)
    (hth : s.terminating = false → s.threads.length ≤ i + s.numberRunning → th.point.unfinished = true) :
    s.terminating = false → ∀ k th', (s.threads.set i th)[k]? = some th' →
      (s.threads.set i th).length ≤ k + s.numberRunning → th'.point.unfinished = true := by
  intro hterm k th' hk hle
  rw [List.length_set] at hle
  rw [List.getElem?_set] at hk
  split at hk
  case isTrue hik =>
    split at hk
    · obtain rfl := Option.some.inj hk
      exact hth hterm (hik ▸ hle)
    · cases hk
  case isFalse => exact h.alive hterm k th' hk hle

theorem State.Lively.stopping_of_ne (h : s.Lively) {w : Option Waiter} (hw : s.waiter ≠ some .terminating) :
    s.terminating = true → s.numberRunning ≠ 0 ∨ w = some .terminating :=
  fun hterm => .inl ((h.stopping hterm).resolve_right hw)

theorem State.Lively.terminating_eq (h : s.Lively) (hs : s.Staffed c)
    (ha : s.activeState = .notActive) (hn : s.numberRunning = 0) : s.terminating = false := by
  obtain ⟨base, hpool⟩ := hs.pool
  cases hterm : s.terminating with
  | false => rfl
  | true =>
      rcases h.stopping hterm with hne | hw
      · exact absurd hn hne
      · exact absurd ha (hpool.busy (by rw [hw]; rfl))

theorem State.Lively.not_active (h : s.Lively) (hs : s.Staffed c) (hw : s.waiter = some .clearing) :
    s.activeState ≠ .active := by
  intro ha
  obtain ⟨hterm, hne⟩ := h.active ha
  obtain ⟨base, hpool⟩ := hs.pool
  have hlength := hpool.length_eq hs.none
  obtain ⟨th, hth⟩ : ∃ th, s.threads[base]? = some th := ⟨_, List.getElem?_eq_getElem (by omega)⟩
  have hjoined : th.joined = true := by
    rw [hpool.joined base th hth, hw, joinedCount]
    omega
  have hfinished := hpool.finished th (List.mem_of_getElem? hth) hjoined
  have hunfinished := h.alive hterm base th hth (by omega)
  rw [hfinished] at hunfinished
  cases hunfinished

theorem State.Lively.move (h : s.Lively) (hs : s.Staffed c) (hall : c.toStart = c.threadsNumber)
    (hm : Move c s action t) : t.Lively := by
  cases hm with
  | startFailed hp | create hp hn | count hp | note hp => simpa [Producer.holds] using hs.not_holds hp
  | startAcquire ht hp | startRelease ht hp | begin ht hp hn | taskAcquire ht hp hf
  | retry ht hp hu hf hq | free ht hp hf | execute ht hp
  | unuse ht hp hu => exact ⟨h.active, h.stopping, h.alive_set _ _ fun _ _ => rfl⟩
  | notBegin ht hp hn => exact absurd hn (hs.current ht (by rw [hp]; rfl)).2
  | stop ht hp hu hf =>
      refine ⟨h.active, h.stopping, h.alive_set _ _ fun hterm _ => ?_⟩
      rw [hf] at hterm
      cases hterm
  | pop ht hp hu hf hq =>
      refine ⟨h.active, h.stopping, h.alive_set _ _ fun _ _ => ?_⟩
      split
      · rfl
      · rfl
  | freeFailed ht hp hf => exact absurd (hs.slot_lt ht (by rw [hp]; rfl)) (Nat.not_lt.mpr hf)
  | clear hu =>
      obtain ⟨notFull, tasks, dropped, hclear, -⟩ := s.clear_eq c
      rw [hclear]
      exact ⟨h.active, h.stopping, h.alive⟩
  | start hu ha hn =>
      have hterm := h.terminating_eq hs ha hn
      have hpos : c.toStart ≠ 0 := by
        have := c.positive
        omega
      refine ⟨fun _ => ⟨hterm, hpos⟩, fun _ => .inl hpos, ?_⟩
      intro _ k th hk hle
      simp only [State.start, List.length_append, List.length_replicate] at hk hle
      rw [List.getElem?_append_right (by omega)] at hk
      rw [(List.mem_replicate.mp (List.mem_of_getElem? hk)).2]
      rfl
  | deactivate hu ha hf =>
      exact ⟨fun hactive => (by cases hactive), fun _ => .inl (h.active ha).2, fun hterm => (by cases hterm)⟩
  | waitCall hw => exact ⟨h.active, h.stopping_of_ne (by simp [hw]), h.alive⟩
  | skip hw ha | enter hw ha | test hw hn | next hw hi | exit hw hi | stopped hw =>
      exact ⟨h.active, h.stopping_of_ne (by simp [hw]), h.alive⟩
  | testZero hw hn => exact ⟨h.active, fun _ => .inr rfl, h.alive⟩
  | @join i th hw ht hp =>
      have hpoint : s.terminating = false → s.threads.length ≤ s.jobs i + s.numberRunning → th.point.unfinished = true :=
        fun hterm hle => h.alive hterm (s.jobs i) th ht hle
      exact ⟨h.active, h.stopping_of_ne (by simp [hw]), h.alive_set _ _ hpoint⟩
  | cleared hw =>
      refine ⟨fun ha => absurd ha (h.not_active hs hw), fun _ => .inr rfl, ?_⟩
      intro _ k th hk hle
      have hlt := (List.getElem?_eq_some_iff.mp hk).1
      simp only at hle hlt
      omega
  | terminated hw =>
      obtain ⟨base, hpool⟩ := hs.pool
      have hzero := hpool.zero (by rw [hw]; rfl)
      refine ⟨fun ha => ⟨rfl, (h.active ha).2⟩, fun hterm => (by cases hterm), ?_⟩
      intro _ k th hk hle
      have hlt := (List.getElem?_eq_some_iff.mp hk).1
      simp only [hzero] at hle hlt
      omega
  | leave hw hu =>
      refine ⟨fun ha => h.active ?_, h.stopping_of_ne (by simp [hw]), h.alive⟩
      simp only at ha
      split at ha
      · cases ha
      · exact ha
  | _ => exact ⟨h.active, h.stopping, h.alive⟩

theorem State.Lively.init : (State.init c).Lively := by
  refine ⟨?_, ?_, ?_⟩
  · intro ha
    cases ha
  · intro hterm
    cases hterm
  · intro _ k th hk
    simp [State.init] at hk

end Lively

/-! ## 信号 -/

section Tokens

theorem State.Tokens.setProducer (h : s.Tokens) (hp : s.producers[i]? = some x) {n m : Nat}
    (hn : n + (if y.owes then 1 else 0) + m ≥ s.newTask + (if x.owes then 1 else 0) + s.lost) :
    ({ s with newTask := n, lost := m }.setProducer i y).Tokens := by
  have hcount := @producersWhere_set s i Producer.owes x y hp
  simp only [State.Tokens, State.setProducer, State.producersWhere, State.threadsWhere] at h hcount ⊢
  omega

theorem State.Tokens.setThread (h : s.Tokens) (ht : s.threads[i]? = some th) {n : Nat}
    (hp : point.unfinished = th.point.unfinished)
    (hn : n + (if point.holdsToken then 1 else 0) ≥ s.newTask + (if th.point.holdsToken
    then 1 else 0)) : ({ s with newTask := n }.setThread i th point).Tokens := by
  have htoken := @threadsWhere_set s i th Point.holdsToken point ht
  have hcount : (s.setThread i th point).threadsWhere Point.unfinished = s.threadsWhere Point.unfinished := by
    have := @threadsWhere_set s i th Point.unfinished point ht
    rw [hp] at this
    exact Nat.add_right_cancel this
  simp only [State.Tokens, State.setThread, State.producersWhere, State.threadsWhere] at h htoken hcount ⊢
  rw [hcount]
  omega

theorem State.Tokens.move (h : s.Tokens) (hs : s.Staffed c) (hl : s.Lively) (hm : Move c s action t) : t.Tokens := by
  cases hm with
  | enqueue null timed =>
      simp only [State.Tokens, State.enqueueCall, State.producersWhere, State.threadsWhere, List.countP_append] at h ⊢
      omega
  | acquire hp hf | overflow hp hf | failPush hp hu => exact State.Tokens.setProducer h hp (by simp [Producer.owes])
  | release hp => exact h.setProducer hp (by simp only [Producer.owes, if_true, Bool.false_eq_true, if_false]; omega)
  | lose hp hf => exact h.setProducer hp (by simp only [Producer.owes, if_true, Bool.false_eq_true, if_false]; omega)
  | startFailed hp | create hp hn | count hp | note hp => simpa [Producer.holds] using hs.not_holds hp
  | @push i hp hu =>
      have hcount : ∀ y : Producer, y.owes = true → (s.producers.set i y).countP Producer.owes =
          s.producersWhere Producer.owes + 1 := by
        intro y hy
        have := @producersWhere_set s i Producer.owes _ y hp
        rw [hy] at this
        exact this
      simp only [State.Tokens, State.push, State.setProducer, State.producersWhere,
        State.threadsWhere, List.length_append, List.length_singleton] at h hcount ⊢
      split
      · have := hcount .releasing rfl
        omega
      · have := hcount .starting rfl
        omega
  | startAcquire ht hp | startRelease ht hp | begin ht hp hn | free ht hp hf | execute ht hp | unuse ht hp hu =>
      exact State.Tokens.setThread h ht (by rw [hp]; rfl) (by simp [hp, Point.holdsToken])
  | taskAcquire ht hp hf => exact h.setThread ht (by rw [hp]; rfl) (by simp [hp, Point.holdsToken]; omega)
  | notBegin ht hp hn => exact absurd hn (hs.current ht (by rw [hp]; rfl)).2
  | freeFailed ht hp hf => exact absurd (hs.slot_lt ht (by rw [hp]; rfl)) (Nat.not_lt.mpr hf)
  | @stop i th ht hp hu hf =>
      have htoken := @threadsWhere_set s i th Point.holdsToken .finished ht
      have hcount := @threadsWhere_set s i th Point.unfinished .finished ht
      simp only [hp, Point.holdsToken, Point.unfinished, Bool.false_eq_true, if_false, if_true] at htoken hcount
      simp only [State.Tokens, State.setThread, State.producersWhere, State.threadsWhere, hf,
        stopsOwed_true] at h htoken hcount ⊢
      omega
  | @retry i th ht hp hu hf hq =>
      simp only [State.Tokens, State.setThread, State.producersWhere, State.threadsWhere, hf, hq,
        List.length_nil, stopsOwed_false]
      omega
  | @pop i th task tasks ht hp hu hf hq =>
      have htoken : (s.setThread i th (if c.limited then .releasing task else .executing
          task)).threadsWhere Point.holdsToken + 1 = s.threadsWhere Point.holdsToken := by
        have hpoint : (if c.limited then Point.releasing task else Point.executing
            task).holdsToken = false := by split <;> rfl
        have := @threadsWhere_set s i th Point.holdsToken (if c.limited then .releasing task else .executing task) ht
        rw [hpoint, hp] at this
        exact this
      simp only [State.Tokens, State.setThread, State.producersWhere, State.threadsWhere, hf, hq,
        List.length_cons, stopsOwed_false] at h htoken ⊢
      omega
  | clear hu =>
      obtain ⟨notFull, tasks, dropped, hclear, hle⟩ := s.clear_eq c
      rw [hclear]
      simp only [State.Tokens, State.producersWhere, State.threadsWhere] at h ⊢
      omega
  | start hu ha hn =>
      have hterm := hl.terminating_eq hs ha hn
      have htoken := @countP_start s Point.holdsToken c.toStart rfl
      simp only [State.Tokens, State.start, State.producersWhere, State.threadsWhere, hterm, stopsOwed_false] at h htoken ⊢
      omega
  | deactivate hu ha hf =>
      have hterm := (hl.active ha).1
      have hle := hs.unfinished_le
      have hrunning : s.numberRunning ≤ c.threadsNumber := by
        rcases hs.all with hn | hn <;> omega
      simp only [State.Tokens, State.producersWhere, State.threadsWhere, hterm, stopsOwed_false, stopsOwed_true] at h hle ⊢
      omega
  | join hw ht hp =>
      have htoken := @countP_join s _ _ Point.holdsToken ht
      have hcount := @countP_join s _ _ Point.unfinished ht
      simp only [State.Tokens, State.producersWhere, State.threadsWhere] at h htoken hcount ⊢
      rw [hcount, htoken]
      exact h
  | terminated hw =>
      simp only [State.Tokens, State.producersWhere, State.threadsWhere, stopsOwed_false] at h ⊢
      omega
  | _ => exact h

theorem State.Tokens.init : (State.init c).Tokens := Nat.le_refl _

end Tokens

section Single

theorem State.Staffed.held_single (h : s.Staffed c) (hone : c.threadsNumber = 1) (ht : s.threads[i]? = some th)
    (hp : th.point.unfinished = true) : heldTasks s.threads = th.point.held ∧ ∀ point, heldTasks
    (s.setThread i th point).threads = point.held := by
  obtain ⟨before, after, hsplit, hset⟩ := exists_split_of_getElem? ht
  have hle := h.unfinished_le
  have hrunning : s.numberRunning ≤ 1 := by
    rcases h.all with hn | hn <;> omega
  have hnone : ∀ th' ∈ before ++ after, th'.point.held = [] := by
    intro th' hth'
    have hcount : (before ++ after).countP (fun th => th.point.unfinished) = 0 := by
      simp only [State.threadsWhere, hsplit, List.countP_append, List.countP_cons, hp, if_true] at hle
      rw [List.countP_append]
      omega
    have hfinished := List.countP_eq_zero.mp hcount th' hth'
    cases hpoint : th'.point <;> simp_all [Point.unfinished, Point.held]
  have hempty : ∀ l : List Nat, heldTasks before ++ (l ++ heldTasks after) = l := by
    intro l
    have hbefore : heldTasks before = [] := List.flatMap_eq_nil_iff.mpr fun th' hth' => hnone th'
        (List.mem_append_left _ hth')
    have hafter : heldTasks after = [] := List.flatMap_eq_nil_iff.mpr fun th' hth' => hnone th'
        (List.mem_append_right _ hth')
    rw [hbefore, hafter, List.append_nil, List.nil_append]
  constructor
  · rw [hsplit]
    simpa [heldTasks] using hempty th.point.held
  · intro point
    rw [State.setThread, hset]
    simpa [heldTasks] using hempty point.held

theorem started_move (h : s.started ++ heldTasks s.threads = s.popped) (hs : s.Staffed c) (hone : c.threadsNumber = 1)
    (hm : Move c s action t) : t.started ++ heldTasks t.threads = t.popped := by
  cases hm with
  | startFailed hp | create hp hn | count hp | note hp => simpa [Producer.holds] using hs.not_holds hp
  | startAcquire ht hp | startRelease ht hp | begin ht hp hn | notBegin ht hp hn | taskAcquire ht hp hf | stop ht hp hu hf
  | retry ht hp hu hf hq | free ht hp hf | unuse ht hp hu =>
      refine Eq.trans (congrArg (s.started ++ ·) (heldTasks_setThread ht ?_)) h
      simp [hp, Point.held]
  | freeFailed ht hp hf => exact absurd (hs.slot_lt ht (by rw [hp]; rfl)) (Nat.not_lt.mpr hf)
  | @pop i th task tasks ht hp hu hf hq =>
      obtain ⟨hbefore, hafter⟩ := hs.held_single hone ht (by rw [hp]; rfl)
      have hpoint : (if c.limited then Point.releasing task else Point.executing task).held = [task] := by split <;> rfl
      have hafter := hafter (if c.limited then .releasing task else .executing task)
      simp only [hp, Point.held] at hbefore
      rw [hbefore, List.append_nil] at h
      rw [hpoint] at hafter
      simp only [State.setThread] at hafter ⊢
      rw [hafter, h]
  | @execute i th task ht hp =>
      obtain ⟨hbefore, hafter⟩ := hs.held_single hone ht (by rw [hp]; rfl)
      have hafter := hafter .counting
      simp only [hp, Point.held] at hbefore hafter
      rw [hbefore] at h
      simp only [State.setThread] at hafter ⊢
      rw [hafter, List.append_nil, h]
  | clear hu =>
      obtain ⟨notFull, tasks, dropped, hclear, -⟩ := s.clear_eq c
      rw [hclear]
      exact h
  | start hu ha hn =>
      simp only [State.start]
      rw [heldTasks_start]
      exact h
  | join hw ht hp =>
      simp only
      rw [heldTasks_join ht]
      exact h
  | _ => exact h

end Single

/-! ## 合わせた不変条件 -/

structure State.Kept (c : Config) (s : State) : Prop where
  staffed : s.Staffed c
  lively : s.Lively
  tokens : s.Tokens
  ordered : s.Ordered
  single : c.threadsNumber = 1 → s.started ++ heldTasks s.threads = s.popped

theorem State.Kept.init : (State.init c).Kept c := ⟨.init, .init, .init, .init, fun _ => rfl⟩

theorem State.Kept.move (h : s.Kept c) (hall : c.toStart = c.threadsNumber) (hm : Move c s action t) : t.Kept c where
  staffed := h.staffed.move hall hm
  lively := h.lively.move h.staffed hall hm
  tokens := h.tokens.move h.staffed h.lively hm
  ordered := h.ordered.move (fun _ _ ht hp => h.staffed.slot_lt ht hp) hm
  single := fun hone => started_move (h.single hone) h.staffed hone hm

end UnixCommons.Generics.TaskRunner
