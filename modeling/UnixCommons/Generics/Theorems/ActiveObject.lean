import Mathlib.Data.List.Perm.Subperm
import UnixCommons.Generics.Lemmas.CompositeActiveObject
import UnixCommons.Generics.Lemmas.Scheduler

/-!
# 活動する物の定理

合成した物の起動と停止、予定の配達。
-/

namespace UnixCommons.Generics.CompositeActiveObject

open Lib

/-! ## 活動する物の合成の定理

`wait_object` は、子を待つ間、鍵を放す。その間に別の糸が合成を始めて止めると、`wait_object` は、新しい活動で始まった子を待たずに、
合成を止まったとする。この追い越しのない列では、合成と子の状態は、いつも一致する。
-/

variable {κ : Type} [DecidableEq κ] {synchronous : Bool} {s : State κ} {objects : κ → ActiveState}
    {actions : List (Action κ)}

/-- 合成が活動していなければ、どの子も活動しておらず、合成が活動していれば、どの子も活動している。 -/
def State.Agrees (s : State κ) : Prop :=
  (s.state = .notActive → ∀ c ∈ s.childObjects, s.objects c = .notActive) ∧
    (s.state = .active → ∀ c ∈ s.childObjects, s.objects c = .active)

instance : Decidable s.Agrees :=
  inferInstanceAs (Decidable ((s.state = .notActive → ∀ c ∈ s.childObjects, s.objects c = .notActive) ∧
    (s.state = .active → ∀ c ∈ s.childObjects, s.objects c = .active)))

def State.Idle (s : State κ) : Prop := ∀ w ∈ s.waiters, w.point = .returned

instance : Decidable s.Idle := inferInstanceAs (Decidable (∀ w ∈ s.waiters, w.point = .returned))

/-- 追い越された歩みのない列の、どの状態でも、途中の呼び出しがあってもなくても、合成と子の状態は一致する。 -/
theorem composite_agrees_run (hobjects : ∀ c, objects c ≠ .deactivating)
    (hok : Along (step synchronous) (fun s action => overtaken synchronous s action = false)
    (State.init objects) actions)
    (hrun : execute (step synchronous) (State.init objects) actions = some s) : s.Agrees := by
  have hinv : s.Inv synchronous := execute_invariant (fun s action t hi hok h => hi.step hok h)
      (.init hobjects) hok hrun
  exact ⟨hinv.consistent.notActive, hinv.consistent.active⟩

def cycleRun : List (Action Nat) :=
  [.addChild 0 false, .activate, .deactivate, .waitCall, .wait 0, .wait 0, .wait 0, .wait 0, .wait 0, .activate]

theorem composite_agrees_run_cycle :
    ∃ s, execute (step false) (State.init fun _ : Nat => .notActive) cycleRun = some s ∧
      s.state = .active ∧ s.Agrees := by
  refine ⟨_, rfl, rfl, @composite_agrees_run Nat _ false _ (fun _ => .notActive) cycleRun ?_ ?_ rfl⟩
  · intro c
    decide
  · decide

/-- 始めの呼び出しが子を待ち終えてから、別の呼び出しが合成を止まったとし、合成が再び始まって止まる列。 -/
def overtakenRun : List (Action Nat) :=
  [.addChild 0 false, .activate, .deactivate, .waitCall, .waitCall, .wait 0, .wait 0,
    .wait 0, .wait 0, .wait 1, .wait 1, .wait 1, .wait 1, .wait 1, .activate, .deactivate, .wait 0]

/-- 途中の呼び出しがないのに、合成は活動しておらず、子は止まる途中である。 -/
theorem composite_overtaken :
    ∃ s, execute (step false) (State.init fun _ : Nat => .notActive) overtakenRun = some s ∧ s.Idle ∧ ¬ s.Agrees := by
  exact ⟨_, rfl, by decide, by decide⟩

end UnixCommons.Generics.CompositeActiveObject

namespace UnixCommons.Generics.CompositeActiveObject.Throwing

/-! ## 起動の失敗の定理

`activate_object_` は、始まった子を全て止めてから待つつもりである。しかし、一つの子の `deactivate_object` が例外を投げると、`deactivate_object_` は
最後に投げるので、待つ段階が行われず、どの子も待たれないまま、合成は止まったことになる。
-/

variable {κ : Type}

/-- 失敗した起動は、始まった子を全て止めて待ち、他の子に触れず、合成を止まった状態に残す。 -/
def AllOrNothing (throws : Throws κ) (synchronous : Bool) (c : Composite κ) : Prop :=
  (activateObject throws synchronous c).thrown ≠ none →
    (activateObject throws synchronous c).composite.state = .notActive ∧
      ∃ child rest undone, c.childObjects = started throws c.childObjects ++ child :: rest ∧
        (activateObject throws synchronous c).calls = (started throws c.childObjects ++ [child]).map
        (⟨·, .activateObject⟩) ++ undone ∧ RollsBack (started throws c.childObjects) undone

theorem activation_all_or_nothing_iff (throws : Throws κ) (synchronous : Bool) (c : Composite κ) :
    AllOrNothing throws synchronous c ↔
      c.state = .notActive ∧
        ((∀ child ∈ c.childObjects, throws child .activateObject = none) ∨
          ∀ child ∈ started throws c.childObjects, throws child .deactivateObject = none) := by
  by_cases hstate : c.state = .notActive
  · have heq := activateLoop_eq throws [] c.childObjects
    rw [List.append_nil] at heq
    have hsplit : started throws c.childObjects ++ c.childObjects.drop
        (started throws c.childObjects).length = c.childObjects := by
      have hinit : started throws c.childObjects <+: c.childObjects := List.takeWhile_prefix _
      rw [List.prefix_iff_eq_append.mp hinit]
    rw [AllOrNothing, and_iff_right hstate, activateObject, if_pos hstate, heq]
    cases hdrop : c.childObjects.drop (started throws c.childObjects).length with
    | nil =>
        rw [hdrop, List.append_nil] at hsplit
        refine iff_of_true (fun h => absurd rfl h) (.inl fun child hmem => ?_)
        rw [← hsplit] at hmem
        exact of_decide_eq_true (List.all_eq_true.mp List.all_takeWhile child hmem)
    | cons child rest =>
        obtain ⟨what, hwhat⟩ := Option.ne_none_iff_exists'.mp (throws_of_drop hdrop)
        have hmem : child ∈ c.childObjects := by
          rw [← hsplit, hdrop]
          exact List.mem_append_right _ List.mem_cons_self
        have hnot : ¬ ∀ child ∈ c.childObjects, throws child .activateObject = none := fun hall => by
          rw [hall child hmem] at hwhat
          cases hwhat
        rw [hdrop] at hsplit
        rw [or_iff_right hnot]
        simp only [hwhat]
        constructor
        · intro h child' hmem'
          obtain ⟨-, child'', rest', undone, hsplit', hcalls, hundone⟩ := h (Option.some_ne_none _)
          obtain ⟨-, hundo⟩ := List.append_inj hcalls (by simp)
          rw [← hundo] at hundone
          exact rollBack_waits ((hundone.ordered child' hmem').subset (by simp))
        · intro h _
          exact ⟨trivial, child, rest, _, hsplit.symm, rfl, rollsBack h⟩
  · refine iff_of_false (fun h => ?_) fun h => hstate h.1
    have heq : activateObject throws synchronous c = ⟨c, [], some (.alreadyActive "already active")⟩ := if_neg hstate
    obtain ⟨hnot, -⟩ := h (by rw [heq]; exact Option.some_ne_none _)
    rw [heq] at hnot
    exact hstate hnot

/-- 三つの子の、`2` は始まらず、`0` は止める時に例外を投げる。 -/
def stubborn : Throws Nat
  | 0, .deactivateObject => some "busy"
  | 2, .activateObject => some "failed"
  | _, _ => none

theorem activation_all_or_nothing_iff_undone : AllOrNothing stubborn false ⟨.notActive, [1, 3, 2]⟩ :=
  (activation_all_or_nothing_iff stubborn false ⟨.notActive, [1, 3, 2]⟩).mpr ⟨rfl, .inr (by decide)⟩

/-- `0` が例外を投げると、始まった `1` も待たれない。 -/
theorem activation_leaves_unwaited :
    (activateObject stubborn false ⟨.notActive, [0, 1, 2]⟩).composite.state = .notActive ∧
      (activateObject stubborn false ⟨.notActive, [0, 1, 2]⟩).calls =
        [⟨0, .activateObject⟩, ⟨1, .activateObject⟩, ⟨2, .activateObject⟩, ⟨1, .deactivateObject⟩,
        ⟨0, .deactivateObject⟩] ∧
      ¬ AllOrNothing stubborn false ⟨.notActive, [0, 1, 2]⟩ := by
  refine ⟨rfl, rfl, fun h => ?_⟩
  obtain ⟨-, child, rest, undone, -, hcalls, hundone⟩ := h (by decide)
  have hwait : ⟨1, .waitObject⟩ ∈ (activateObject stubborn false ⟨.notActive, [0, 1, 2]⟩).calls := by
    rw [hcalls]
    exact List.mem_append_right _ ((hundone.ordered 1 (by decide)).subset (by simp))
  revert hwait
  decide

end UnixCommons.Generics.CompositeActiveObject.Throwing

namespace UnixCommons.Generics.Planner

open Lib

/-!
## 予定の配達の定理

どの列の、どの状態でも、予定した物はただ一つの置き場にあり、`deliver` は一つの予定に高々一度、その時刻の前でなく呼び出される。
-/

variable {γ : Type}
variable {adjustment : Bool} {s : State γ} {clock : Int} {actions : List (Action γ)}

/-- `deliver` が一度も二度呼び出されず、早めない時は、渡された時刻の前に呼び出されない。 -/
structure State.DeliveredOnce (adjustment : Bool) (s : State γ) : Prop where
  once : (s.calls.map fun call => call.1.number).Nodup
  scheduled : ∀ call ∈ s.calls, call.1 ∈ s.scheduled
  notEarly : adjustment = false → ∀ call ∈ s.calls, call.1.asked ≤ call.2

structure State.AsScheduled (adjustment : Bool) (s : State γ) : Prop where
  sorted : Sorted s.messages
  /-- 置き場を合わせたものは予定の並べ替えであり、予定は重ならないので、どの予定も一つの置き場だけにある。 -/
  places : (s.messages ++ s.pending ++ s.delivered ++ s.removed).Perm s.scheduled ∧
    (s.scheduled.map TimedMessage.number).Nodup
  delivered : s.DeliveredOnce adjustment
  /-- 鍵を放して眠る前から眠りの終わりまで、期限は始めの物に間に合うか、`have_new_events_` が立つ。 -/
  deadline : ∀ deadline, s.worker.deadline? = some deadline → s.haveNewEvents = true ∨
    Covers adjustment s.deliveryTimeShift deadline s.messages
  /-- 眠る糸の期限に間に合わない物があれば、まだ送られていない信号がある。 -/
  notOverslept : ∀ deadline, s.worker = .blocked deadline → 0 < s.signalers ∨
    Covers adjustment s.deliveryTimeShift deadline s.messages

theorem State.Inv.deliveredOnce (h : s.Inv adjustment) : s.DeliveredOnce adjustment := by
  obtain ⟨-, ⟨hperm, hnumbered, hclipped⟩, hcalled, htimely, -⟩ := h
  have hsub : (s.calls.map Prod.fst).Subperm s.scheduled := by
    refine List.Subperm.trans ?_ hperm.subperm
    rw [hcalled.logged]
    split
    case isTrue =>
      have htake : (s.pending.take 1).Sublist s.pending := List.take_sublist 1 s.pending
      have hswap : (s.delivered ++ s.pending.take 1).Perm (s.pending.take 1 ++ s.delivered) := List.perm_append_comm
      refine hswap.subperm.trans (List.Sublist.subperm ?_)
      exact ((htake.trans (List.sublist_append_right s.messages s.pending)).append
        (List.Sublist.refl _)).trans (List.sublist_append_left _ _)
    case isFalse =>
      rw [List.append_nil, List.append_assoc]
      exact ((List.sublist_append_left s.delivered s.removed).trans (List.sublist_append_right _ _)).subperm
  have hmem : ∀ call ∈ s.calls, call.1 ∈ s.scheduled := fun call hcall => hsub.subset (List.mem_map_of_mem hcall)
  refine ⟨?_, hmem, ?_⟩
  · have hnodup : (s.scheduled.map TimedMessage.number).Nodup := hnumbered ▸ List.nodup_range
    obtain ⟨l, hl, hsubl⟩ := hsub
    have hcalls := hnodup.sublist (hsubl.map TimedMessage.number)
    rw [(hl.map TimedMessage.number).nodup_iff, List.map_map] at hcalls
    exact hcalls
  · intro hadj call hcall
    have htime := htimely.calls hadj call hcall
    have hclip := hclipped _ (hmem call hcall)
    omega

/-- どの列でも、時計が戻らない限り、物は予定の通りに配達される。 -/
theorem planner_as_scheduled [DecidableEq γ]
    (hrun : execute (step adjustment) (State.init clock) actions = some s) : s.AsScheduled adjustment := by
  have hinv : s.Inv adjustment := execute_always (fun s action t hi h => hi.step h) (.init clock) hrun
  refine ⟨hinv.sorted, ⟨hinv.partition.perm, ?_⟩, hinv.deliveredOnce, ?_, ?_⟩
  · exact hinv.partition.numbered ▸ List.nodup_range
  · intro deadline hd
    cases hn : s.haveNewEvents with
    | true => exact .inl rfl
    | false => exact .inr (hinv.awaited.covered deadline hd hn)
  · intro deadline hw
    cases hn : s.haveNewEvents with
    | true => exact .inl (hinv.awaited.signalled deadline hw hn)
    | false => exact .inr (hinv.awaited.covered deadline (by rw [hw]; rfl) hn)

def wakeRun : List (Action Nat) :=
  [.restart, .schedule (some 0) 50, .signal, .work, .work, .work, .work, .work,
    .schedule (some 1) 20, .signal, .unschedule 0, .tick 30, .work, .work, .work, .work]

theorem planner_as_scheduled_wake :
    ∃ s, execute (step false) (State.init 10) wakeRun = some s ∧ s.worker = .inDeliver ∧
      s.calls = [(⟨20, 1, 1, 20⟩, 30)] ∧ s.removed = [⟨50, 0, 0, 50⟩] ∧ s.AsScheduled false := by
  exact ⟨_, rfl, rfl, rfl, rfl, @planner_as_scheduled Nat false _ 10 wakeRun _ rfl⟩

end UnixCommons.Generics.Planner
