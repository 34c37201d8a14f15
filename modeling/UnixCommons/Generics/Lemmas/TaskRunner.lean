import UnixCommons.Generics.TaskRunner

/-! # 仕事の列の補題 -/

namespace UnixCommons.Generics.TaskRunner

open Lib
open CompositeActiveObject (ActiveState)

/-! ## 一つの動作 -/

inductive Move (c : Config) (s : State) : Action → State → Prop
  | enqueue (null timed : Bool) : Move c s (.enqueue null timed) (s.enqueueCall c null timed)
  | acquire {i timed fault} (hp : s.producers[i]? = some (.acquiring timed)) (hf : 0 < s.notFull) :
      Move c s (.produce i fault) ({ s with notFull := s.notFull - 1 }.setProducer i .pushing)
  | overflow {i timed fault} (hp : s.producers[i]? = some (.acquiring timed)) (hf : s.notFull = 0) :
      Move c s (.produce i fault) (s.setProducer i (.returned .overflow))
  | push {i} (hp : s.producers[i]? = some .pushing) (hu : s.unlocked = true) : Move c s (.produce i false) (s.push c i)
  | failPush {i} (hp : s.producers[i]? = some .pushing) (hu : s.unlocked = true) : Move c s
      (.produce i true) (s.failPush c i)
  | startFailed {i fault} (hp : s.producers[i]? = some .starting) : Move c s (.produce i fault) (s.setProducer i .releasing)
  | create {i} (hp : s.producers[i]? = some .starting) (hn : s.numberRunning ≠ c.threadsNumber) :
      Move c s (.produce i false) (s.createThread.setProducer i .created)
  | count {i fault} (hp : s.producers[i]? = some .created) :
      Move c s (.produce i fault) ({ s with numberRunning := s.numberRunning + 1 }.setProducer i .counted)
  | note {i fault} (hp : s.producers[i]? = some .counted) :
      Move c s (.produce i fault) ({ s with unusedThreads := (s.unusedThreads + 1) % 2 ^ 32 }.setProducer i .releasing)
  | release {i fault} (hp : s.producers[i]? = some .releasing) :
      Move c s (.produce i fault) ({ s with newTask := s.newTask + 1 }.setProducer i (.returned .accepted))
  | lose {i fault} (hp : s.producers[i]? = some .releasing) (hf : c.semValueMax ≤ s.newTask) :
      Move c s (.produce i fault) ({ s with lost := s.lost + 1 }.setProducer i (.returned .releaseFailed))
  | startAcquire {i t} (ht : s.threads[i]? = some t) (hp : t.point = .created) :
      Move c s (.work i) ({ s with startSemaphore := s.startSemaphore - 1 }.setThread i t .passing)
  | startRelease {i t} (ht : s.threads[i]? = some t) (hp : t.point = .passing) :
      Move c s (.work i) ({ s with startSemaphore := s.startSemaphore + 1 }.setThread i t .checking)
  | begin {i t} (ht : s.threads[i]? = some t) (hp : t.point = .checking)
      (hn : 0 < s.numberRunning) : Move c s (.work i) (s.setThread i t .acquiring)
  | notBegin {i t} (ht : s.threads[i]? = some t) (hp : t.point = .checking)
      (hn : s.numberRunning = 0) : Move c s (.work i) (s.setThread i t .finished)
  | taskAcquire {i t} (ht : s.threads[i]? = some t) (hp : t.point = .acquiring) (hf : 0 < s.newTask) :
      Move c s (.work i) ({ s with newTask := s.newTask - 1 }.setThread i t .locking)
  | stop {i t} (ht : s.threads[i]? = some t) (hp : t.point = .locking) (hu : s.unlocked = true)
      (hf : s.terminating = true) : Move c s (.work i) (s.setThread i t .finished)
  | retry {i t} (ht : s.threads[i]? = some t) (hp : t.point = .locking) (hu : s.unlocked = true) (hf : s.terminating = false)
      (hq : s.tasks = []) : Move c s (.work i) (s.setThread i t .acquiring)
  | pop {i t task tasks} (ht : s.threads[i]? = some t) (hp : t.point = .locking)
      (hu : s.unlocked = true) (hf : s.terminating = false) (hq : s.tasks = task :: tasks) :
      Move c s (.work i)
        ({ s with tasks := tasks, unusedThreads := (s.unusedThreads + 2 ^ 32 - 1) %
          2 ^ 32, popped := s.popped ++ [task] }.setThread i t
          (if c.limited then .releasing task else .executing task))
  | free {i t task} (ht : s.threads[i]? = some t) (hp : t.point = .releasing task) (hf : s.notFull < c.semValueMax) :
      Move c s (.work i) ({ s with notFull := s.notFull + 1 }.setThread i t (.executing task))
  | freeFailed {i t task} (ht : s.threads[i]? = some t) (hp : t.point = .releasing task)
      (hf : c.semValueMax ≤ s.notFull) : Move c s (.work i) (s.setThread i t .finished)
  | execute {i t task} (ht : s.threads[i]? = some t) (hp : t.point = .executing task) :
      Move c s (.work i) ({ s with started := s.started ++ [task] }.setThread i t .counting)
  | unuse {i t} (ht : s.threads[i]? = some t) (hp : t.point = .counting) (hu : s.unlocked = true) :
      Move c s (.work i) ({ s with unusedThreads := (s.unusedThreads + 1) % 2 ^ 32 }.setThread i t .acquiring)
  | clear (hu : s.unlocked = true) : Move c s .clear (s.clear c)
  | start (hu : s.unlocked = true) (ha : s.activeState = .notActive)
      (hn : s.numberRunning = 0) : Move c s .activate (s.start c)
  | alreadyActive : Move c s .activate s
  | deactivate (hu : s.unlocked = true) (ha : s.activeState = .active) (hf : s.newTask + c.threadsNumber ≤ c.semValueMax) :
      Move c s .deactivate { s with activeState := .deactivating, terminating := true, newTask :=
      s.newTask + c.threadsNumber }
  | alreadyInactive : Move c s .deactivate s
  | waitCall (hw : s.waiter = none) : Move c s .waitCall { s with waiter := some .entered }
  | skip (hw : s.waiter = some .entered) (ha : s.activeState = .notActive) :
      Move c s .wait { s with waiter := some (.leaving true) }
  | enter (hw : s.waiter = some .entered) (ha : s.activeState ≠ .notActive) : Move c s .wait
      { s with waiter := some .testing }
  | test (hw : s.waiter = some .testing) (hn : s.numberRunning ≠ 0) : Move c s .wait { s with waiter := some (.joining 0) }
  | testZero (hw : s.waiter = some .testing) (hn : s.numberRunning = 0) : Move c s .wait
      { s with waiter := some .terminating }
  | next {i} (hw : s.waiter = some (.joining i)) (hi : i < s.numberRunning) : Move c s .wait
      { s with waiter := some (.inJoin i) }
  | exit {i} (hw : s.waiter = some (.joining i)) (hi : s.numberRunning ≤ i) : Move c s .wait
      { s with waiter := some .stopping }
  | join {i t} (hw : s.waiter = some (.inJoin i)) (ht : s.threads[s.jobs i]? = some t) (hp : t.point = .finished) :
      Move c s .wait
        { s with threads := s.threads.set (s.jobs i) { t with joined := true }, waiter := some (.joining (i + 1)) }
  | stopped (hw : s.waiter = some .stopping) :
      Move c s .wait { s with startSemaphore := s.startSemaphore - 1, waiter := some .clearing }
  | cleared (hw : s.waiter = some .clearing) : Move c s .wait { s with numberRunning := 0, waiter := some .terminating }
  | terminated (hw : s.waiter = some .terminating) : Move c s .wait
      { s with terminating := false, waiter := some (.leaving false) }
  | leave {skipped} (hw : s.waiter = some (.leaving skipped)) (hu : s.unlocked = true) :
      Move c s .wait
        { s with
          activeState := if s.activeState = .deactivating then .notActive else s.activeState
          waiter := none
          settled := s.threads.length }

variable {c : Config} {s t : State} {action : Action} {i : Nat} {th : Thread}

theorem produce_move {fault : Bool} (h : s.produce c i fault = some t) : Move c s (.produce i fault) t := by
  rw [State.produce] at h
  split at h
  · cases h
  · rename_i timed hp
    split at h
    · obtain rfl := Option.some.inj h
      exact .acquire hp ‹_›
    · split at h
      · cases h
      · obtain rfl := Option.some.inj h
        exact .overflow hp (Nat.eq_zero_of_not_pos ‹_›)
  · rename_i hp
    split at h
    · obtain rfl := Option.some.inj h
      cases fault with
      | false => exact .push hp ‹_›
      | true => exact .failPush hp ‹_›
    · cases h
  · rename_i hp
    split at h
    · obtain rfl := Option.some.inj h
      exact .startFailed hp
    · rename_i hnot
      obtain rfl := Option.some.inj h
      obtain ⟨hfault, hn⟩ := not_or.mp hnot
      obtain rfl := Bool.of_not_eq_true hfault
      exact .create hp hn
  · obtain rfl := Option.some.inj h
    exact .count ‹_›
  · obtain rfl := Option.some.inj h
    exact .note ‹_›
  · split at h
    · obtain rfl := Option.some.inj h
      exact .release ‹_›
    · obtain rfl := Option.some.inj h
      exact .lose ‹_› (Nat.not_lt.mp ‹_›)
  · cases h

theorem pop_move (ht : s.threads[i]? = some th) (hp : th.point = .locking)
    (hu : s.unlocked = true) : Move c s (.work i) (s.pop c i th) := by
  rw [State.pop]
  split
  · exact .stop ht hp hu ‹_›
  · rename_i hf
    have hf := Bool.of_not_eq_true hf
    cases hq : s.tasks with
    | nil => exact .retry ht hp hu hf hq
    | cons task tasks => exact .pop ht hp hu hf hq

theorem work_move (h : s.work c i = some t) : Move c s (.work i) t := by
  rw [State.work] at h
  split at h
  · cases h
  · rename_i th ht
    cases hp : th.point with
    | created =>
        simp only [hp] at h
        split at h
        · obtain rfl := Option.some.inj h
          exact .startAcquire ht hp
        · cases h
    | passing =>
        simp only [hp, Option.some.injEq] at h
        exact h ▸ .startRelease ht hp
    | checking =>
        simp only [hp] at h
        split at h
        · obtain rfl := Option.some.inj h
          exact .begin ht hp ‹_›
        · obtain rfl := Option.some.inj h
          exact .notBegin ht hp (Nat.eq_zero_of_not_pos ‹_›)
    | acquiring =>
        simp only [hp] at h
        split at h
        · obtain rfl := Option.some.inj h
          exact .taskAcquire ht hp ‹_›
        · cases h
    | locking =>
        simp only [hp] at h
        split at h
        · obtain rfl := Option.some.inj h
          exact pop_move ht hp ‹_›
        · cases h
    | releasing task =>
        simp only [hp] at h
        split at h
        · obtain rfl := Option.some.inj h
          exact .free ht hp ‹_›
        · obtain rfl := Option.some.inj h
          exact .freeFailed ht hp (Nat.not_lt.mp ‹_›)
    | executing task =>
        simp only [hp, Option.some.injEq] at h
        exact h ▸ .execute ht hp
    | counting =>
        simp only [hp] at h
        split at h
        · obtain rfl := Option.some.inj h
          exact .unuse ht hp ‹_›
        · cases h
    | finished => simp [hp] at h

theorem wait_move (h : s.wait = some t) : Move c s .wait t := by
  rw [State.wait] at h
  split at h
  · cases h
  · rename_i hw
    split at h
    · obtain rfl := Option.some.inj h
      exact .skip hw ‹_›
    · obtain rfl := Option.some.inj h
      exact .enter hw ‹_›
  · rename_i hw
    split at h
    · obtain rfl := Option.some.inj h
      exact .testZero hw ‹_›
    · obtain rfl := Option.some.inj h
      exact .test hw ‹_›
  · rename_i hw
    split at h
    · obtain rfl := Option.some.inj h
      exact .next hw ‹_›
    · obtain rfl := Option.some.inj h
      exact .exit hw (Nat.not_lt.mp ‹_›)
  · rename_i hw
    rw [State.join] at h
    split at h
    · cases h
    · split at h
      · obtain rfl := Option.some.inj h
        exact .join hw ‹_› ‹_›
      · cases h
  · split at h
    · obtain rfl := Option.some.inj h
      exact .stopped ‹_›
    · cases h
  · obtain rfl := Option.some.inj h
    exact .cleared ‹_›
  · obtain rfl := Option.some.inj h
    exact .terminated ‹_›
  · rename_i hw
    split at h
    · obtain rfl := Option.some.inj h
      exact .leave hw ‹_›
    · cases h

theorem step_move (h : step c s action = some t) : Move c s action t := by
  cases action with
  | enqueue null timed => exact Option.some.inj h ▸ .enqueue null timed
  | produce i fault => exact produce_move h
  | work i => exact work_move h
  | clear =>
      rw [step] at h
      split at h
      · exact Option.some.inj h ▸ .clear ‹_›
      · cases h
  | activate =>
      rw [step] at h
      split at h
      · obtain rfl := Option.some.inj h
        rw [State.activateObject]
        split
        case isTrue ha => exact .start ‹_› ha.1 ha.2
        case isFalse => exact .alreadyActive
      · cases h
  | deactivate =>
      rw [step] at h
      split at h
      · rw [State.deactivateObject] at h
        split at h
        · split at h
          · exact Option.some.inj h ▸ .deactivate ‹_› ‹_› ‹_›
          · cases h
        · exact Option.some.inj h ▸ .alreadyInactive
      · cases h
  | waitCall =>
      rw [step] at h
      split at h
      · exact Option.some.inj h ▸ .waitCall ‹_›
      · cases h
  | wait => exact wait_move h

/-! ## 数 -/

def Producer.acquired : Producer → Bool
  | .pushing => true
  | _ => false

def Producer.owes : Producer → Bool
  | .starting => true
  | .created => true
  | .counted => true
  | .releasing => true
  | _ => false

def Point.holdsSlot : Point → Bool
  | .releasing _ => true
  | _ => false

def Point.holdsToken : Point → Bool
  | .locking => true
  | _ => false

def State.producersWhere (s : State) (p : Producer → Bool) : Nat := s.producers.countP p

def State.threadsWhere (s : State) (q : Point → Bool) : Nat := s.threads.countP fun th => q th.point

section Count

variable {p : Producer → Bool} {q : Point → Bool} {x y : Producer} {point : Point} {n : Nat}

theorem producersWhere_set (h : s.producers[i]? = some x) :
    (s.setProducer i y).producersWhere p + (if p x then 1 else 0) = s.producersWhere p +
    (if p y then 1 else 0) := countP_set_of_getElem? h

theorem threadsWhere_set (h : s.threads[i]? = some th) :
    (s.setThread i th point).threadsWhere q + (if q th.point then 1 else 0) = s.threadsWhere q +
    (if q point then 1 else 0) :=
  countP_set_of_getElem? h

theorem countP_join (h : s.threads[i]? = some th) :
    ((s.threads.set i { th with joined := true }).countP fun th => q th.point) = s.threadsWhere q := by
  have hset : ((s.threads.set i { th with joined := true }).countP fun th => q th.point) + (if q th.point then 1 else 0) =
      (s.threads.countP fun th => q th.point) + (if q th.point then 1 else 0) := countP_set_of_getElem? h
  exact Nat.add_right_cancel hset

theorem countP_start (hq : q .created = false) :
    ((s.threads ++ List.replicate n (⟨.created, false⟩ : Thread)).countP fun th => q th.point) = s.threadsWhere q := by
  simp [State.threadsWhere, List.countP_replicate, hq]

theorem producersWhere_pos (h : s.producers[i]? = some x) (hx : p x = true) :
    0 < s.producersWhere p := countP_pos_of_getElem? h hx

theorem threadsWhere_pos (h : s.threads[i]? = some th) (hq : q th.point = true) :
    0 < s.threadsWhere q := countP_pos_of_getElem? h hq

end Count

/-! ## 待ち行列の長さ -/

/-- `not_full_`、待つ仕事、押し込む前の呼び出し、返す前の糸を合わせると、いつも上限である。 -/
def State.Slots (c : Config) (s : State) : Prop :=
  c.limited = true →
    s.notFull + s.tasks.length + s.producersWhere Producer.acquired + s.threadsWhere
    Point.holdsSlot = min c.maxPendingTasks c.semValueMax

section Slots

variable {x y : Producer} {point : Point}

theorem State.Slots.setProducer (h : s.Slots c) (hp : s.producers[i]? = some x)
    (hxy : y.acquired = x.acquired) : (s.setProducer i y).Slots c := by
  intro hl
  have hcount : (s.setProducer i y).producersWhere Producer.acquired = s.producersWhere Producer.acquired := by
    have := @producersWhere_set s i Producer.acquired x y hp
    rw [hxy] at this
    exact Nat.add_right_cancel this
  rw [hcount]
  exact h hl

theorem State.Slots.setThread (h : s.Slots c) (ht : s.threads[i]? = some th)
    (hpoint : point.holdsSlot = th.point.holdsSlot) : (s.setThread i th point).Slots c := by
  intro hl
  have hcount : (s.setThread i th point).threadsWhere Point.holdsSlot = s.threadsWhere Point.holdsSlot := by
    have := @threadsWhere_set s i th Point.holdsSlot point ht
    rw [hpoint] at this
    exact Nat.add_right_cancel this
  rw [hcount]
  exact h hl

theorem State.clear_eq (c : Config) (s : State) :
    ∃ notFull tasks dropped, s.clear c = { s with notFull := notFull, tasks := tasks, dropped :=
      dropped } ∧ tasks.length ≤ s.tasks.length := by
  rw [State.clear]
  split
  · split
    · exact ⟨_, _, _, rfl, Nat.zero_le _⟩
    · exact ⟨_, _, _, rfl, Nat.le_refl _⟩
  · exact ⟨_, _, _, rfl, Nat.zero_le _⟩

theorem State.Slots.clear (h : s.Slots c) : (s.clear c).Slots c := by
  intro hl
  have heq := h hl
  rw [State.clear, if_pos hl]
  split
  · simp only [State.producersWhere, State.threadsWhere, List.length_nil] at heq ⊢
    omega
  · omega

theorem State.Slots.init : (State.init c).Slots c := fun _ => rfl

theorem State.Slots.move (h : s.Slots c) (hm : Move c s action t) : t.Slots c := by
  cases hm with
  | enqueue null timed =>
      intro hl
      rw [← h hl]
      cases null <;> simp [State.enqueueCall, hl, State.producersWhere, State.threadsWhere, Producer.acquired]
  | acquire hp hf =>
      intro hl
      have heq := h hl
      have hcount := @producersWhere_set s _ Producer.acquired _ .pushing hp
      simp only [Producer.acquired, Bool.false_eq_true, if_false, if_true] at hcount
      simp only [State.setProducer, State.producersWhere, State.threadsWhere] at heq hcount ⊢
      omega
  | @push i hp hu =>
      intro hl
      have heq := h hl
      have hcount : ∀ y : Producer, y.acquired = false → (s.producers.set i y).countP
          Producer.acquired + 1 = s.producersWhere Producer.acquired := by
        intro y hy
        have := @producersWhere_set s i Producer.acquired _ y hp
        rw [hy] at this
        exact this
      simp only [State.push, State.setProducer, State.producersWhere, State.threadsWhere,
        List.length_append, List.length_singleton] at heq hcount ⊢
      split
      · have := hcount .releasing rfl
        omega
      · have := hcount .starting rfl
        omega
  | failPush hp hu =>
      intro hl
      have heq := h hl
      have hpos := producersWhere_pos hp (show Producer.acquired .pushing = true from rfl)
      have hcount := @producersWhere_set s _ Producer.acquired _ (.returned .pushFailed) hp
      simp only [Producer.acquired, Bool.false_eq_true, if_false, if_true] at hcount
      simp only [State.failPush, hl, true_and, State.setProducer, State.producersWhere,
        State.threadsWhere] at heq hcount hpos ⊢
      split
      · omega
      · omega
  | overflow hp hf => exact h.setProducer hp rfl
  | startFailed hp => exact h.setProducer hp rfl
  | create hp hn =>
      have hcreated : s.createThread.Slots c := by
        intro hl
        rw [← h hl]
        simp [State.createThread, State.producersWhere, State.threadsWhere, Point.holdsSlot]
      exact hcreated.setProducer hp rfl
  | count hp => exact State.Slots.setProducer h hp rfl
  | note hp => exact State.Slots.setProducer h hp rfl
  | release hp => exact State.Slots.setProducer h hp rfl
  | lose hp hf => exact State.Slots.setProducer h hp rfl
  | startAcquire ht hp | startRelease ht hp | taskAcquire ht hp hf | execute ht hp | unuse ht hp hu =>
      exact State.Slots.setThread h ht (by rw [hp]; rfl)
  | begin ht hp hn | notBegin ht hp hn | stop ht hp hu hf | retry ht hp hu hf hq => exact h.setThread ht (by rw [hp]; rfl)
  | @pop i th task tasks ht hp hu hf hq =>
      intro hl
      have heq := h hl
      have hcount := @threadsWhere_set s i th Point.holdsSlot (.releasing task) ht
      simp only [hp, Point.holdsSlot, Bool.false_eq_true, if_false, if_true] at hcount
      simp only [hl, if_true, State.setThread, State.producersWhere, State.threadsWhere, hq,
        List.length_cons] at heq hcount ⊢
      omega
  | @free i th task ht hp hf =>
      intro hl
      have heq := h hl
      have hcount := @threadsWhere_set s i th Point.holdsSlot (.executing task) ht
      simp only [hp, Point.holdsSlot, Bool.false_eq_true, if_false, if_true] at hcount
      simp only [State.setThread, State.producersWhere, State.threadsWhere] at heq hcount ⊢
      omega
  | freeFailed ht hp hf =>
      intro hl
      have heq := h hl
      have hpos := threadsWhere_pos ht (show Point.holdsSlot _ = true by rw [hp]; rfl)
      omega
  | clear hu => exact h.clear
  | start hu ha hn =>
      intro hl
      rw [← h hl]
      simp only [State.start, State.producersWhere, State.threadsWhere]
      rw [@countP_start s Point.holdsSlot _ rfl]
      rfl
  | join hw ht hp =>
      intro hl
      rw [← h hl]
      simp only [State.threadsWhere]
      rw [countP_join ht]
      rfl
  | _ => exact h

end Slots

/-! ## 糸の表 -/

/-- `number_running_` の糸の中の、待ち終えた糸の数。 -/
def joinedCount (numberRunning : Nat) : Option Waiter → Nat
  | some (.joining i) => i
  | some (.inJoin i) => i
  | some .stopping => numberRunning
  | some .clearing => numberRunning
  | _ => 0

/-- `number_running_` を 0 とした後、返るまで。 -/
def pastZero : Option Waiter → Bool
  | some .terminating => true
  | some (.leaving false) => true
  | _ => false

def waitsActive : Option Waiter → Bool
  | some .testing => true
  | some (.joining _) => true
  | some (.inJoin _) => true
  | waiter => pastLoop waiter

/-- 始まった糸の表は、待ち終えた古い `base` 個と、`jobs_` の指す `number_running_` 個からなる。 -/
structure State.Pool (c : Config) (s : State) (base : Nat) : Prop where
  held : s.producersWhere Producer.holds ≤ 1
  size : base + s.numberRunning + s.producersWhere Producer.uncounted = s.threads.length
  room : s.numberRunning + s.producersWhere Producer.uncounted ≤ c.threadsNumber
  jobs : ∀ j < s.numberRunning + s.producersWhere Producer.uncounted, s.jobs j = base + j
  joined : ∀ (k : Nat) (th : Thread), s.threads[k]? = some th →
    (th.joined = true ↔ k < base + joinedCount s.numberRunning s.waiter)
  finished : ∀ th ∈ s.threads, th.joined = true → th.point = .finished
  count : joinedCount s.numberRunning s.waiter ≤ s.numberRunning
  inJoin : ∀ i, s.waiter = some (.inJoin i) → i < s.numberRunning
  counted : pastLoop s.waiter = true → s.producersWhere Producer.uncounted = 0
  zero : pastZero s.waiter = true → s.numberRunning = 0
  busy : waitsActive s.waiter = true → s.activeState ≠ .notActive
  deciding : 0 < s.producersWhere Producer.holds → s.numberRunning ≠ 0 ∨ pastZero s.waiter = true

section Pool

variable {base : Nat} {x y : Producer} {point : Point}

theorem pastLoop_of_pastZero {w : Option Waiter} (h : pastZero w = true) : pastLoop w = true := by
  cases w with
  | none => simp [pastZero] at h
  | some w =>
      cases w with
      | leaving skipped =>
          cases skipped with
          | false => rfl
          | true => simp [pastZero] at h
      | terminating => rfl
      | _ => simp [pastZero] at h

theorem uncounted_le_holds (s : State) : s.producersWhere Producer.uncounted ≤ s.producersWhere Producer.holds := by
  apply List.countP_mono_left
  intro p _
  cases p <;> simp [Producer.uncounted, Producer.holds]

theorem unlocked_iff : s.unlocked = true ↔ s.producersWhere Producer.holds = 0 := by
  simp [State.unlocked, State.producersWhere, List.countP_eq_zero]

theorem State.Pool.frame (h : s.Pool c base) (hproducers : t.producers = s.producers) (hthreads : t.threads = s.threads)
    (hjobs : t.jobs = s.jobs) (hrunning : t.numberRunning = s.numberRunning) (hwaiter : t.waiter = s.waiter)
    (hactive : waitsActive s.waiter = true → t.activeState ≠ .notActive) : t.Pool c base := by
  obtain ⟨held, size, room, jobs, joined, finished, count, inJoin, counted, zero, -, deciding⟩ := h
  cases t with
  | mk =>
      simp only at hproducers hthreads hjobs hrunning hwaiter
      subst hproducers hthreads hjobs hrunning hwaiter
      exact ⟨held, size, room, jobs, joined, finished, count, inJoin, counted, zero, hactive, deciding⟩

theorem State.Pool.setThread (h : s.Pool c base) (ht : s.threads[i]? = some th)
    (hp : th.point ≠ .finished) : (s.setThread i th point).Pool c base := by
  obtain ⟨held, size, room, jobs, joined, finished, count, inJoin, counted, zero, busy, deciding⟩ := h
  have hjoined : th.joined = false := by
    cases hj : th.joined with
    | false => rfl
    | true => exact absurd (finished th (List.mem_of_getElem? ht) hj) hp
  refine ⟨held, ?_, room, jobs, ?_, ?_, count, inJoin, counted, zero, busy, deciding⟩
  · exact size.trans List.length_set.symm
  · intro k th' hk
    rw [State.setThread, List.getElem?_set] at hk
    split at hk
    case isTrue hik =>
      subst hik
      split at hk
      · obtain rfl := Option.some.inj hk
        exact joined i th ht
      · cases hk
    case isFalse => exact joined k th' hk
  · refine forall_mem_set finished ?_
    intro hj
    rw [hjoined] at hj
    cases hj

theorem State.Pool.setProducer (h : s.Pool c base) (hp : s.producers[i]? = some x) (hholds : y.holds = true → x.holds = true)
    (huncounted : y.uncounted = x.uncounted) : (s.setProducer i y).Pool c base := by
  obtain ⟨held, size, room, jobs, joined, finished, count, inJoin, counted, zero, busy, deciding⟩ := h
  have hcount : (s.setProducer i y).producersWhere Producer.uncounted = s.producersWhere Producer.uncounted := by
    have := @producersWhere_set s i Producer.uncounted x y hp
    rw [huncounted] at this
    exact Nat.add_right_cancel this
  have hle : (s.setProducer i y).producersWhere Producer.holds ≤ s.producersWhere Producer.holds := by
    have := @producersWhere_set s i Producer.holds x y hp
    split at this
    · split at this <;> omega
    · rename_i hx
      rw [if_neg fun hy => hx (hholds hy)] at this
      omega
  refine ⟨Nat.le_trans hle held, ?_, ?_, ?_, joined, finished, count, inJoin, ?_, zero, busy, ?_⟩
  · rw [hcount]
    exact size
  · rw [hcount]
    exact room
  · rw [hcount]
    exact jobs
  · rw [hcount]
    exact counted
  · intro hpos
    exact deciding (Nat.lt_of_lt_of_le hpos hle)

theorem State.Pool.setWaiter {w : Option Waiter} (h : s.Pool c base)
    (hcount : joinedCount s.numberRunning w = joinedCount s.numberRunning s.waiter)
    (hin : ∀ i, w = some (.inJoin i) → i < s.numberRunning)
    (hpast : pastLoop w = true → s.producersWhere Producer.uncounted = 0) (hzero : pastZero w = true → s.numberRunning = 0)
    (hbusy : waitsActive w = true → s.activeState ≠ .notActive)
    (hdeciding : 0 < s.producersWhere Producer.holds → s.numberRunning ≠ 0 ∨ pastZero w = true) :
    ({ s with waiter := w }).Pool c base := by
  obtain ⟨held, size, room, jobs, joined, finished, count, -, -, -, -, -⟩ := h
  refine ⟨held, size, room, jobs, ?_, finished, ?_, hin, hpast, hzero, hbusy, hdeciding⟩
  · rw [hcount]
    exact joined
  · rw [hcount]
    exact count

theorem State.Pool.idle (h : s.Pool c base) (ha : s.activeState = .notActive) :
    waitsActive s.waiter = false ∧ joinedCount s.numberRunning s.waiter = 0 := by
  have hbusy : waitsActive s.waiter = false := by
    cases hw : waitsActive s.waiter with
    | false => rfl
    | true => exact absurd ha (h.busy hw)
  refine ⟨hbusy, ?_⟩
  cases hw : s.waiter with
  | none => rfl
  | some w => cases w <;> simp_all [waitsActive, joinedCount, pastLoop]

theorem State.Pool.create (h : s.Pool c base) (hp : s.producers[i]? = some .starting)
    (hn : s.numberRunning ≠ c.threadsNumber)
    (hpast : pastLoop s.waiter = false) : (s.createThread.setProducer i .created).Pool c base := by
  obtain ⟨held, size, room, jobs, joined, finished, count, inJoin, counted, zero, busy, deciding⟩ := h
  have hholds : (s.setProducer i .created).producersWhere Producer.holds = s.producersWhere Producer.holds :=
    Nat.add_right_cancel (@producersWhere_set s i Producer.holds .starting .created hp)
  have hcount : (s.setProducer i .created).producersWhere Producer.uncounted = s.producersWhere Producer.uncounted + 1 :=
    @producersWhere_set s i Producer.uncounted _ .created hp
  have hle := uncounted_le_holds (s.setProducer i .created)
  have hzero : s.producersWhere Producer.uncounted = 0 := by omega
  have hone : (s.createThread.setProducer i .created).producersWhere Producer.uncounted = 1 := by
    rw [hzero] at hcount
    exact hcount
  have hnotZero : pastZero s.waiter = false := by
    cases hw : pastZero s.waiter with
    | false => rfl
    | true => rw [← hpast, pastLoop_of_pastZero hw]
  refine ⟨Nat.le_trans (Nat.le_of_eq hholds) held, ?_, ?_, ?_, ?_, ?_, count, inJoin, ?_, zero, busy, ?_⟩
  · rw [hone]
    simp only [State.setProducer, State.createThread, List.length_append, List.length_singleton]
    omega
  · rw [hone]
    simp only [State.setProducer, State.createThread]
    omega
  · rw [hone]
    simp only [State.setProducer, State.createThread]
    intro j hj
    split
    · omega
    · exact jobs j (by omega)
  · intro k th hk
    rw [State.setProducer, State.createThread] at hk
    rcases Nat.lt_or_ge k s.threads.length with hlt | hge
    · rw [List.getElem?_append_left hlt] at hk
      exact joined k th hk
    · rw [List.getElem?_append_right hge] at hk
      obtain ⟨-, rfl⟩ : k - s.threads.length = 0 ∧ (⟨.created, false⟩ : Thread) = th := by
        simpa [List.getElem?_singleton] using hk
      have : joinedCount s.numberRunning s.waiter ≤ s.numberRunning := count
      constructor
      · intro hj
        cases hj
      · intro hlt
        simp only [State.setProducer, State.createThread] at hlt
        omega
  · intro th hth
    rcases List.mem_append.mp hth with hth | hth
    · exact finished th hth
    · obtain rfl := List.mem_singleton.mp hth
      intro hj
      cases hj
  · intro hw
    rw [State.setProducer, State.createThread] at hw
    simp [hpast] at hw
  · intro hpos
    have hpos' : 0 < s.producersWhere Producer.holds := producersWhere_pos hp rfl
    have := deciding hpos'
    simpa [State.setProducer, State.createThread, hnotZero] using this

theorem State.Pool.countThread (h : s.Pool c base) (hp : s.producers[i]? = some .created) :
    ({ s with numberRunning := s.numberRunning + 1 }.setProducer i .counted).Pool c base := by
  obtain ⟨held, size, room, jobs, joined, finished, count, inJoin, counted, zero, busy, deciding⟩ := h
  have hholds : (s.setProducer i .counted).producersWhere Producer.holds = s.producersWhere Producer.holds :=
    Nat.add_right_cancel (@producersWhere_set s i Producer.holds .created .counted hp)
  have hcount : (s.setProducer i .counted).producersWhere Producer.uncounted + 1 = s.producersWhere Producer.uncounted :=
    @producersWhere_set s i Producer.uncounted _ .counted hp
  have hpast : pastLoop s.waiter = false := by
    cases hw : pastLoop s.waiter with
    | false => rfl
    | true =>
        have := counted hw
        omega
  have hsum : s.numberRunning + 1 + (s.setProducer i .counted).producersWhere Producer.uncounted =
      s.numberRunning + s.producersWhere Producer.uncounted := by omega
  have hjoined : joinedCount (s.numberRunning + 1) s.waiter = joinedCount s.numberRunning s.waiter := by
    cases hw : s.waiter with
    | none => rfl
    | some w =>
        rw [hw] at hpast
        cases w <;> simp_all [pastLoop, joinedCount]
  refine ⟨Nat.le_trans (Nat.le_of_eq hholds) held, ?_, ?_, ?_, ?_, finished, ?_, ?_, ?_, ?_, busy,
    fun _ => .inl (Nat.succ_ne_zero _)⟩
  · have : base + (s.numberRunning + 1) + (s.setProducer i .counted).producersWhere
        Producer.uncounted = s.threads.length := by omega
    exact this
  · exact Nat.le_trans (Nat.le_of_eq hsum) room
  · intro j hj
    exact jobs j (Nat.lt_of_lt_of_le hj (Nat.le_of_eq hsum))
  · intro k th hk
    exact hjoined ▸ joined k th hk
  · exact Nat.le_trans (Nat.le_of_eq hjoined) (Nat.le_succ_of_le count)
  · intro j hj
    exact Nat.lt_succ_of_lt (inJoin j hj)
  · intro hw
    simp only [State.setProducer] at hw
    simp [hpast] at hw
  · intro hw
    have hw : pastLoop s.waiter = true := pastLoop_of_pastZero hw
    simp [hpast] at hw

theorem State.Pool.enqueueCall {null timed : Bool} (h : s.Pool c base) : (s.enqueueCall c null timed).Pool c base := by
  obtain ⟨held, size, room, jobs, joined, finished, count, inJoin, counted, zero, busy, deciding⟩ := h
  have happend : ∀ p : Producer → Bool, p (.returned .invalidArgument) = false →
      p (.acquiring timed) = false → p .pushing = false →
      (s.enqueueCall c null timed).producersWhere p = s.producersWhere p := by
    intro p hp hp' hp''
    simp only [State.enqueueCall, State.producersWhere]
    cases null <;> cases c.limited <;> simp [hp, hp', hp'']
  have hholds := happend Producer.holds rfl rfl rfl
  have huncounted := happend Producer.uncounted rfl rfl rfl
  refine ⟨hholds ▸ held, huncounted ▸ size, huncounted ▸ room, huncounted ▸ jobs, joined, finished,
    count, inJoin, ?_, zero, busy, ?_⟩
  · rw [huncounted]
    exact counted
  · rw [hholds]
    exact deciding

theorem State.Pool.push (h : s.Pool c base) (hp : s.producers[i]? = some .pushing)
    (hu : s.unlocked = true) : (s.push c i).Pool c base := by
  have hframe : ({ s with tasks := s.tasks ++ [s.pushed], pushed := s.pushed + 1 }).Pool c base :=
    h.frame rfl rfl rfl rfl rfl h.busy
  rw [State.push]
  split
  · exact hframe.setProducer hp (by simp [Producer.holds]) rfl
  · rename_i henough
    obtain ⟨held, size, room, jobs, joined, finished, count, inJoin, counted, zero, busy, deciding⟩ := h
    have hholds : (s.setProducer i .starting).producersWhere Producer.holds = s.producersWhere Producer.holds + 1 :=
      @producersWhere_set s i Producer.holds .pushing .starting hp
    have huncounted : (s.setProducer i .starting).producersWhere Producer.uncounted = s.producersWhere Producer.uncounted :=
      @producersWhere_set s i Producer.uncounted .pushing .starting hp
    rw [unlocked_iff.mp hu] at hholds
    refine ⟨Nat.le_of_eq hholds, ?_, ?_, ?_, joined, finished, count, inJoin, ?_, zero, busy, fun _ => .inl ?_⟩
    · exact huncounted ▸ size
    · exact huncounted ▸ room
    · exact huncounted ▸ jobs
    · exact huncounted ▸ counted
    · exact (not_or.mp henough).1

theorem State.Pool.start (h : s.Pool c base) (hu : s.unlocked = true)
    (ha : s.activeState = .notActive) (hn : s.numberRunning = 0) : (s.start c).Pool c base := by
  obtain ⟨hbusy, hjoined⟩ := h.idle ha
  obtain ⟨held, size, room, jobs, joined, finished, count, inJoin, counted, zero, busy, deciding⟩ := h
  have hholds := unlocked_iff.mp hu
  have huncounted : s.producersWhere Producer.uncounted = 0 := Nat.eq_zero_of_le_zero (hholds ▸ uncounted_le_holds s)
  have hbase : base = s.threads.length := by omega
  have hpast : pastLoop s.waiter = false := by
    cases hw : s.waiter with
    | none => rfl
    | some w =>
        rw [hw] at hbusy
        cases w <;> simp_all [waitsActive, pastLoop]
  have hcount : joinedCount c.toStart s.waiter = 0 := by
    cases hw : s.waiter with
    | none => rfl
    | some w =>
        rw [hw] at hbusy
        cases w <;> simp_all [waitsActive, pastLoop, joinedCount]
  have hstart : c.toStart ≤ c.threadsNumber := by
    rw [Config.toStart]
    split
    · exact Nat.le_refl _
    · omega
  refine ⟨held, ?_, ?_, ?_, ?_, ?_, ?_, ?_, ?_, ?_, ?_, ?_⟩
  · have : (s.start c).producersWhere Producer.uncounted = 0 := huncounted
    rw [this]
    simp [State.start, hbase]
  · have : (s.start c).producersWhere Producer.uncounted = 0 := huncounted
    rw [this]
    exact hstart
  · have : (s.start c).producersWhere Producer.uncounted = 0 := huncounted
    rw [this]
    intro j hj
    have hj : j < c.toStart := hj
    simp only [State.start, if_pos hj, hbase]
  · intro k th hk
    have hcount : joinedCount (s.start c).numberRunning (s.start c).waiter = 0 := hcount
    rw [hcount]
    rcases Nat.lt_or_ge k s.threads.length with hlt | hge
    · rw [State.start, List.getElem?_append_left hlt] at hk
      rw [hjoined] at joined
      exact joined k th hk
    · rw [State.start, List.getElem?_append_right hge] at hk
      obtain ⟨-, rfl⟩ := List.mem_replicate.mp (List.mem_of_getElem? hk)
      constructor
      · intro hj
        cases hj
      · intro hlt
        omega
  · intro th hth hj
    rcases List.mem_append.mp hth with hth | hth
    · exact finished th hth hj
    · obtain ⟨-, rfl⟩ := List.mem_replicate.mp hth
      cases hj
  · exact Nat.le_trans (Nat.le_of_eq hcount) (Nat.zero_le _)
  · intro i hi
    have hi : s.waiter = some (.inJoin i) := hi
    rw [hi] at hbusy
    cases hbusy
  · intro hw
    have hw : pastLoop s.waiter = true := hw
    rw [hpast] at hw
    cases hw
  · intro hw
    have hw : pastLoop s.waiter = true := pastLoop_of_pastZero hw
    rw [hpast] at hw
    cases hw
  · intro hw
    have hw : waitsActive s.waiter = true := hw
    rw [hbusy] at hw
    cases hw
  · intro hpos
    have hpos : 0 < s.producersWhere Producer.holds := hpos
    omega

theorem State.Pool.join (h : s.Pool c base) (hw : s.waiter = some (.inJoin i)) (hp : th.point = .finished) :
    ({ s with
      threads := s.threads.set (s.jobs i) { th with joined := true },
      waiter := some (.joining (i + 1)) }).Pool c base := by
  have hi := h.inJoin i hw
  have hactive := h.busy (by rw [hw]; rfl)
  obtain ⟨held, size, room, jobs, joined, finished, -, -, -, -, -, deciding⟩ := h
  have hjob : s.jobs i = base + i := jobs i (Nat.lt_of_lt_of_le hi (Nat.le_add_right _ _))
  rw [hw] at joined deciding
  refine ⟨held, size.trans List.length_set.symm, room, jobs, ?_, ?_, hi, fun _ hin =>
    by simp at hin, fun hpast => by simp [pastLoop] at hpast,
    fun hzero => by simp [pastZero] at hzero, fun _ => hactive, ?_⟩
  · intro k th' hk
    simp only [List.getElem?_set, hjob] at hk
    simp only [joinedCount] at joined ⊢
    split at hk
    · rename_i hki
      split at hk
      · obtain rfl := Option.some.inj hk
        simp only [true_iff]
        omega
      · cases hk
    · rw [joined k th' hk]
      omega
  · refine forall_mem_set finished ?_
    exact fun _ => hp
  · exact deciding

theorem State.Pool.cleared (h : s.Pool c base) (hw : s.waiter = some .clearing) :
    ({ s with numberRunning := 0, waiter := some .terminating }).Pool c (base + s.numberRunning) := by
  have hcounted := h.counted (by rw [hw]; rfl)
  have hactive := h.busy (by rw [hw]; rfl)
  obtain ⟨held, size, room, jobs, joined, finished, -, -, -, -, -, deciding⟩ := h
  rw [hw] at joined
  refine ⟨held, size, ?_, ?_, joined, finished, Nat.le_refl _, fun _ hin =>
    by simp at hin, fun _ => hcounted, fun _ => rfl, fun _ => hactive, fun _ => .inr rfl⟩
  · simp only [State.producersWhere] at hcounted room ⊢
    omega
  · intro j hj
    simp only [State.producersWhere] at hcounted hj
    omega

theorem State.Pool.move (h : s.Pool c base) (hlate : s.startsLate c action = false)
    (hm : Move c s action t) : ∃ base', base ≤ base' ∧ t.Pool c base' := by
  cases hm with
  | enqueue null timed => exact ⟨base, Nat.le_refl _, h.enqueueCall⟩
  | acquire hp hf | release hp | lose hp hf | note hp | failPush hp hu =>
      refine ⟨base, Nat.le_refl _, State.Pool.setProducer ?_ hp (by simp [Producer.holds]) rfl⟩
      exact h.frame rfl rfl rfl rfl rfl h.busy
  | overflow hp hf | startFailed hp => exact ⟨base, Nat.le_refl _, h.setProducer hp (by simp [Producer.holds]) rfl⟩
  | push hp hu => exact ⟨base, Nat.le_refl _, h.push hp hu⟩
  | create hp hn =>
      refine ⟨base, Nat.le_refl _, h.create hp hn ?_⟩
      simpa [State.startsLate, hp, hn] using hlate
  | count hp => exact ⟨base, Nat.le_refl _, h.countThread hp⟩
  | startAcquire ht hp | startRelease ht hp | taskAcquire ht hp hf | execute ht hp
  | unuse ht hp hu | pop ht hp hu hf hq | free ht hp hf =>
      refine ⟨base, Nat.le_refl _, State.Pool.setThread ?_ ht (by simp [hp])⟩
      exact h.frame rfl rfl rfl rfl rfl h.busy
  | begin ht hp hn | notBegin ht hp hn | stop ht hp hu hf | retry ht hp hu hf hq | freeFailed ht hp hf =>
      exact ⟨base, Nat.le_refl _, h.setThread ht (by simp [hp])⟩
  | clear hu =>
      obtain ⟨notFull, tasks, dropped, hclear, -⟩ := s.clear_eq c
      rw [hclear]
      exact ⟨base, Nat.le_refl _, h.frame rfl rfl rfl rfl rfl h.busy⟩
  | start hu ha hn => exact ⟨base, Nat.le_refl _, h.start hu ha hn⟩
  | alreadyActive => exact ⟨base, Nat.le_refl _, h⟩
  | alreadyInactive => exact ⟨base, Nat.le_refl _, h⟩
  | deactivate hu ha hf => exact ⟨base, Nat.le_refl _, h.frame rfl rfl rfl rfl rfl fun _ => by simp⟩
  | waitCall hw =>
      refine ⟨base, Nat.le_refl _, h.setWaiter (by rw [hw]; rfl) (by simp) (by simp [pastLoop])
        (by simp [pastZero]) (by simp [waitsActive, pastLoop]) ?_⟩
      simpa [hw, pastZero] using h.deciding
  | skip hw ha =>
      refine ⟨base, Nat.le_refl _, h.setWaiter (by rw [hw]; rfl) (by simp) (by simp [pastLoop])
        (by simp [pastZero]) (by simp [waitsActive, pastLoop]) ?_⟩
      simpa [hw, pastZero] using h.deciding
  | enter hw ha =>
      refine ⟨base, Nat.le_refl _, h.setWaiter (by rw [hw]; rfl) (by simp) (by simp [pastLoop])
        (by simp [pastZero]) (fun _ => ha) ?_⟩
      simpa [hw, pastZero] using h.deciding
  | test hw hn =>
      refine ⟨base, Nat.le_refl _, h.setWaiter (by rw [hw]; rfl) (by simp) (by simp [pastLoop])
        (by simp [pastZero]) (fun _ => h.busy ?_) fun _ => .inl hn⟩
      rw [hw]
      rfl
  | testZero hw hn =>
      have hholds : s.producersWhere Producer.holds = 0 := by
        have := h.deciding
        rw [hw] at this
        simpa [hn, pastZero] using this
      have huncounted := Nat.eq_zero_of_le_zero (hholds ▸ uncounted_le_holds s)
      refine ⟨base, Nat.le_refl _, h.setWaiter (by rw [hw]; rfl) (by simp) (fun _ => huncounted)
        (fun _ => hn) (fun _ => h.busy ?_) fun _ => .inr rfl⟩
      rw [hw]
      rfl
  | @next i hw hi =>
      refine ⟨base, Nat.le_refl _, h.setWaiter (by rw [hw]; rfl) ?_ (by simp [pastLoop])
        (by simp [pastZero]) (fun _ => h.busy ?_) ?_⟩
      · intro j hj
        simp only [Option.some.injEq, Waiter.inJoin.injEq] at hj
        exact hj ▸ hi
      · rw [hw]
        rfl
      · simpa [hw, pastZero] using h.deciding
  | @exit i hw hi =>
      have hcount := h.count
      simp only [hw, joinedCount] at hcount
      obtain rfl := Nat.le_antisymm hcount hi
      have huncounted : s.producersWhere Producer.uncounted = 0 := by
        simpa [State.startsLate, hw, State.producersWhere, List.countP_eq_zero] using hlate
      refine ⟨base, Nat.le_refl _, h.setWaiter (by rw [hw]; rfl) (by simp) (fun _ => huncounted)
        (by simp [pastZero]) (fun _ => h.busy ?_) ?_⟩
      · rw [hw]
        rfl
      · simpa [hw, pastZero] using h.deciding
  | join hw ht hp => exact ⟨base, Nat.le_refl _, h.join hw hp⟩
  | stopped hw =>
      have hframe : ({ s with startSemaphore := s.startSemaphore - 1 }).Pool c base := h.frame rfl rfl rfl rfl rfl h.busy
      refine ⟨base, Nat.le_refl _, hframe.setWaiter (by rw [hw]; rfl) (by simp)
        (fun _ => h.counted ?_) (by simp [pastZero]) (fun _ => h.busy ?_) ?_⟩
      · rw [hw]
        rfl
      · rw [hw]
        rfl
      · simpa [hw, pastZero] using hframe.deciding
  | cleared hw => exact ⟨_, Nat.le_add_right _ _, h.cleared hw⟩
  | terminated hw =>
      have hframe : ({ s with terminating := false }).Pool c base := h.frame rfl rfl rfl rfl rfl h.busy
      refine ⟨base, Nat.le_refl _, hframe.setWaiter (by rw [hw]; rfl) (by simp)
        (fun _ => h.counted ?_) (fun _ => h.zero ?_) (fun _ => h.busy ?_) ?_⟩
      · rw [hw]
        rfl
      · rw [hw]
        rfl
      · rw [hw]
        rfl
      · exact fun _ => .inr rfl
  | @leave skipped hw hu =>
      have hnone : ({ s with waiter := none }).Pool c base := by
        refine h.setWaiter ?_ (by simp) (by simp [pastLoop]) (by simp [pastZero]) (by simp [waitsActive, pastLoop]) ?_
        · rw [hw]
          rfl
        · rw [unlocked_iff.mp hu]
          simp
      exact ⟨base, Nat.le_refl _, hnone.frame rfl rfl rfl rfl rfl (by simp [waitsActive, pastLoop])⟩

theorem State.Pool.init : (State.init c).Pool c 0 := by
  refine ⟨Nat.zero_le _, rfl, Nat.zero_le _, ?_, ?_, ?_, Nat.le_refl _, ?_, fun _ => rfl, fun _ => rfl, ?_, ?_⟩
  · intro j hj
    cases hj
  · intro k th hk
    simp [State.init] at hk
  · intro th hth
    cases hth
  · intro i hi
    cases hi
  · intro hw
    cases hw
  · intro hpos
    cases hpos

theorem State.Pool.length_eq (h : s.Pool c base) (hholds : s.producersWhere Producer.holds = 0) :
    base + s.numberRunning = s.threads.length := by
  have hle := uncounted_le_holds s
  have hsize := h.size
  omega

end Pool

/-! ## 待ち終えた糸 -/

theorem unlocked_set {x : Producer} (h : s.unlocked = true) (hx : x.holds = false) :
    (s.setProducer i x).unlocked = true := by
  rw [State.unlocked, Bool.not_eq_true', List.any_eq_false] at h ⊢
  intro p hp
  rcases List.mem_or_eq_of_mem_set hp with hp | rfl
  · exact h p hp
  · simp [hx]

/-- `wait_object` が糸を待たずに返ろうとする間は、`number_running_` は 0 であり、`activate_object` の他に、糸を始めるものはない。 -/
def State.Idle (s : State) : Prop := s.numberRunning = 0 ∧ s.unlocked = true

theorem State.Idle.setProducer {x : Producer} (h : s.Idle) (hx : x.holds = false) :
    (s.setProducer i x).Idle := ⟨h.1, unlocked_set h.2 hx⟩

theorem State.Idle.not_holds {x : Producer} (h : s.Idle) (hp : s.producers[i]? = some x) : x.holds = false :=
  eq_false_of_ne_true fun hx => absurd (producersWhere_pos hp hx) (Nat.not_lt.mpr (Nat.le_of_eq (unlocked_iff.mp h.2)))

theorem State.Idle.move (h : s.Idle) (hw : s.waiter = some (.leaving true)) (hnothing : s.waitsNothing action = false)
    (hm : Move c s action t) (hw' : t.waiter = some (.leaving true)) : t.Idle := by
  cases hm with
  | enqueue null timed =>
      refine ⟨h.1, ?_⟩
      have hall := h.2
      rw [State.unlocked, Bool.not_eq_true', List.any_eq_false] at hall ⊢
      intro p hp
      rcases List.mem_append.mp hp with hp | hp
      · exact hall p hp
      · rw [List.mem_singleton.mp hp]
        split_ifs <;> simp [Producer.holds]
  | acquire hp hf | overflow hp hf | failPush hp hu | startFailed hp | release hp | lose hp hf
  | note hp => exact h.setProducer rfl
  | push hp hu =>
      have henough : State.enoughThreads c { s with tasks := s.tasks ++ [s.pushed], pushed := s.pushed + 1 } := .inl h.1
      rw [State.push, if_pos henough]
      exact h.setProducer rfl
  | create hp hn => cases h.not_holds hp
  | count hp => cases h.not_holds hp
  | start hu ha hn => simp [State.waitsNothing, hw, ha, hn] at hnothing
  | clear hu =>
      obtain ⟨notFull, tasks, dropped, hclear, -⟩ := s.clear_eq c
      rw [hclear]
      exact h
  | waitCall hw | skip hw ha | enter hw ha | test hw hn | testZero hw hn | next hw hi | exit hw hi
  | join hw ht hp | stopped hw | cleared hw
  | terminated hw | leave hw hu => simp_all
  | _ => exact h

/-- 最後に返った `wait_object` までに始まった糸は、全て古い糸である。 -/
def State.Settled (c : Config) (s : State) : Prop :=
  ∃ base, s.Pool c base ∧ s.settled ≤ base ∧ (s.waiter = some (.leaving true) → s.Idle)

theorem State.Settled.init : (State.init c).Settled c := by
  refine ⟨0, .init, Nat.le_refl _, ?_⟩
  intro hw
  cases hw

theorem State.Settled.move (h : s.Settled c) (hlate : s.startsLate c action = false)
    (hnothing : s.waitsNothing action = false) (hm : Move c s action t) : t.Settled c := by
  obtain ⟨base, hpool, hsettled, hleaving⟩ := h
  obtain ⟨base', hle, hpool'⟩ := hpool.move hlate hm
  have hsettled' := Nat.le_trans hsettled hle
  have hidle : s.waiter = some (.leaving true) → t.waiter = some (.leaving true) → t.Idle :=
    fun hw => (hleaving hw).move hw hnothing hm
  cases hm with
  | skip hw ha =>
      refine ⟨base', hpool', hsettled', fun _ => ?_⟩
      have hn : s.numberRunning = 0 := by simpa [State.waitsNothing, hw, ha] using hnothing
      have hholds : s.producersWhere Producer.holds = 0 := by
        have := hpool.deciding
        rw [hw] at this
        simpa [hn, pastZero] using this
      exact ⟨hn, unlocked_iff.mpr hholds⟩
  | @leave skipped hw hu =>
      refine ⟨base', hpool', ?_, fun hseen => by simp at hseen⟩
      have hn : s.numberRunning = 0 := by
        cases skipped with
        | false => exact hpool.zero (by rw [hw]; rfl)
        | true => exact (hleaving hw).1
      have hlength := hpool.length_eq (unlocked_iff.mp hu)
      show s.threads.length ≤ base'
      omega
  | clear hu =>
      obtain ⟨notFull, tasks, dropped, hclear, -⟩ := s.clear_eq c
      rw [hclear] at hpool' hidle ⊢
      exact ⟨base', hpool', hsettled', fun hw => hidle hw hw⟩
  | waitCall hw | enter hw ha | test hw hn | testZero hw hn | next hw hi | exit hw hi
  | join hw ht hp | stopped hw | cleared hw | terminated hw =>
      exact ⟨base', hpool', hsettled', fun hseen => by simp at hseen⟩
  | _ => exact ⟨base', hpool', hsettled', fun hw => hidle hw hw⟩

end UnixCommons.Generics.TaskRunner
