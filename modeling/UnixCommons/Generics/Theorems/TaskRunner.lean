import UnixCommons.Generics.Lemmas.TaskRunnerTokens

/-!
# 仕事と信号の定理

全ての糸を始める時、どの仕事も二度取られず、押し込まれた順に取られる。
-/

namespace UnixCommons.Generics.TaskRunner

open Lib

/-! ## 仕事の列の定理

待つ仕事の数は上限を越えない。`wait_object` が待つループを出た後に `enqueue_task` が糸を始めると、その糸は待たれないまま残る。そのような
歩みのない列では、`wait_object` が返れば、始まった糸は全て終わっている。
-/

section

variable {c : Config} {s t : State} {actions : List Action} {action : Action}

/-! ## 待ち行列の長さ -/

structure State.RespectsLimit (c : Config) (n : Nat) (s : State) : Prop where
  total : s.notFull + s.tasks.length + s.producersWhere Producer.acquired + s.threadsWhere Point.holdsSlot = n
  length : s.tasks.length ≤ n
  /-- 途中の呼び出しも糸もない時に `Overflow` で終わるのは、丁度 `n` 個の仕事が待つ時に限る。 -/
  overflow : ∀ i fault timed t, s.producersWhere Producer.acquired = 0 →
    s.threadsWhere Point.holdsSlot = 0 → s.producers[i]? = some (.acquiring timed) →
    step c s (.produce i fault) = some t → t.producers[i]? = some (.returned .overflow) →
      s.tasks.length = n

/-- どの列でも、上限を守る。 -/
theorem task_runner_respects_limit (hpos : 0 < c.maxPendingTasks) (hmax : c.maxPendingTasks ≤ c.semValueMax)
    (hrun : execute (step c) (State.init c) actions = some s) : s.RespectsLimit c c.maxPendingTasks := by
  have hslots : s.Slots c := execute_always (fun _ _ _ hi h => hi.move (step_move h)) .init hrun
  have hlimited : c.limited = true := by simp [Config.limited, Nat.ne_of_gt hpos]
  have htotal := hslots hlimited
  rw [Nat.min_eq_left hmax] at htotal
  refine ⟨htotal, by omega, ?_⟩
  intro i fault timed t hacquired hholders hp hstep hoverflow
  have hfull : s.notFull = 0 := by
    cases step_move hstep with
    | overflow _ hf => exact hf
    | acquire _ _ =>
        have hset : (s.producers.set i .pushing)[i]? = some .pushing :=
          List.getElem?_set_self (List.getElem?_eq_some_iff.mp hp).1
        cases hset.symm.trans hoverflow
    | push hp' _ | failPush hp' _ | startFailed hp' | create hp' _ | count hp' | note hp' | release hp' | lose hp' _ =>
        rw [hp] at hp'
        cases hp'
  omega

def oneTask : Config := ⟨2, 1, 1, 2147483647, by decide⟩

def overflowRun : List Action :=
  [.enqueue false false, .produce 0 false, .produce 0 false, .produce 0 false, .enqueue false true, .produce 1 true]

theorem task_runner_respects_limit_one :
    ∃ s, execute (step oneTask) (State.init oneTask) overflowRun = some s ∧ s.producers[1]? = some
      (.returned .overflow) ∧ s.tasks = [0] ∧ s.RespectsLimit oneTask 1 :=
  ⟨_, rfl, rfl, rfl, @task_runner_respects_limit oneTask _ overflowRun (by decide) (by decide) rfl⟩

/-! ## 待ち終えた糸 -/

/-- 始まった糸と `wait_object` の一致。 -/
structure State.Joined (s : State) : Prop where
  /-- 最後に返った `wait_object` までに始まった糸は、全て待ち終えている。 -/
  settled : ∀ i th, i < s.settled → s.threads[i]? = some th → th.joined = true
  leaving : ∀ skipped, s.waiter = some (.leaving skipped) → ∀ th ∈ s.threads, th.joined = true
  /-- 途中の `wait_object` も、糸を始める途中の呼び出しもない時、`number_running_` は、その後に始まって待ち終えていない糸の数である。 -/
  running : s.waiter = none → s.unlocked = true → s.numberRunning =
    (s.threads.drop s.settled).countP fun th => !th.joined

theorem State.Settled.joined (h : s.Settled c) : s.Joined := by
  obtain ⟨base, hpool, hsettled, hidle⟩ := h
  constructor
  · intro i th hi hth
    rw [hpool.joined i th hth]
    omega
  · intro skipped hw th hth
    obtain ⟨i, hi⟩ := List.mem_iff_getElem?.mp hth
    have hlength : base = s.threads.length := by
      cases skipped with
      | false =>
          have hn := hpool.zero (by rw [hw]; rfl)
          have hcounted := hpool.counted (by rw [hw]; rfl)
          have hsize := hpool.size
          omega
      | true =>
          have hlength := hpool.length_eq (unlocked_iff.mp (hidle hw).2)
          rwa [(hidle hw).1, Nat.add_zero] at hlength
    have hlt := (List.getElem?_eq_some_iff.mp hi).1
    rw [hpool.joined i th hi]
    omega
  · intro hw hu
    have hlength := hpool.length_eq (unlocked_iff.mp hu)
    have hcount : (s.threads.drop s.settled).countP (fun th => !th.joined) = s.threads.length - base := by
      refine countP_drop_of_iff ?_ hsettled
      intro k th hk
      have hjoined := hpool.joined k th hk
      rw [hw] at hjoined
      simp only [joinedCount, Nat.add_zero] at hjoined
      rw [Bool.not_eq_true', ← Bool.not_eq_true, hjoined]
      omega
    omega

/-- 待つループの後に糸が始まらず、待つべき糸を待たない呼び出しもない列では、`wait_object` の返った後に、待たれない糸は残らない。 -/
theorem task_runner_joined
    (hok : Along (step c) (fun s action => s.startsLate c action = false ∧
    s.waitsNothing action = false) (State.init c) actions)
    (hrun : execute (step c) (State.init c) actions = some s) : s.Joined :=
  (execute_invariant (fun _ _ _ hi hok h => hi.move hok.1 hok.2 (step_move h)) .init hok hrun : s.Settled c).joined

def oneOfTwo : Config := ⟨2, 0, 1, 2147483647, by decide⟩

def joinRun : List Action :=
  [.activate, .enqueue false false, .produce 0 false, .produce 0 false, .enqueue false false,
    .produce 1 false, .produce 1 false,
    .produce 1 false, .produce 1 false, .produce 1 false, .deactivate, .work 0, .work 0, .work 0,
    .work 0, .work 0, .work 1, .work 1,
    .work 1, .work 1, .work 1, .waitCall, .wait, .wait, .wait, .wait, .wait, .wait, .wait, .wait,
    .wait, .wait, .wait, .waitCall, .wait, .wait]

theorem task_runner_joined_two :
    ∃ s, execute (step oneOfTwo) (State.init oneOfTwo) joinRun = some s ∧ s.settled = 2 ∧ s.Joined :=
  ⟨_, rfl, rfl, @task_runner_joined oneOfTwo _ joinRun (by decide) rfl⟩

/-- 止まった糸を待ち終えた後、`number_running_` を 0 とする前に、仕事が加わって糸が始まる列。 -/
def strayRun : List Action :=
  [.activate, .work 0, .work 0, .work 0, .deactivate, .work 0, .work 0, .waitCall, .wait, .wait, .wait, .wait, .wait,
    .enqueue false false, .produce 0 false, .enqueue false false, .produce 1 false,
    .produce 1 false, .produce 1 false, .produce 1 false, .wait, .wait, .wait, .wait]

/-- `wait_object` が返ったのに、始まった糸は待ち終えておらず、数えられてもいない。 -/
theorem task_runner_stray :
    ∃ s, execute (step oneOfTwo) (State.init oneOfTwo) strayRun = some s ∧ s.waiter = none ∧
      s.unlocked = true ∧ s.settled = 2 ∧
      s.numberRunning = 0 ∧ s.threads[1]? = some ⟨.created, false⟩ ∧ ¬ s.Joined := by
  refine ⟨_, rfl, rfl, rfl, rfl, rfl, rfl, fun h => ?_⟩
  have := h.settled 1 ⟨.created, false⟩ (by decide) rfl
  cases this

end

section

variable {c : Config} {s : State} {actions : List Action}

structure State.KeepsTasks (c : Config) (s : State) : Prop where
  popped : (s.popped ++ s.tasks).Sublist (List.range s.pushed)
  /-- 押し込まれた仕事は、取られたか、待つか、`clear` で除かれたかの、ただ一つである。 -/
  places : (s.popped ++ s.tasks ++ s.dropped).Perm (List.range s.pushed)
  starts : (s.started ++ heldTasks s.threads).Perm s.popped
  single : c.threadsNumber = 1 → s.started ++ heldTasks s.threads = s.popped
  tokens : s.tasks.length ≤ s.newTask + s.producersWhere Producer.owes + s.threadsWhere Point.holdsToken + s.lost
  /-- 活動しているのに、どの糸も `new_task_` を待って止まり、返す途中の呼び出しがなければ、待つ仕事はない。 -/
  awake : s.activeState = .active → (∀ th ∈ s.threads, th.point = .acquiring ∨ th.point = .finished) → s.newTask = 0 →
    s.producersWhere Producer.owes = 0 → s.lost = 0 → s.tasks = []

theorem task_runner_keeps_tasks (hall : c.toStart = c.threadsNumber)
    (hrun : execute (step c) (State.init c) actions = some s) : s.KeepsTasks c := by
  have hkept : s.Kept c := execute_always (fun _ _ _ hi h => hi.move hall (step_move h)) .init hrun
  obtain ⟨-, -, htokens, ⟨horder, hplaces, hstarts⟩, hsingle⟩ := hkept
  have hle : s.tasks.length ≤ s.newTask + s.producersWhere Producer.owes + s.threadsWhere Point.holdsToken + s.lost :=
    Nat.le_trans (Nat.le_add_right _ _) htokens
  refine ⟨horder, hplaces, hstarts, hsingle, hle, ?_⟩
  intro _ hblocked hnew howes hlost
  have htokens : s.threadsWhere Point.holdsToken = 0 := by
    apply List.countP_eq_zero.mpr
    intro th hth
    rcases hblocked th hth with hp | hp <;> simp [hp, Point.holdsToken]
  exact List.eq_nil_of_length_eq_zero (by omega)

theorem twoThreads_pos : 0 < 2 := by decide

def twoThreads : Config := ⟨2, 0, 0, 2147483647, twoThreads_pos⟩

/-- 始め、仕事を一つ行い、一つを除き、止めて待ち、また始めて一つを押し込む列。 -/
def tasksRun : List Action :=
  [.activate, .work 0, .work 0, .work 0, .enqueue false false, .produce 0 false, .produce 0 false,
    .work 0, .work 0, .work 0, .work 0,
    .enqueue false false, .produce 1 false, .clear, .produce 1 false, .deactivate, .work 0, .work 0,
    .work 1, .work 1, .work 1, .work 1,
    .work 1, .waitCall, .wait, .wait, .wait, .wait, .wait, .wait, .wait, .wait, .wait, .wait,
    .wait, .activate, .enqueue false false, .produce 2 false]

theorem task_runner_keeps_tasks_cycles :
    ∃ s, execute (step twoThreads) (State.init twoThreads) tasksRun = some s ∧ s.started = [0] ∧
      s.dropped = [1] ∧ s.tasks = [2] ∧ s.KeepsTasks twoThreads :=
  ⟨_, rfl, rfl, rfl, rfl, @task_runner_keeps_tasks twoThreads _ tasksRun rfl rfl⟩

/-- 初めの仕事を取った糸より先に、次の仕事を取った糸が仕事を始める列。 -/
def raceRun : List Action :=
  [.activate, .work 0, .work 0, .work 0, .work 1, .work 1, .work 1, .enqueue false false,
    .produce 0 false, .produce 0 false,
    .enqueue false false, .produce 1 false, .produce 1 false, .work 0, .work 0, .work 1, .work 1, .work 1, .work 0]

/-- 仕事は、押し込まれた順に始まるとは限らない。 -/
theorem task_runner_start_race :
    ∃ s, execute (step twoThreads) (State.init twoThreads) raceRun = some s ∧ s.popped = [0, 1] ∧
      s.started = [1, 0] ∧ ¬ s.started.Sublist (List.range s.pushed) := by
  refine ⟨_, rfl, rfl, rfl, ?_⟩
  decide

end

end UnixCommons.Generics.TaskRunner
