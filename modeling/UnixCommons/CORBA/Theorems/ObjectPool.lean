import UnixCommons.CORBA.Lemmas.ObjectPoolLimits

/-!
# 物の集まりの定理

選ばれた接続が、調べる前に悪い物とされると、その呼び出しは、数を戻さずに終わる。
-/

namespace UnixCommons.CORBA.ObjectPool

open Lib

variable {ω ε : Type} {cfg : Settings ω ε} {counts : List Int} {actions : List (Action ε)}
    {s : State ω} {key rand : Nat} {now : Int}

/-! ## 選び方の終わり -/

theorem get_object_returns [DecidableEq ω] (h : s.aborted = false) : ∃ t, step cfg s
    (.get key rand now : Action ε) = some t := by
  simp only [step, h, Bool.false_eq_true, if_false]
  cases hr : (review cfg now s.objects).2 with
  | error e => exact ⟨_, rfl⟩
  | ok u =>
      have hany := review_ok_any hr
      cases hv : getValidObject cfg.policy (review cfg now s.objects).1 s.lastObject key rand with
      | error e => exact ⟨_, rfl⟩
      | ok chosen =>
          obtain ⟨k, last, conn, rfl, hk⟩ := getValidObject_isSome hany hv
          simp only [hk]
          exact ⟨_, rfl⟩

/-! ## 使う数 -/

/-- どの接続の `useCount` も、使われている参照と、その接続を選んで放していない途中の呼び出しの数である。 -/
structure State.Exact (s : State ω) : Prop where
  counted : ∀ (k : Nat) (conn : ConnData ω), s.objects[k]? = some conn → conn.useCount = s.calls.countP (Point.holds k)
  idle : (∀ p ∈ s.calls, p.done = true) → ∀ conn ∈ s.objects, conn.useCount = 0
  running : s.aborted = false

theorem State.Counted.exact (hc : s.Counted cfg) (hf : s.Fresh) : s.Exact := by
  have hcounted : ∀ (k : Nat) (conn : ConnData ω), s.objects[k]? = some conn → conn.useCount =
      s.calls.countP (Point.holds k) := by
    intro k conn hconn
    have hleaks : s.calls.countP (Point.leaks k) = 0 := by
      apply List.countP_eq_zero.mpr
      intro p hp
      simp [hf.clean p hp k]
    rw [hc.counted k conn hconn, charges, hleaks, Nat.add_zero]
  refine ⟨hcounted, ?_, hf.running⟩
  intro hdone conn hconn
  obtain ⟨k, hk⟩ := List.mem_iff_getElem?.mp hconn
  have hholds : s.calls.countP (Point.holds k) = 0 := by
    apply List.countP_eq_zero.mpr
    intro p hp
    simp [holds_of_done (hdone p hp)]
  rw [hcounted k conn hk, hholds]
  rfl

variable [DecidableEq ω]

/-- 数の失われる歩みのない列の、どの状態でも、数は正しい。 -/
theorem use_count_exact (hd : cfg.Distinct)
    (hok : Along (step cfg) (fun s action => lost cfg s action = false) (State.init counts) actions)
    (hrun : execute (step cfg) (State.init counts) actions = some s) : s.Exact := by
  have hc : s.Counted cfg := execute_always (fun _ _ _ hs h => hs.step hd h) (.init cfg counts) hrun
  have hf : s.Fresh := execute_invariant (fun _ _ _ hs hok h => hs.step hok h) (.init counts) hok hrun
  exact hc.exact hf

def plainSettings (policy : ChoosePolicyType) : Settings (Nat × Nat) Nat :=
  { timeout := 10, objectOnce := true, allBadNoWait := false, reresolve := true, policy,
    resolver := fun k input => .ok (some (k, input)) }

theorem plainSettings_distinct (policy : ChoosePolicyType) : (plainSettings policy).Distinct := by
  rintro k k' object ⟨input, h⟩ ⟨input', h'⟩
  cases h
  cases h'
  rfl

/-- 二つの接続を選び、一つを悪い物として放し、戻された後に、また選ぶ列。 -/
def reviveRun : List (Action Nat) :=
  [.get 0 0 0, .examine 0 5, .get 0 0 0, .examine 1 7, .releaseBad 0 1 "lost", .get 0 0 20,
    .get 0 0 20, .examine 2 7, .examine 3 5, .release 1]

theorem use_count_exact_revive :
    ∃ s, execute (step (plainSettings .loop)) (State.init [0, 0]) reviveRun = some s ∧ s.objects.map
      (·.useCount) = [1, 1] ∧ s.Exact := by
  have hok : Along (step (plainSettings .loop)) (fun s action => lost (plainSettings .loop) s
      action = false) (State.init [0, 0]) reviveRun := by
    decide
  exact ⟨_, rfl, by decide, use_count_exact (plainSettings_distinct .loop) hok rfl⟩

/-- 二つの呼び出しが選んだ接続が、一つ目の参照とともに悪い物とされてから、二つ目が調べる列。 -/
def leakRun : List (Action Nat) := [.get 0 0 0, .get 0 0 0, .examine 0 5, .releaseBad 0 1 "lost", .examine 1 5, .report 1]

/-- 呼び出しも参照もないのに、数は零でない。 -/
theorem use_count_leaked :
    ∃ s, execute (step (plainSettings .loop)) (State.init [2]) leakRun = some s ∧
      (∀ p ∈ s.calls, p.done = true) ∧ ¬ s.Exact := by
  refine ⟨_, rfl, by decide, fun h => ?_⟩
  have hzero := h.idle (by decide) _ List.mem_cons_self
  exact absurd hzero (by decide)

/-- 使われている参照の接続が、別の物に解き直され、その参照が放される列。 -/
def replacedRun : List (Action Nat) :=
  [.get 0 0 0, .examine 0 5, .get 0 0 0, .examine 1 5, .releaseBad 1 1 "lost", .get 0 0 20, .examine 2 7, .release 0]

example : (execute (step (plainSettings .loop)) (State.init [0]) replacedRun).map (·.aborted) = some true := by decide

/-! ## 上限と試し -/

/-- `PT_PRECISE` の他の選び方では、使われている参照は、どの列でも上限を超えない。試しに他の参照の混ざらない列では、戻された後に渡された参照は、
その一つがよい物として放されるまで、多くて一つである。 -/
theorem object_pool_limits (hd : cfg.Distinct) (hp : cfg.policy ≠ .precise)
    (hrun : execute (step cfg) (State.init counts) actions = some s) :
    (∀ (k : Nat) (conn : ConnData ω), s.objects[k]? = some conn → 0 < conn.useMax →
    (s.calls.countP (Point.live k) : Int) ≤ conn.useMax) ∧
      (cfg.objectOnce = true → Along (step cfg) (fun s action => overtaken cfg s action = false)
      (State.init counts) actions →
        ∀ (k : Nat) (conn : ConnData ω), s.objects[k]? = some conn → ∀ n, conn.proved < n → n ≤ conn.epoch →
          s.calls.countP (Point.since k n) ≤ 1) := by
  have hc : s.Counted cfg := execute_always (fun _ _ _ hs h => hs.step hd h) (.init cfg counts) hrun
  have hl : s.Limited := execute_always (fun _ _ _ hs h => hs.step hp h) (.init counts) hrun
  constructor
  · intro k conn hconn hpos
    have hlive : s.calls.countP (Point.live k) ≤ s.calls.countP (Point.holds k) := by
      apply List.countP_mono_left
      intro p _ hlive
      cases p with
      | handling k' object epoch => exact hlive
      | _ => cases hlive
    have hcount := hc.counted k conn hconn
    have hlimit := hl k conn hconn hpos
    simp only [charges] at hcount
    omega
  · intro honce hok k conn hconn n hproved hn
    have hprobed : s.Probed ∧ s.Counted cfg :=
      execute_invariant (I := fun s => s.Probed ∧ s.Counted cfg)
        (fun _ _ _ hs hok h => ⟨hs.1.step hs.2 hd honce hp hok h, hs.2.step hd h⟩) ⟨.init counts, .init cfg counts⟩ hok hrun
    exact (hprobed.1 k conn hconn).once hproved hn

/-- 上限が一つの接続が、悪い物として放され、戻され、また渡される列。 -/
def limitRun : List (Action Nat) := [.get 0 0 0, .examine 0 5, .releaseBad 0 1 "lost", .get 0 0 20, .examine 1 7]

theorem object_pool_limits_revive :
    ∃ s, execute (step (plainSettings .loop)) (State.init [1]) limitRun = some s ∧
      (s.calls.countP (Point.live 0) : Int) ≤ 1 ∧
      ∃ conn, s.objects[0]? = some conn ∧ conn.epoch = 1 ∧ s.calls.countP (Point.since 0 1) ≤ 1 := by
  have hlimits := object_pool_limits (plainSettings_distinct .loop) (by decide)
    (rfl : execute (step (plainSettings .loop)) (State.init [1]) limitRun = some _)
  refine ⟨_, rfl, hlimits.1 0 _ rfl (by decide), _, rfl, by decide, ?_⟩
  exact hlimits.2 rfl (by decide) 0 _ rfl 1 (by decide) (by decide)

/-- 悪い物とされる前に渡された参照が、試しの間によい物として放され、二つ目が渡される列。 -/
def twiceRun : List (Action Nat) :=
  [.get 0 0 0, .examine 0 5, .get 0 0 0, .examine 1 5, .releaseBad 1 1 "lost", .get 0 0 20,
    .examine 2 5, .release 0, .get 0 0 20, .examine 3 5]

theorem object_once_twice :
    ∃ s, execute (step (plainSettings .loop)) (State.init [0]) twiceRun = some s ∧ (plainSettings .loop).objectOnce = true ∧
      ∃ conn, s.objects[0]? = some conn ∧ conn.proved < 1 ∧ 1 ≤ conn.epoch ∧ s.calls.countP (Point.since 0 1) = 2 := by
  exact ⟨_, rfl, rfl, _, rfl, by decide, by decide, by decide⟩

/-! ## 選べる接続 -/

/-- 接続を選ぶ歩みは終わり、選べる接続を選ぶか、選べる接続がないので `NoFreeObject` か `NoGoodReference` を投げる。 -/
def State.Serves (cfg : Settings ω ε) (key rand : Nat) (now : Int) (s : State ω) : Prop :=
  ∃ t, step cfg s (.get key rand now : Action ε) = some t ∧
    ((∃ k epoch conn, t.calls = s.calls ++ [.selected k epoch] ∧ s.objects[k]? = some conn ∧
    conn.available cfg now s.objects = true) ∨
      ∃ e, t.calls = s.calls ++ [.threw e] ∧ (e = .noFreeObject ∨ ∃ statuses, e = .noGoodReference statuses) ∧
        ∀ conn ∈ s.objects, conn.available cfg now s.objects = false)

/-- どの達する状態でも、選べる接続があれば選ぶのは、`ALL_BAD_NO_WAIT_` の見落とす状態を除く時だけである。 -/
theorem get_object_serves_iff (hp : cfg.policy ≠ .precise) (hrun : execute (step cfg) (State.init counts) actions = some s)
    (hrunning : s.aborted = false) : s.Serves cfg key rand now ↔ s.overlooks cfg now = false := by
  have honce : cfg.objectOnce = false → ∀ conn ∈ s.objects, conn.giveOnce = .others := fun ho => giveOnce_of_run ho hrun
  cases hr : (review cfg now s.objects).2 with
  | ok u =>
      have hserves : s.Serves cfg key rand now := by
        obtain ⟨t, k, epoch, conn', ht, hcalls, hk, hs⟩ := @step_get_ok _ _ _ _ key rand _ _ hrunning hp hr
        obtain ⟨conn, hconn, havailable⟩ := available_of_review honce hk hs
        exact ⟨t, ht, .inl ⟨k, epoch, conn, hcalls, hconn, havailable⟩⟩
      refine iff_of_true hserves (Bool.not_eq_true _ ▸ fun hover => ?_)
      cases hr.symm.trans (overlooks_review hover).1
  | error e =>
      obtain ⟨hkind, hover⟩ := review_error honce hr
      have ht := @step_get_error _ _ _ _ key rand _ _ _ hrunning hr
      constructor
      · rintro ⟨t, ht', ⟨k, epoch, conn, hcalls, -⟩ | ⟨e', -, -, hnone⟩⟩
        · obtain rfl := Option.some.inj (ht.symm.trans ht')
          cases (List.append_cancel_left hcalls)
        · refine Bool.not_eq_true _ ▸ fun hbad => ?_
          obtain ⟨conn, hconn, havailable⟩ := (overlooks_review hbad).2
          cases (hnone conn hconn).symm.trans havailable
      · intro hfine
        refine ⟨_, ht, .inr ⟨e, rfl, hkind, fun conn hconn => Bool.not_eq_true _ ▸ fun havailable => ?_⟩⟩
        cases hfine.symm.trans (hover conn hconn havailable)

/-- 二つ目の接続を悪い物として放し、時が来る列。 -/
def busyRun : List (Action Nat) := [.get 0 0 0, .examine 0 5, .get 0 0 0, .examine 1 5, .releaseBad 0 1 "lost"]

theorem get_object_serves_waiting :
    ∃ s, execute (step (plainSettings .loop)) (State.init [1, 1]) busyRun = some s ∧ s.Serves
      (plainSettings .loop) 0 0 20 := by
  refine ⟨_, rfl, ?_⟩
  exact (@get_object_serves_iff _ _ (plainSettings .loop) [1, 1] busyRun _ _ _ _ _ (by decide) rfl rfl).mpr (by decide)

/-- 待たない設定では、時の来た接続があるのに、`NoFreeObject` を投げる。 -/
theorem get_object_overlooks_due :
    ∃ s t conn, execute (step { plainSettings .loop with allBadNoWait := true })
      (State.init [1, 1]) busyRun = some s ∧ step { plainSettings .loop with allBadNoWait := true }
      s (.get 0 0 20) = some t ∧ t.calls = s.calls ++ [.threw .noFreeObject] ∧
      s.objects[1]? = some conn ∧ conn.available { plainSettings .loop with allBadNoWait := true } 20 s.objects = true ∧
      ¬ s.Serves { plainSettings .loop with allBadNoWait := true } 0 0 20 := by
  refine ⟨_, _, _, rfl, rfl, rfl, rfl, by decide, ?_⟩
  rintro ⟨t, ht, ⟨k, epoch, conn, hcalls, -⟩ | ⟨e, -, -, hnone⟩⟩
  · obtain rfl := Option.some.inj ht
    cases hcalls
  · exact absurd (hnone _ (List.mem_cons_of_mem _ List.mem_cons_self)) (by decide)

end UnixCommons.CORBA.ObjectPool
