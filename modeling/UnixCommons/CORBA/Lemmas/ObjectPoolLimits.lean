import UnixCommons.CORBA.Lemmas.ObjectPool

/-!
# 物の集まりの上限の補題

使う数の上限と、戻された接続の試しとを、一つの接続の条件として述べ、どの歩みも保つことを示す。
-/

namespace UnixCommons.CORBA.ObjectPool

open Lib

variable {ω ε : Type} {cfg : Settings ω ε} {conn conn' : ConnData ω} {objects : List (ConnData ω)} {s t : State ω}
variable {i j k key rand given : Nat} {now : Int} {input : ε} {object : ω} {p q : Point ω}

/-! ## 使う数の上限 -/

def State.Limited (s : State ω) : Prop :=
  ∀ (k : Nat) (conn : ConnData ω), s.objects[k]? = some conn → 0 < conn.useMax → conn.useCount ≤ conn.useMax

theorem State.Limited.init (counts : List Int) : (State.init counts : State ω).Limited := by
  intro k conn h hpos
  rw [State.init, List.getElem?_map] at h
  obtain ⟨useMax, -, rfl⟩ := Option.map_eq_some_iff.mp h
  exact Int.le_of_lt hpos

theorem mem_modify {f : ConnData ω → ConnData ω} (h : conn' ∈ objects.modify j f) :
    (∃ conn, objects[j]? = some conn ∧ conn' = f conn) ∨ conn' ∈ objects := by
  obtain ⟨k, hk⟩ := List.mem_iff_getElem?.mp h
  obtain ⟨conn, hconn, ⟨rfl, rfl⟩ | ⟨-, rfl⟩⟩ := modify_cases hk
  · exact .inl ⟨conn, hconn, rfl⟩
  · exact .inr (List.mem_of_getElem? hconn)

structure Kept (cfg : Settings ω ε) (P : ConnData ω → Prop) : Prop where
  checkBad : ∀ force now conn, P conn → P (conn.checkBad cfg force now)
  select : ∀ conn, P conn → (cfg.policy ≠ .precise → conn.softSuitable = true) → P conn.select
  takeObject : ∀ k input conn, P conn → P (conn.takeObject cfg k input).1
  releaseGood : ∀ given conn, P conn → P (conn.releaseGood given)
  releaseBad : ∀ now dsc conn, P conn → P (conn.releaseBad now dsc)

theorem Kept.modify {P : ConnData ω → Prop} {f : ConnData ω → ConnData ω} (h : ∀ conn ∈ objects, P conn)
    (hf : ∀ conn, objects[j]? = some conn → P (f conn)) : ∀ conn ∈ objects.modify j f, P conn := by
  intro conn' hconn'
  rcases mem_modify hconn' with ⟨conn, hconn, rfl⟩ | hconn
  · exact hf conn hconn
  · exact h conn' hconn

theorem kept_limited (hp : cfg.policy ≠ .precise) : Kept cfg fun conn => 0 < conn.useMax → conn.useCount ≤ conn.useMax where
  checkBad force now conn h := by
    rw [checkBad_useMax, checkBad_useCount]
    exact h
  select conn _ hsuit hpos := (softSuitable_iff.mp (hsuit hp)).2.1 (Int.ne_of_gt hpos)
  takeObject k input conn h := by
    rw [takeObject_frame.1, takeObject_frame.2.1]
    exact h
  releaseGood given conn h hpos := Int.le_trans (Int.sub_le_self _ (by decide)) (h hpos)
  releaseBad now dsc conn h hpos := Int.le_trans (Int.sub_le_self _ (by decide)) (h hpos)

theorem State.limited_iff : s.Limited ↔ ∀ conn ∈ s.objects, 0 < conn.useMax → conn.useCount ≤ conn.useMax :=
  ⟨fun h conn hconn => (List.mem_iff_getElem?.mp hconn).elim fun k hk => h k conn hk,
    fun h _ conn hk => h conn (List.mem_of_getElem? hk)⟩

/-! ## 試し -/

structure ConnData.Probed (conn : ConnData ω) (k : Nat) (calls : List (Point ω)) : Prop where
  order : conn.proved ≤ conn.epoch
  stamped : ∀ p ∈ calls, ∀ n, p.probes k n = true → n < conn.epoch
  recent : ∀ p ∈ calls, p.probes k conn.proved = true → ∀ n < conn.epoch, p.probes k n = true
  window : conn.proved < conn.epoch →
    conn.giveOnce ≠ .others ∧ calls.countP (Point.probes k conn.proved) ≤ if conn.giveOnce = .first then 1 else 0

theorem ConnData.Probed.congr {calls : List (Point ω)} (h : conn.Probed k calls) (he : conn'.epoch = conn.epoch)
    (hp : conn'.proved = conn.proved) (hg : conn'.giveOnce = conn.giveOnce) : conn'.Probed k calls := by
  constructor
  · rw [he, hp]
    exact h.order
  · rw [he]
    exact h.stamped
  · rw [he, hp]
    exact h.recent
  · rw [he, hp, hg]
    exact h.window

theorem ConnData.Probed.append {calls : List (Point ω)} (h : conn.Probed k calls)
    (hq : ∀ n, q.probes k n = false) : conn.Probed k (calls ++ [q]) := by
  refine ⟨h.order, ?_, ?_, ?_⟩
  · intro p hp n hn
    rcases List.mem_append.mp hp with hp | hp
    · exact h.stamped p hp n hn
    · rw [List.mem_singleton.mp hp, hq n] at hn
      cases hn
  · intro p hp hprobe
    rcases List.mem_append.mp hp with hp | hp
    · exact h.recent p hp hprobe
    · rw [List.mem_singleton.mp hp, hq conn.proved] at hprobe
      cases hprobe
  · intro hopen
    simpa [hq] using h.window hopen

theorem ConnData.Probed.set (h : conn.Probed k s.calls) (hi : s.calls[i]? = some p)
    (hq : (∀ n, q.probes k n = false) ∨ ∀ n, q.probes k n = p.probes k n) : conn.Probed k (s.calls.set i q) := by
  have hmem : p ∈ s.calls := List.mem_of_getElem? hi
  refine ⟨h.order, ?_, ?_, ?_⟩
  · intro r hr n hn
    rcases List.mem_or_eq_of_mem_set hr with hr | rfl
    · exact h.stamped r hr n hn
    · rcases hq with hq | hq
      · simp [hq n] at hn
      · exact h.stamped p hmem n (hq n ▸ hn)
  · intro r hr hprobe n hn
    rcases List.mem_or_eq_of_mem_set hr with hr | rfl
    · exact h.recent r hr hprobe n hn
    · rcases hq with hq | hq
      · simp [hq conn.proved] at hprobe
      · rw [hq n]
        exact h.recent p hmem (hq conn.proved ▸ hprobe) n hn
  · intro hopen
    obtain ⟨hg, hcount⟩ := h.window hopen
    refine ⟨hg, Nat.le_trans ?_ hcount⟩
    have hset := @countP_set_of_getElem? (Point ω) s.calls i p q (Point.probes k conn.proved) hi
    rcases hq with hq | hq
    · simp only [hq conn.proved, Bool.false_eq_true, if_false] at hset
      omega
    · rw [hq conn.proved] at hset
      omega

theorem ConnData.Probed.revive {calls : List (Point ω)} (h : conn.Probed k calls)
    (hnone : ∀ p ∈ calls, p.probes k conn.proved = false)
    (he : conn'.epoch = conn.epoch + 1) (hp : conn'.proved = conn.proved)
    (hg : conn'.giveOnce = .notGiven) : conn'.Probed k calls := by
  constructor
  · rw [he, hp]
    exact Nat.le_succ_of_le h.order
  · intro p hp' n hn
    rw [he]
    exact Nat.lt_succ_of_lt (h.stamped p hp' n hn)
  · intro p hp' hprobe
    rw [hp, hnone p hp'] at hprobe
    cases hprobe
  · intro _
    have hzero : calls.countP (Point.probes k conn.proved) = 0 := by
      apply List.countP_eq_zero.mpr
      intro p hp'
      simp [hnone p hp']
    simp [hg, hp, hzero]

theorem ConnData.Probed.select {calls : List (Point ω)} (h : conn.Probed k calls)
    (hs : conn.softSuitable = true) : conn.select.Probed k (calls ++ [.selected k conn.epoch]) := by
  have hfirst : conn.giveOnce ≠ .first := (softSuitable_iff.mp hs).2.2
  refine ⟨h.order, ?_, ?_, ?_⟩
  · intro p hp n hn
    rcases List.mem_append.mp hp with hp | hp
    · exact h.stamped p hp n hn
    · cases List.mem_singleton.mp hp
      simpa [Point.probes, ConnData.select] using hn
  · intro p hp hprobe n hn
    rcases List.mem_append.mp hp with hp | hp
    · exact h.recent p hp hprobe n hn
    · cases List.mem_singleton.mp hp
      simpa [Point.probes, ConnData.select] using hn
  · intro hopen
    obtain ⟨hg, hcount⟩ := h.window hopen
    rw [if_neg hfirst] at hcount
    have hnot : conn.giveOnce = .notGiven := by
      cases hgo : conn.giveOnce with
      | notGiven => rfl
      | first => exact absurd hgo hfirst
      | others => exact absurd hgo hg
    simp only [ConnData.select, hnot, if_true, List.countP_append, List.countP_singleton]
    refine ⟨by simp, ?_⟩
    split_ifs <;> omega

theorem ConnData.Probed.give {epoch : Nat} (h : conn.Probed k s.calls) (hi : s.calls[i]? = some (.selected k epoch))
    (hok : conn.proved < conn.epoch → conn.epoch ≤ epoch) : conn.Probed k
    (s.calls.set i (.handling k object conn.epoch)) := by
  by_cases hopen : conn.proved < conn.epoch
  · apply h.set hi
    right
    intro n
    have hle : ∀ n, n < epoch → n < conn.epoch := by
      intro n hn
      exact h.stamped _ (List.mem_of_getElem? hi) n (by simpa [Point.probes] using hn)
    have hlt : n < epoch ↔ n < conn.epoch := ⟨hle n, fun hn => Nat.lt_of_lt_of_le hn (hok hopen)⟩
    simp [Point.probes, hlt]
  · refine ⟨h.order, ?_, ?_, fun hlt => absurd hlt hopen⟩
    · intro p hp n hn
      rcases List.mem_or_eq_of_mem_set hp with hp | rfl
      · exact h.stamped p hp n hn
      · simpa [Point.probes] using hn
    · intro p hp hprobe n hn
      rcases List.mem_or_eq_of_mem_set hp with hp | rfl
      · exact h.recent p hp hprobe n hn
      · simpa [Point.probes] using hn

theorem ConnData.Probed.releaseGood (h : conn.Probed k s.calls) (hi : s.calls[i]? = some (.handling k object given))
    (hok : conn.proved < conn.epoch → conn.proved < given) : (conn.releaseGood given).Probed k
    (s.calls.set i .released) := by
  have hmem : .handling k object given ∈ s.calls := List.mem_of_getElem? hi
  have hle : given ≤ conn.epoch := by
    cases given with
    | zero => exact Nat.zero_le _
    | succ n => exact h.stamped _ hmem n (by simp [Point.probes])
  have hclosed : conn.epoch ≤ max conn.proved given := by
    by_cases hopen : conn.proved < conn.epoch
    · have hprobe : (Point.handling k object given).probes k conn.proved = true := by
        simpa [Point.probes] using hok hopen
      have hrecent := h.recent _ hmem hprobe (conn.epoch - 1) (by omega)
      simp only [Point.probes, beq_self_eq_true, Bool.true_and, decide_eq_true_eq] at hrecent
      omega
    · omega
  have hset : conn.Probed k (s.calls.set i .released) := h.set hi (.inl fun n => rfl)
  refine ⟨Nat.max_le.mpr ⟨h.order, hle⟩, hset.stamped, ?_, ?_⟩
  · intro p hp hprobe n hn
    have hlt := hset.stamped p hp _ hprobe
    simp only [ConnData.releaseGood] at hlt
    omega
  · intro hopen
    simp only [ConnData.releaseGood] at hopen
    omega

theorem ConnData.Probed.once {calls : List (Point ω)} {n : Nat} (h : conn.Probed k calls)
    (hproved : conn.proved < n) (hn : n ≤ conn.epoch) : calls.countP (Point.since k n) ≤ 1 := by
  have hle : calls.countP (Point.since k n) ≤ calls.countP (Point.probes k conn.proved) := by
    apply List.countP_mono_left
    intro p _ hp
    cases p with
    | handling k' object epoch =>
        simp only [Point.since, Bool.and_eq_true, decide_eq_true_eq] at hp
        simp only [Point.probes, Bool.and_eq_true, decide_eq_true_eq]
        exact ⟨hp.1, by omega⟩
    | selected k' epoch => cases hp
    | failed k' dsc => cases hp
    | undone k' => cases hp
    | refused k' => cases hp
    | rejected k' status => cases hp
    | released => cases hp
    | threw e => cases hp
  have hcount := (h.window (by omega)).2
  split_ifs at hcount <;> omega

def State.Probed (s : State ω) : Prop := ∀ (k : Nat) (conn : ConnData ω), s.objects[k]? = some conn → conn.Probed k s.calls

theorem State.Probed.init (counts : List Int) : (State.init counts : State ω).Probed := by
  intro k conn h
  rw [State.init, List.getElem?_map] at h
  obtain ⟨useMax, -, rfl⟩ := Option.map_eq_some_iff.mp h
  exact ⟨Nat.le_refl _, by simp [State.init], by simp [State.init], by simp [ConnData.new]⟩

theorem State.Probed.review (hs : s.Probed) (honce : cfg.objectOnce = true)
    (hok : overtaken cfg s (.get key rand now : Action ε) = false)
    (hk : (ObjectPool.review cfg now s.objects).1[k]? = some conn') : conn'.Probed k s.calls := by
  obtain ⟨conn, hconn, rfl | ⟨force, rfl, hforce⟩⟩ := review_getElem? hk
  · exact hs k conn' hconn
  · have hold := hs k conn hconn
    rcases @checkBad_epoch ω ε cfg conn now force with ⟨he, hg⟩ | ⟨hbad, hdue, he, hg⟩
    · exact hold.congr he checkBad_proved hg
    · have hdue : conn.due cfg now s.objects = true := by
        simp only [ConnData.due, hbad, Bool.true_and, Bool.or_eq_true, Bool.and_eq_true, decide_eq_true_eq]
        exact hdue.imp hforce id
      have hlt : k < s.objects.length := (List.getElem?_eq_some_iff.mp hconn).1
      have hnone : ∀ p ∈ s.calls, p.probes k conn.proved = false := by
        simp only [overtaken, List.any_eq_false, List.mem_range] at hok
        have hk := hok k hlt
        simp only [hconn, Option.any_some, hdue, Bool.true_and, Bool.not_eq_true, List.any_eq_false] at hk
        exact hk
      rw [honce] at hg
      exact hold.revive hnone he checkBad_proved hg

theorem resolved_of_takeObject (h : (conn.takeObject cfg k input).2 = .ok object) :
    (conn.object.isSome && !(cfg.reresolve && conn.resolve) || (cfg.resolved k input).isSome) = true := by
  have hobject := takeObject_ok h
  rcases @takeObject_object ω ε cfg conn k input with ⟨hsame, hre⟩ | ⟨hnew, -⟩
  · rw [hsame] at hobject
    simp [hobject, hre]
  · rw [hnew] at hobject
    simp [hobject]

theorem State.Probed.change (hs : s.Probed) (hi : s.calls[i]? = some p)
    (hq : ∀ k n, q.probes k n = false) (hc : t.calls = s.calls.set i q)
    (hobject : ∀ (k : Nat) (conn' : ConnData ω), t.objects[k]? = some conn' →
      ∃ conn, s.objects[k]? = some conn ∧ conn'.epoch = conn.epoch ∧ conn'.proved = conn.proved ∧
      conn'.giveOnce = conn.giveOnce) : t.Probed := by
  intro k conn' hconn'
  obtain ⟨conn, hconn, he, hp, hg⟩ := hobject k conn' hconn'
  rw [hc]
  exact ((hs k conn hconn).set hi (.inl (hq k))).congr he hp hg

theorem modify_record {f : ConnData ω → ConnData ω}
    (hf : ∀ conn, objects[j]? = some conn → (f conn).epoch = conn.epoch ∧
    (f conn).proved = conn.proved ∧ (f conn).giveOnce = conn.giveOnce)
    (h : (objects.modify j f)[k]? = some conn') :
    ∃ conn, objects[k]? = some conn ∧ conn'.epoch = conn.epoch ∧ conn'.proved = conn.proved ∧
      conn'.giveOnce = conn.giveOnce := by
  obtain ⟨conn, hconn, ⟨rfl, rfl⟩ | ⟨-, rfl⟩⟩ := modify_cases h
  · exact ⟨conn, hconn, hf conn hconn⟩
  · exact ⟨conn', hconn, rfl, rfl, rfl⟩

section LimitStep

variable [DecidableEq ω]

theorem releaseObject_objects {f : ConnData ω → ConnData ω} :
    (s.releaseObject i object f).objects = s.objects ∨ ∃ j, (s.releaseObject i object f).objects = s.objects.modify j f := by
  simp only [State.releaseObject]
  split
  · exact .inr ⟨_, rfl⟩
  · exact .inl rfl

theorem Kept.step {P : ConnData ω → Prop} {action : Action ε} (hP : Kept cfg P) (hs : ∀ conn ∈ s.objects, P conn)
    (h : ObjectPool.step cfg s action = some t) : ∀ conn ∈ t.objects, P conn := by
  have hrelease : ∀ (i : Nat) (object : ω) (f : ConnData ω → ConnData ω),
      (∀ conn, P conn → P (f conn)) → ∀ conn ∈ (s.releaseObject i object f).objects, P conn := by
    intro i object f hf
    rcases @releaseObject_objects ω s i object _ f with heq | ⟨j, heq⟩
    · rw [heq]
      exact hs
    · rw [heq]
      exact Kept.modify hs fun conn hconn => hf conn (hs conn (List.mem_of_getElem? hconn))
  cases action with
  | get key rand now =>
      have hreview : ∀ conn ∈ (review cfg now s.objects).1, P conn := by
        intro conn' hconn'
        obtain ⟨k, hk⟩ := List.mem_iff_getElem?.mp hconn'
        obtain ⟨conn, hconn, rfl | ⟨force, rfl, -⟩⟩ := review_getElem? hk
        · exact hs conn' (List.mem_of_getElem? hconn)
        · exact hP.checkBad force now conn (hs conn (List.mem_of_getElem? hconn))
      rcases step_get h with ⟨e, rfl⟩ | ⟨k, last, conn, hk, hsuit, rfl⟩
      · exact hreview
      · refine Kept.modify hreview fun conn' hconn' => ?_
        obtain rfl := Option.some.inj (hk.symm.trans hconn')
        exact hP.select conn (hreview conn (List.mem_of_getElem? hk)) hsuit
  | examine i input =>
      obtain ⟨k, epoch, conn, -, hk, hcases⟩ := step_examine h
      have htake : ∀ conn' ∈ s.objects.modify k fun _ => (conn.takeObject cfg k input).1, P conn' :=
        Kept.modify hs fun _ _ => hP.takeObject k input conn (hs conn (List.mem_of_getElem? hk))
      rcases hcases with ⟨-, rfl⟩ | ⟨-, ⟨object, -, rfl⟩ | ⟨dsc, rfl⟩⟩
      · exact hs
      · exact htake
      · exact htake
  | undo i now =>
      obtain ⟨k, dsc, -, rfl⟩ := step_undo h
      exact Kept.modify hs fun conn hconn => hP.releaseBad now dsc conn (hs conn (List.mem_of_getElem? hconn))
  | report i =>
      obtain ⟨k, status, ⟨-, rfl⟩ | ⟨-, rfl⟩⟩ := step_report h
      · exact hs
      · exact hs
  | release i =>
      obtain ⟨k, object, given, -, rfl⟩ := step_release h
      exact hrelease i object (·.releaseGood given) (hP.releaseGood given)
  | releaseBad i now dsc =>
      obtain ⟨k, object, given, dsc', -, rfl⟩ := step_releaseBad h
      exact hrelease i object (·.releaseBad now dsc') (hP.releaseBad now dsc')

theorem State.Limited.step {action : Action ε} (hs : s.Limited) (hp : cfg.policy ≠ .precise)
    (h : ObjectPool.step cfg s action = some t) : t.Limited :=
  State.limited_iff.mpr ((kept_limited hp).step (State.limited_iff.mp hs) h)

theorem releaseObject_cases {f : ConnData ω → ConnData ω} {epoch : Nat} (hc : s.Counted cfg)
    (hd : cfg.Distinct) (hi : s.calls[i]? = some (.handling k object epoch)) :
    s.releaseObject i object f = { s with aborted := true } ∨
      s.releaseObject i object f = (s.update k f).at i .released := by
  cases hget : getConndata s.objects object with
  | none => exact .inl (by simp [State.releaseObject, hget])
  | some j =>
      obtain rfl := hc.getConndata_eq hd hi hget
      exact .inr (by simp [State.releaseObject, hget])

theorem State.Probed.step {action : Action ε} (hs : s.Probed) (hc : s.Counted cfg)
    (hd : cfg.Distinct) (honce : cfg.objectOnce = true)
    (hp : cfg.policy ≠ .precise) (hok : overtaken cfg s action = false)
    (h : ObjectPool.step cfg s action = some t) : t.Probed := by
  have hsame : ∀ (k : Nat) (conn' : ConnData ω), s.objects[k]? = some conn' →
      ∃ conn, s.objects[k]? = some conn ∧ conn'.epoch = conn.epoch ∧ conn'.proved = conn.proved ∧
      conn'.giveOnce = conn.giveOnce :=
    fun k conn' h => ⟨conn', h, rfl, rfl, rfl⟩
  cases action with
  | get key rand now =>
      rcases step_get h with ⟨e, rfl⟩ | ⟨k, last, conn, hk, hsuit, rfl⟩
      · intro k conn' hk
        exact (hs.review honce hok hk).append fun _ => rfl
      · intro k' conn' hk'
        obtain ⟨conn₁, hconn₁, ⟨rfl, rfl⟩ | ⟨hkk, rfl⟩⟩ := modify_cases hk'
        · rw [hk] at hconn₁
          cases hconn₁
          exact (hs.review honce hok hk).select (hsuit hp)
        · apply (hs.review honce hok hconn₁).append
          intro n
          simp [Point.probes, Ne.symm hkk]
  | examine i input =>
      obtain ⟨k, epoch, conn, hi, hk, hcases⟩ := step_examine h
      have htake : ∀ (k' : Nat) (conn' : ConnData ω),
          (s.objects.modify k fun _ => (conn.takeObject cfg k input).1)[k']? = some conn' →
          ∃ conn, s.objects[k']? = some conn ∧ conn'.epoch = conn.epoch ∧ conn'.proved =
          conn.proved ∧ conn'.giveOnce = conn.giveOnce := by
        intro k' conn' hk'
        apply modify_record _ hk'
        intro conn₀ hconn₀
        rw [hk] at hconn₀
        cases hconn₀
        obtain ⟨-, -, hg, he, hp⟩ := @takeObject_frame ω ε cfg conn k input
        exact ⟨he, hp, hg⟩
      rcases hcases with ⟨-, rfl⟩ | ⟨hbad, ⟨object, hobj, rfl⟩ | ⟨dsc, rfl⟩⟩
      · exact hs.change hi (fun _ _ => rfl) rfl hsame
      · intro k' conn' hconn'
        obtain ⟨conn₀, hconn₀, he, hp, hg⟩ := htake k' conn' hconn'
        refine ConnData.Probed.congr ?_ he hp hg
        by_cases hkk : k = k'
        · cases hkk
          rw [hk] at hconn₀
          cases hconn₀
          apply (hs k conn hk).give hi
          intro hopen
          simp only [overtaken, hi, hk, Option.any_some, hbad, Bool.not_false, Bool.true_and, decide_eq_true hopen,
            resolved_of_takeObject hobj, Bool.and_true, decide_eq_false_iff_not, Nat.not_lt] at hok
          exact hok
        · apply (hs k' conn₀ hconn₀).set hi
          left
          intro n
          simp [Point.probes, hkk]
      · exact hs.change hi (fun _ _ => rfl) rfl htake
  | undo i now =>
      obtain ⟨k, dsc, hi, rfl⟩ := step_undo h
      exact hs.change hi (fun _ _ => rfl) rfl fun k' conn' hk' =>
        modify_record (f := (·.releaseBad now dsc)) (fun _ _ => ⟨rfl, rfl, rfl⟩) hk'
  | report i =>
      obtain ⟨k, status, ⟨hi, rfl⟩ | ⟨hi, rfl⟩⟩ := step_report h
      · exact hs.change hi (fun _ _ => rfl) rfl hsame
      · exact hs.change hi (fun _ _ => rfl) rfl hsame
  | release i =>
      obtain ⟨k, object, given, hi, rfl⟩ := step_release h
      rcases releaseObject_cases (f := (·.releaseGood given)) hc hd hi with heq | heq
      · rw [heq]
        exact hs
      · rw [heq]
        intro k' conn' hk'
        obtain ⟨conn, hconn, ⟨rfl, rfl⟩ | ⟨hkk, rfl⟩⟩ := modify_cases hk'
        · apply (hs k' conn hconn).releaseGood hi
          intro hopen
          simp only [overtaken, hi, hconn, Option.any_some, decide_eq_true hopen, Bool.true_and,
            decide_eq_false_iff_not, Nat.not_le] at hok
          exact hok
        · exact (hs k' conn' hconn).set hi (.inl fun _ => rfl)
  | releaseBad i now dsc =>
      obtain ⟨k, object, given, dsc', hi, rfl⟩ := step_releaseBad h
      rcases releaseObject_cases (f := (·.releaseBad now dsc')) hc hd hi with heq | heq
      · rw [heq]
        exact hs
      · rw [heq]
        exact hs.change hi (fun _ _ => rfl) rfl fun k' conn' hk' =>
          modify_record (f := (·.releaseBad now dsc')) (fun _ _ => ⟨rfl, rfl, rfl⟩) hk'

end LimitStep

/-! ## 選べる接続 -/

theorem kept_giveOnce (h : cfg.objectOnce = false) : Kept cfg fun conn => conn.giveOnce = .others where
  checkBad force now conn hconn := by
    rcases @checkBad_epoch ω ε cfg conn now force with ⟨-, heq⟩ | ⟨-, -, -, heq⟩
    · rw [heq, hconn]
    · rw [heq, h, hconn]
      rfl
  select conn hconn _ := by
    rw [ConnData.select, hconn]
    rfl
  takeObject k input conn hconn := by
    rw [takeObject_frame.2.2.1]
    exact hconn
  releaseGood given conn hconn := rfl
  releaseBad now dsc conn hconn := hconn

theorem giveOnce_of_run [DecidableEq ω] {counts : List Int} {actions : List (Action ε)} (h : cfg.objectOnce = false)
    (hrun : execute (step cfg) (State.init counts) actions = some s) : ∀ conn ∈ s.objects, conn.giveOnce = .others := by
  refine execute_always (fun _ _ _ hs hstep => (kept_giveOnce h).step hs hstep) (fun conn hconn => ?_) hrun
  obtain ⟨useMax, -, rfl⟩ := List.mem_map.mp hconn
  rfl

theorem softSuitable_eq (conn : ConnData ω) :
    conn.softSuitable = (conn.roomy && (!conn.isBad && conn.giveOnce != .first)) := by
  have hlt : decide (conn.useMax ≤ conn.useCount) = !decide (conn.useCount < conn.useMax) := by
    rw [← decide_not, decide_eq_decide]
    exact Int.not_lt.symm
  rw [ConnData.softSuitable, ConnData.busy, ConnData.roomy, bne, hlt, bne]
  cases conn.isBad <;> cases conn.useMax == 0 <;> cases decide (conn.useCount < conn.useMax) <;>
    cases conn.giveOnce == .first <;> rfl

theorem checkBad_softSuitable_iff {force : Bool} (honce : cfg.objectOnce = false → conn.giveOnce = .others) :
    (conn.checkBad cfg force now).softSuitable = true ↔
      conn.softSuitable = true ∨
        conn.isBad = true ∧ (force = true ∨ conn.badMarkTime + cfg.timeout ≤ now) ∧ conn.roomy = true := by
  cases hbad : conn.isBad with
  | false =>
      have hsame : (conn.checkBad cfg force now).softSuitable = conn.softSuitable := by
        simp [ConnData.checkBad, hbad, ConnData.softSuitable, ConnData.busy]
      rw [hsame, or_iff_left fun h => absurd h.1 Bool.false_ne_true]
  | true =>
      have hnot : ¬ conn.softSuitable = true := fun h => absurd (hbad.symm.trans (softSuitable_iff.mp h).1) Bool.noConfusion
      rw [or_iff_right hnot]
      by_cases hdue : (force || decide (conn.badMarkTime + cfg.timeout ≤ now)) = true
      · have hgive : (if cfg.objectOnce then GiveOnce.notGiven else conn.giveOnce) ≠ .first := by
          cases ho : cfg.objectOnce with
          | true => exact GiveOnce.noConfusion
          | false =>
              rw [if_neg Bool.false_ne_true, honce ho]
              exact GiveOnce.noConfusion
        have hsoft : (conn.checkBad cfg force now).softSuitable = conn.roomy := by
          rw [softSuitable_eq, ConnData.checkBad, if_pos hbad, if_pos hdue, bne_iff_ne.mpr hgive]
          exact Bool.and_true _
        rw [hsoft, ← decide_eq_true_iff (p := conn.badMarkTime + cfg.timeout ≤ now),
          ← Bool.or_eq_true, and_iff_right hdue, and_iff_right rfl]
      · have hsame : conn.checkBad cfg force now = conn := by rw [ConnData.checkBad, if_pos hbad, if_neg hdue]
        rw [hsame]
        refine iff_of_false hnot fun h => hdue ?_
        rw [Bool.or_eq_true, decide_eq_true_iff]
        exact h.2.1

theorem available_of_softSuitable (h : conn.softSuitable = true) : conn.available cfg now objects = true := by
  rw [softSuitable_eq, Bool.and_eq_true] at h
  rw [ConnData.available, h.1, h.2]
  rfl

theorem available_iff :
    conn.available cfg now objects = true ↔
      conn.softSuitable = true ∨ conn.roomy = true ∧ conn.isBad = true ∧
        (cfg.allBadNoWait = true ∧ objects.all (·.isBad) = true ∨ conn.badMarkTime + cfg.timeout ≤ now) := by
  rw [ConnData.available, softSuitable_eq, ConnData.due, Bool.and_or_distrib_left]
  simp only [Bool.or_eq_true, Bool.and_eq_true, decide_eq_true_iff]

theorem checkAllAreBadOrBusy_cases (objects : List (ConnData ω)) :
    objects.any (·.softSuitable) = true ∧ checkAllAreBadOrBusy objects = .ok () ∨
      objects.any (·.softSuitable) = false ∧
        (objects.all (·.isBad) = true ∧ (∃ statuses, checkAllAreBadOrBusy objects = .error (.noGoodReference statuses)) ∨
          objects.all (·.isBad) = false ∧ checkAllAreBadOrBusy objects = .error .noFreeObject) := by
  rw [checkAllAreBadOrBusy]
  cases hany : objects.any (·.softSuitable) with
  | true => exact .inl ⟨rfl, rfl⟩
  | false =>
      cases hall : objects.all (·.isBad) with
      | true => exact .inr ⟨rfl, .inl ⟨rfl, _, rfl⟩⟩
      | false => exact .inr ⟨rfl, .inr ⟨rfl, rfl⟩⟩

theorem available_of_review (honce : cfg.objectOnce = false → ∀ conn ∈ objects, conn.giveOnce = .others)
    (hk : (review cfg now objects).1[k]? = some conn') (hs : conn'.softSuitable = true) :
    ∃ conn, objects[k]? = some conn ∧ conn.available cfg now objects = true := by
  obtain ⟨conn, hconn, rfl | ⟨force, rfl, hforce⟩⟩ := review_getElem? hk
  · exact ⟨conn', hconn, available_of_softSuitable hs⟩
  · refine ⟨conn, hconn, available_iff.mpr ?_⟩
    rcases (checkBad_softSuitable_iff fun ho => honce ho conn (List.mem_of_getElem? hconn)).mp
      hs with hsoft | ⟨hbad, hdue, hroomy⟩
    · exact .inl hsoft
    · exact .inr ⟨hroomy, hbad, hdue.imp_left hforce⟩

theorem checkBadRefs_any {force : Bool} (hmem : conn ∈ objects) (hs : (conn.checkBad cfg force now).softSuitable = true) :
    checkAllAreBadOrBusy (checkBadRefs cfg force now objects) = .ok () := by
  have hany : (checkBadRefs cfg force now objects).any (·.softSuitable) = true :=
    List.any_eq_true.mpr ⟨_, List.mem_map_of_mem hmem, hs⟩
  rw [checkAllAreBadOrBusy, if_pos hany]

theorem review_error {e : Error} (honce : cfg.objectOnce = false → ∀ conn ∈ s.objects,
    conn.giveOnce = .others) (h : (review cfg now s.objects).2 = .error e) :
    (e = .noFreeObject ∨ ∃ statuses, e = .noGoodReference statuses) ∧
      ∀ conn ∈ s.objects, conn.available cfg now s.objects = true → s.overlooks cfg now = true := by
  have hkind : ∀ objects : List (ConnData ω), checkAllAreBadOrBusy objects = .error e →
      e = .noFreeObject ∨ ∃ statuses, e = .noGoodReference statuses := by
    intro objects he
    rcases checkAllAreBadOrBusy_cases objects with ⟨-, heq⟩ | ⟨-, ⟨-, statuses, heq⟩ | ⟨-, heq⟩⟩
    · cases heq.symm.trans he
    · exact .inr ⟨statuses, Except.error.inj (he.symm.trans heq)⟩
    · exact .inl (Except.error.inj (he.symm.trans heq))
  rw [review] at h
  cases hno : cfg.allBadNoWait with
  | false =>
      rw [hno, if_neg Bool.false_ne_true] at h
      refine ⟨hkind _ h, fun conn hconn havailable => ?_⟩
      have hsoft : (conn.checkBad cfg false now).softSuitable = true := by
        refine (checkBad_softSuitable_iff fun ho => honce ho conn hconn).mpr
          ((available_iff.mp havailable).imp_right fun ⟨hroomy, hbad, hdue⟩ => ?_)
        exact ⟨hbad, .inr (hdue.resolve_left fun hwait => nomatch hno.symm.trans hwait.1), hroomy⟩
      cases (checkBadRefs_any hconn hsoft).symm.trans h
  | true =>
      rw [hno, if_pos rfl] at h
      rcases checkAllAreBadOrBusy_cases s.objects with ⟨-, heq⟩ | ⟨hnone, ⟨hall, statuses, heq⟩ | ⟨hall, heq⟩⟩
      · rw [heq] at h
        cases h
      · rw [heq] at h
        refine ⟨hkind _ h, fun conn hconn havailable => ?_⟩
        have hroomy := (Bool.and_eq_true_iff.mp havailable).1
        have hsoft := (@checkBad_softSuitable_iff _ _ cfg conn now true fun ho => honce ho conn hconn).mpr
          (.inr ⟨List.all_eq_true.mp hall conn hconn, .inl rfl, hroomy⟩)
        cases (checkBadRefs_any hconn hsoft).symm.trans h
      · rw [heq] at h
        refine ⟨.inl (Except.error.inj h).symm, fun conn hconn havailable => ?_⟩
        obtain ⟨hroomy, hbad, hdue⟩ := (available_iff.mp havailable).resolve_left
          (Bool.not_eq_true _ ▸ List.any_eq_false.mp hnone conn hconn)
        have hlate := hdue.resolve_left fun hwait => nomatch hall.symm.trans hwait.2
        rw [State.overlooks, hno]
        simp only [Bool.and_eq_true, List.all_eq_true, List.any_eq_true, Bool.not_eq_true', decide_eq_true_iff]
        refine ⟨⟨⟨trivial, fun c hc => Bool.not_eq_true _ ▸ List.any_eq_false.mp hnone c hc⟩, ?_⟩,
          conn, hconn, ⟨hbad, hlate⟩, hroomy⟩
        obtain ⟨c, hc, hgood⟩ := List.all_eq_false.mp hall
        exact ⟨c, hc, Bool.not_eq_true _ ▸ hgood⟩

theorem overlooks_review (h : s.overlooks cfg now = true) :
    (review cfg now s.objects).2 = .error .noFreeObject ∧ ∃ conn ∈ s.objects, conn.available cfg now s.objects = true := by
  rw [State.overlooks] at h
  simp only [Bool.and_eq_true, List.all_eq_true, List.any_eq_true, Bool.not_eq_true', decide_eq_true_iff] at h
  obtain ⟨⟨⟨hno, hnone⟩, good, hgood, hnotBad⟩, conn, hconn, ⟨hbad, hlate⟩, hroomy⟩ := h
  refine ⟨?_, conn, hconn, available_iff.mpr (.inr ⟨hroomy, hbad, .inr hlate⟩)⟩
  rcases checkAllAreBadOrBusy_cases s.objects with ⟨hany, -⟩ | ⟨-, ⟨hall, -⟩ | ⟨-, heq⟩⟩
  · obtain ⟨c, hc, hs⟩ := List.any_eq_true.mp hany
    cases (hnone c hc).symm.trans hs
  · cases hnotBad.symm.trans (List.all_eq_true.mp hall good hgood)
  · rw [review, hno, if_pos rfl, heq]

theorem getValidObject_ok {policy : ChoosePolicyType} (hp : policy ≠ .precise)
    (objects : List (ConnData ω)) (last key rand : Nat) :
    ∃ chosen, getValidObject policy objects last key rand = .ok chosen := by
  cases policy with
  | precise => exact absurd rfl hp
  | loop => exact ⟨_, rfl⟩
  | rand => exact ⟨_, rfl⟩
  | badSwitch => exact ⟨_, rfl⟩
  | persistent => exact ⟨_, rfl⟩

section

variable [DecidableEq ω]

theorem step_get_error {e : Error} (hrunning : s.aborted = false)
    (h : (review cfg now s.objects).2 = .error e) : step cfg s (.get key rand now : Action ε) = some
      { s with objects := (review cfg now s.objects).1, calls := s.calls ++ [.threw e] } := by
  rw [step, hrunning, if_neg Bool.false_ne_true]
  dsimp only
  rw [h]

theorem step_get_ok (hrunning : s.aborted = false) (hp : cfg.policy ≠ .precise) (h : (review cfg now s.objects).2 = .ok ()) :
    ∃ t k epoch conn, step cfg s (.get key rand now : Action ε) = some t ∧ t.calls = s.calls ++ [.selected k epoch] ∧
      (review cfg now s.objects).1[k]? = some conn ∧ conn.softSuitable = true := by
  obtain ⟨chosen, hv⟩ := getValidObject_ok hp (review cfg now s.objects).1 s.lastObject key rand
  obtain ⟨k, last, conn, rfl, hk⟩ := getValidObject_isSome (review_ok_any h) hv
  obtain ⟨conn', hconn', hs⟩ := suitableAt_iff.mp (suitableAt_of_getValidObject hp hv)
  obtain rfl := Option.some.inj (hk.symm.trans hconn')
  refine ⟨{ { s with objects := (review cfg now s.objects).1 }.update k (·.select) with
    lastObject := last, calls := s.calls ++ [.selected k conn.epoch] }, k, conn.epoch, conn, ?_, rfl, hk, hs⟩
  rw [step, hrunning, if_neg Bool.false_ne_true]
  dsimp only
  rw [h]
  dsimp only
  rw [hv]
  dsimp only
  rw [hk]

end

end UnixCommons.CORBA.ObjectPool
