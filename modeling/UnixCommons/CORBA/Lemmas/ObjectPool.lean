import Mathlib
import UnixCommons.CORBA.ObjectPool

/-!
# 物の集まりの補題

見直しと選び方が接続に何をするかを、一つの操作に一つの補題で述べ、一歩の場合分けを経て、数の不変条件を示す。
-/

namespace UnixCommons.CORBA.ObjectPool

open Lib

variable {ω ε : Type} {cfg : Settings ω ε} {conn conn' : ConnData ω} {objects : List (ConnData ω)} {s t : State ω}
variable {i j k last key rand given : Nat} {now : Int} {force : Bool} {dsc : String} {input : ε} {object : ω} {p q : Point ω}

attribute [local grind =] ConnData.checkBad step review

/-! ## 接続 -/

@[simp] theorem checkBad_object : (conn.checkBad cfg force now).object = conn.object := by
  simp only [ConnData.checkBad]
  split_ifs <;> rfl

@[simp] theorem checkBad_useCount : (conn.checkBad cfg force now).useCount = conn.useCount := by
  simp only [ConnData.checkBad]
  split_ifs <;> rfl

@[simp] theorem checkBad_useMax : (conn.checkBad cfg force now).useMax = conn.useMax := by
  simp only [ConnData.checkBad]
  split_ifs <;> rfl

@[simp] theorem checkBad_proved : (conn.checkBad cfg force now).proved = conn.proved := by
  simp only [ConnData.checkBad]
  split_ifs <;> rfl

theorem checkBad_epoch :
    ((conn.checkBad cfg force now).epoch = conn.epoch ∧ (conn.checkBad cfg force now).giveOnce = conn.giveOnce) ∨
      (conn.isBad = true ∧ (force = true ∨ conn.badMarkTime + cfg.timeout ≤ now) ∧
        (conn.checkBad cfg force now).epoch = conn.epoch + 1 ∧
        (conn.checkBad cfg force now).giveOnce = if cfg.objectOnce then .notGiven else conn.giveOnce) := by
  by_cases hbad : conn.isBad = true
  · by_cases hdue : (force || decide (conn.badMarkTime + cfg.timeout ≤ now)) = true
    · right
      simp only [ConnData.checkBad, hbad, hdue, if_true]
      exact ⟨trivial, by simpa using hdue, trivial, trivial⟩
    · left
      simp [ConnData.checkBad, hbad, hdue]
  · left
    simp [ConnData.checkBad, hbad]

theorem softSuitable_iff : conn.softSuitable = true ↔
    conn.isBad = false ∧ (conn.useMax ≠ 0 → conn.useCount < conn.useMax) ∧ conn.giveOnce ≠ .first := by
  simp only [ConnData.softSuitable, ConnData.busy]
  grind

theorem hardSuitable_softSuitable (h : conn.hardSuitable = true) : conn.softSuitable = true := by
  simp only [ConnData.hardSuitable, Bool.and_eq_true] at h
  exact h.1

theorem takeObject_frame : (conn.takeObject cfg k input).1.useCount = conn.useCount ∧
    (conn.takeObject cfg k input).1.useMax = conn.useMax ∧
    (conn.takeObject cfg k input).1.giveOnce = conn.giveOnce ∧ (conn.takeObject cfg k input).1.epoch = conn.epoch ∧
    (conn.takeObject cfg k input).1.proved = conn.proved := by
  simp only [ConnData.takeObject]
  split
  · simp
  · split <;> simp

def Settings.Resolves (cfg : Settings ω ε) (k : Nat) (object : ω) : Prop := ∃ input, cfg.resolver k input = .ok (some object)

def Settings.Distinct (cfg : Settings ω ε) : Prop := ∀ k k' object, cfg.Resolves k object → cfg.Resolves k' object → k = k'

theorem resolves_of_resolved (h : cfg.resolved k input = some object) : cfg.Resolves k object := by
  refine ⟨input, ?_⟩
  simp only [Settings.resolved] at h
  split at h
  · rename_i o hr
    rw [hr, h]
  · cases h

theorem takeObject_object : (conn.takeObject cfg k input).1.object = conn.object ∧
    (cfg.reresolve && conn.resolve) = false ∨ (conn.takeObject cfg k input).1.object =
    cfg.resolved k input ∧ (conn.object = none ∨ (cfg.reresolve && conn.resolve) = true) := by
  simp only [ConnData.takeObject]
  split
  · exact .inl ⟨rfl, by assumption⟩
  · rename_i hne
    refine .inr ⟨?_, ?_⟩
    · simp only [Settings.resolved]
      split
      · rename_i hr
        simp [hr]
      · rename_i hr
        simp [hr]
      · rename_i hr
        simp [hr]
    · cases ho : conn.object with
      | none => exact .inl rfl
      | some object =>
          right
          cases hr : cfg.reresolve && conn.resolve with
          | true => rfl
          | false => exact (hne object ho hr).elim

theorem takeObject_ok (h : (conn.takeObject cfg k input).2 = .ok object) :
    (conn.takeObject cfg k input).1.object = some object := by
  simp only [ConnData.takeObject] at h ⊢
  split at h
  · cases h
    assumption
  · split at h
    · cases h
      rfl
    · cases h
    · cases h

/-! ## 選び方 -/

theorem suitableAt_iff {suitable : ConnData ω → Bool} :
    suitableAt suitable objects k = true ↔ ∃ conn, objects[k]? = some conn ∧ suitable conn = true := by
  simp [suitableAt, Option.any_eq_true_iff_get]
  grind

theorem suitableAt_of_cycleNext (h : cycleNext objects k = some j) :
    suitableAt (·.softSuitable) objects j = true := List.find?_some h

theorem suitableAt_of_checkAndCycleNext (h : checkAndCycleNext objects k = some j) :
    suitableAt (·.softSuitable) objects j = true := by
  simp only [checkAndCycleNext] at h
  split_ifs at h with hk
  · cases h
    exact hk
  · exact suitableAt_of_cycleNext h

theorem suitableAt_of_loopObject (h : loopObject objects last = some (k, j)) :
    suitableAt (·.softSuitable) objects k = true := by
  obtain ⟨k', hk, heq⟩ := Option.map_eq_some_iff.mp h
  cases heq
  exact suitableAt_of_cycleNext hk

theorem suitableAt_of_getValidObject {policy : ChoosePolicyType} (hp : policy ≠ .precise)
    (h : getValidObject policy objects last key rand = .ok (some (k, j))) :
    suitableAt (·.softSuitable) objects k = true := by
  cases policy with
  | loop => exact suitableAt_of_loopObject (Except.ok.inj h)
  | rand =>
      obtain ⟨k', hk, heq⟩ := Option.map_eq_some_iff.mp (Except.ok.inj h)
      cases heq
      exact suitableAt_of_checkAndCycleNext hk
  | badSwitch =>
      have h := Except.ok.inj h
      split_ifs at h with hhard
      · cases h
        obtain ⟨conn, hconn, hs⟩ := suitableAt_iff.mp hhard
        exact suitableAt_iff.mpr ⟨conn, hconn, hardSuitable_softSuitable hs⟩
      · exact suitableAt_of_loopObject h
  | persistent =>
      obtain ⟨k', hk, heq⟩ := Option.map_eq_some_iff.mp (Except.ok.inj h)
      cases heq
      exact suitableAt_of_checkAndCycleNext hk
  | precise => exact absurd rfl hp

theorem checkBadRefs_getElem? (h : (checkBadRefs cfg force now objects)[k]? = some conn') :
    ∃ conn, objects[k]? = some conn ∧ conn' = conn.checkBad cfg force now := by
  rw [checkBadRefs, List.getElem?_map] at h
  obtain ⟨conn, hconn, heq⟩ := Option.map_eq_some_iff.mp h
  exact ⟨conn, hconn, heq.symm⟩

theorem checkAllAreBadOrBusy_noGoodReference {statuses : List String}
    (h : checkAllAreBadOrBusy objects = .error (.noGoodReference statuses)) :
    objects.all (·.isBad) = true := by
  simp only [checkAllAreBadOrBusy] at h
  split_ifs at h with hany hall
  · exact hall
  · cases h

theorem review_getElem? (h : (review cfg now objects).1[k]? = some conn') :
    ∃ conn, objects[k]? = some conn ∧ (conn' = conn ∨ ∃ force, conn' = conn.checkBad cfg force now ∧
      (force = true → cfg.allBadNoWait = true ∧ objects.all (·.isBad) = true)) := by
  simp only [review] at h
  split_ifs at h with hno
  · cases hcheck : checkAllAreBadOrBusy objects with
    | ok u =>
        simp only [hcheck] at h
        obtain ⟨conn, hconn, heq⟩ := checkBadRefs_getElem? h
        exact ⟨conn, hconn, .inr ⟨false, heq, by simp⟩⟩
    | error e =>
        cases e with
        | noGoodReference statuses =>
            simp only [hcheck] at h
            obtain ⟨conn, hconn, heq⟩ := checkBadRefs_getElem? h
            exact ⟨conn, hconn, .inr ⟨true, heq, fun _ => ⟨hno, checkAllAreBadOrBusy_noGoodReference hcheck⟩⟩⟩
        | noFreeObject =>
            simp only [hcheck] at h
            exact ⟨conn', h, .inl rfl⟩
        | badObject status =>
            simp only [hcheck] at h
            exact ⟨conn', h, .inl rfl⟩
        | invalidReference status =>
            simp only [hcheck] at h
            exact ⟨conn', h, .inl rfl⟩
  · obtain ⟨conn, hconn, heq⟩ := checkBadRefs_getElem? h
    exact ⟨conn, hconn, .inr ⟨false, heq, by simp⟩⟩

theorem review_frame (h : (review cfg now objects).1[k]? = some conn') :
    ∃ conn, objects[k]? = some conn ∧ conn'.object = conn.object ∧ conn'.useCount = conn.useCount ∧
      conn'.useMax = conn.useMax := by
  obtain ⟨conn, hconn, rfl | ⟨force, rfl, -⟩⟩ := review_getElem? h
  · exact ⟨conn', hconn, rfl, rfl, rfl⟩
  · exact ⟨conn, hconn, by simp, by simp, by simp⟩

/-! ## 選び方の終わり -/

theorem cycleNext_isSome (h : objects.any (·.softSuitable) = true) (k : Nat) : ∃ j, cycleNext objects k = some j := by
  obtain ⟨conn, hmem, hs⟩ := List.any_eq_true.mp h
  obtain ⟨j, hlt, rfl⟩ := List.getElem_of_mem hmem
  apply Option.isSome_iff_exists.mp
  rw [cycleNext, List.find?_isSome]
  refine ⟨j, List.mem_map.mpr ⟨(j + (objects.length - (k + 1) % objects.length)) % objects.length, ?_, ?_⟩, ?_⟩
  · exact List.mem_range.mpr (Nat.mod_lt _ (by omega))
  · have hr : (k + 1) % objects.length < objects.length := Nat.mod_lt _ (by omega)
    calc
      (k + 1 + (j + (objects.length - (k + 1) % objects.length)) % objects.length) % objects.length
        = ((k + 1) % objects.length + (j + (objects.length - (k + 1) % objects.length))) %
        objects.length := by simp [Nat.add_mod]
      _ = (j + objects.length) % objects.length := by
          congr 1
          omega
      _ = j := by rw [Nat.add_mod_right, Nat.mod_eq_of_lt hlt]
  · exact suitableAt_iff.mpr ⟨objects[j], List.getElem?_eq_getElem hlt, hs⟩

theorem checkAndCycleNext_isSome (h : objects.any (·.softSuitable) = true) (k : Nat) :
    ∃ j, checkAndCycleNext objects k = some j := by
  simp only [checkAndCycleNext]
  split_ifs
  · exact ⟨k, rfl⟩
  · exact cycleNext_isSome h k

theorem loopObject_isSome (h : objects.any (·.softSuitable) = true) (last : Nat) :
    ∃ k, loopObject objects last = some (k, k) := by
  obtain ⟨k, hk⟩ := cycleNext_isSome h last
  exact ⟨k, by simp [loopObject, hk]⟩

theorem getValidObject_isSome {policy : ChoosePolicyType} {chosen : Option (Nat × Nat)}
    (h : objects.any (·.softSuitable) = true)
    (hv : getValidObject policy objects last key rand = .ok chosen) : ∃ k last conn, chosen = some
    (k, last) ∧ objects[k]? = some conn := by
  have hsuit : ∀ {k}, suitableAt (·.softSuitable) objects k = true → ∃ conn, objects[k]? = some conn := by
    intro k hk
    obtain ⟨conn, hconn, -⟩ := suitableAt_iff.mp hk
    exact ⟨conn, hconn⟩
  have hloop : loopObject objects last = chosen → ∃ k last conn, chosen = some (k, last) ∧ objects[k]? = some conn := by
    rintro rfl
    obtain ⟨k, hk⟩ := loopObject_isSome h last
    obtain ⟨conn, hconn⟩ := hsuit (suitableAt_of_loopObject hk)
    exact ⟨k, k, conn, hk, hconn⟩
  have hcycle : ∀ k, (checkAndCycleNext objects k).map (fun k => (k, last)) = chosen →
      ∃ k last conn, chosen = some (k, last) ∧ objects[k]? = some conn := by
    rintro k rfl
    obtain ⟨j, hj⟩ := checkAndCycleNext_isSome h k
    obtain ⟨conn, hconn⟩ := hsuit (suitableAt_of_checkAndCycleNext hj)
    exact ⟨j, last, conn, by simp [hj], hconn⟩
  cases policy with
  | loop => exact hloop (Except.ok.inj hv)
  | rand => exact hcycle _ (Except.ok.inj hv)
  | badSwitch =>
      have hv := Except.ok.inj hv
      split_ifs at hv with hhard
      · obtain ⟨conn, hconn, -⟩ := suitableAt_iff.mp hhard
        exact ⟨last, last, conn, hv.symm, hconn⟩
      · exact hloop hv
  | persistent => exact hcycle _ (Except.ok.inj hv)
  | precise =>
      simp only [getValidObject] at hv
      cases hk : objects[key]? with
      | none =>
          simp only [hk] at hv
          exact hloop (Except.ok.inj hv)
      | some conn =>
          simp only [hk] at hv
          split_ifs at hv
          exact ⟨key, last, conn, (Except.ok.inj hv).symm, hk⟩

theorem checkBad_softSuitable (h : conn.softSuitable = true) : (conn.checkBad cfg force now).softSuitable = true := by
  have hbad := (softSuitable_iff.mp h).1
  simpa [ConnData.checkBad, hbad, ConnData.softSuitable, ConnData.busy] using h

theorem checkAllAreBadOrBusy_ok (h : checkAllAreBadOrBusy objects = .ok ()) : objects.any (·.softSuitable) = true := by
  simp only [checkAllAreBadOrBusy] at h
  split_ifs at h with hany
  exact hany

theorem review_ok_any {u : Unit} (h : (review cfg now objects).2 = .ok u) :
    (review cfg now objects).1.any (·.softSuitable) = true := by
  simp only [review] at h ⊢
  split_ifs at h ⊢ with hno
  · cases hcheck : checkAllAreBadOrBusy objects with
    | ok u =>
        obtain ⟨conn, hmem, hs⟩ := List.any_eq_true.mp (checkAllAreBadOrBusy_ok hcheck)
        refine List.any_eq_true.mpr ⟨_, List.mem_map_of_mem hmem, ?_⟩
        exact checkBad_softSuitable hs
    | error e =>
        cases e with
        | noGoodReference statuses =>
            simp only [hcheck] at h ⊢
            exact checkAllAreBadOrBusy_ok h
        | noFreeObject =>
            simp only [hcheck] at h
            cases h
        | badObject status =>
            simp only [hcheck] at h
            cases h
        | invalidReference status =>
            simp only [hcheck] at h
            cases h
  · exact checkAllAreBadOrBusy_ok h

/-! ## 数の不変条件 -/

theorem modify_cases {f : ConnData ω → ConnData ω} (h : (objects.modify j f)[k]? = some conn') :
    ∃ conn, objects[k]? = some conn ∧ (k = j ∧ conn' = f conn ∨ k ≠ j ∧ conn' = conn) := by
  rw [List.getElem?_modify] at h
  obtain ⟨conn, hconn, rfl⟩ := Option.map_eq_some_iff.mp h
  refine ⟨conn, hconn, ?_⟩
  by_cases hjk : j = k
  · exact .inl ⟨hjk.symm, by simp [hjk]⟩
  · exact .inr ⟨Ne.symm hjk, by simp [hjk]⟩

def Point.leaks (k : Nat) : Point ω → Bool
  | .refused k' | .rejected k' _ => k' == k
  | _ => false

def charges (calls : List (Point ω)) (k : Nat) : Nat := calls.countP (Point.holds k) + calls.countP (Point.leaks k)

/-- どの接続の物も、渡した物も、その接続の参照を解いた物であり、`useCount` は、数えた呼び出しの数である。 -/
structure State.Counted (cfg : Settings ω ε) (s : State ω) : Prop where
  known : ∀ (k : Nat) (conn : ConnData ω) (object : ω), s.objects[k]? = some conn → conn.object =
    some object → cfg.Resolves k object
  given : ∀ (k : Nat) (object : ω) (epoch : Nat), .handling k object epoch ∈ s.calls → cfg.Resolves k object
  counted : ∀ (k : Nat) (conn : ConnData ω), s.objects[k]? = some conn → conn.useCount = charges s.calls k

theorem State.Counted.init (cfg : Settings ω ε) (counts : List Int) : (State.init counts : State ω).Counted cfg := by
  have hnew : ∀ (k : Nat) (conn : ConnData ω), (State.init counts).objects[k]? = some conn →
      ∃ useMax, conn = .new useMax := by
    intro k conn h
    rw [State.init, List.getElem?_map] at h
    obtain ⟨useMax, -, rfl⟩ := Option.map_eq_some_iff.mp h
    exact ⟨useMax, rfl⟩
  constructor
  · intro k conn object hconn hobject
    obtain ⟨useMax, rfl⟩ := hnew k conn hconn
    cases hobject
  · intro k object epoch h
    cases h
  · intro k conn hconn
    obtain ⟨useMax, rfl⟩ := hnew k conn hconn
    rfl

@[simp] theorem at_calls : (s.at i q).calls = s.calls.set i q := rfl

@[simp] theorem at_objects : (s.at i q).objects = s.objects := rfl

@[simp] theorem update_calls {f : ConnData ω → ConnData ω} : (s.update k f).calls = s.calls := rfl

@[simp] theorem update_objects {f : ConnData ω → ConnData ω} : (s.update k f).objects = s.objects.modify k f := rfl

theorem holds_of_done {k : Nat} {p : Point ω} (h : p.done = true) : p.holds k = false := by
  cases p with
  | selected k' epoch => cases h
  | failed k' dsc => cases h
  | undone k' => cases h
  | refused k' => cases h
  | handling k' object epoch => cases h
  | rejected k' status => rfl
  | released => rfl
  | threw e => rfl

theorem charges_set (hi : s.calls[i]? = some p) (q : Point ω) (k : Nat) :
    charges (s.calls.set i q) k + ((if p.holds k then 1 else 0) + (if p.leaks k then 1 else 0)) =
      charges s.calls k + ((if q.holds k then 1 else 0) + (if q.leaks k then 1 else 0)) := by
  have hholds := @countP_set_of_getElem? (Point ω) s.calls i p q (Point.holds k) hi
  have hleaks := @countP_set_of_getElem? (Point ω) s.calls i p q (Point.leaks k) hi
  simp only [charges]
  omega

theorem charges_append (calls : List (Point ω)) (q : Point ω) (k : Nat) :
    charges (calls ++ [q]) k = charges calls k + ((if q.holds k then 1 else 0) + (if q.leaks k then 1 else 0)) := by
  simp only [charges, List.countP_append, List.countP_singleton]
  omega

theorem handling_mem_set {epoch : Nat} (h : .handling k object epoch ∈ s.calls.set i q) :
    .handling k object epoch ∈ s.calls ∨ q = .handling k object epoch := by
  rcases List.mem_or_eq_of_mem_set h with h | h
  · exact .inl h
  · exact .inr h.symm

theorem State.Counted.change {f : ConnData ω → ConnData ω} {objects' : List (ConnData ω)}
    (hs : s.Counted cfg) (hframe : ∀ (k : Nat) (conn' : ConnData ω), objects'[k]? = some conn' →
      ∃ conn, s.objects[k]? = some conn ∧ conn'.object = conn.object ∧ conn'.useCount = conn.useCount)
    (ht : t.objects = objects'.modify k f)
    (hobject : ∀ conn object, objects'[k]? = some conn → (f conn).object = some object →
    cfg.Resolves k object) (hgiven : ∀ k object epoch, .handling k object epoch ∈ t.calls →
    .handling k object epoch ∈ s.calls ∨ cfg.Resolves k object)
    (hsame : ∀ j, j ≠ k → charges t.calls j = charges s.calls j)
    (hcount : ∀ conn, objects'[k]? = some conn → conn.useCount = charges s.calls k →
    (f conn).useCount = charges t.calls k) : t.Counted cfg := by
  constructor
  · intro j conn' object hconn' ho
    rw [ht] at hconn'
    obtain ⟨conn, hconn, ⟨rfl, rfl⟩ | ⟨-, rfl⟩⟩ := modify_cases hconn'
    · exact hobject conn object hconn ho
    · obtain ⟨conn₀, hconn₀, hobj, -⟩ := hframe j conn' hconn
      exact hs.known j conn₀ object hconn₀ (hobj ▸ ho)
  · intro j object epoch h
    rcases hgiven j object epoch h with h | h
    · exact hs.given j object epoch h
    · exact h
  · intro j conn' hconn'
    rw [ht] at hconn'
    obtain ⟨conn, hconn, hcases⟩ := modify_cases hconn'
    obtain ⟨conn₀, hconn₀, -, huse⟩ := hframe j conn hconn
    have hold := hs.counted j conn₀ hconn₀
    rcases hcases with ⟨rfl, rfl⟩ | ⟨hjk, rfl⟩
    · exact hcount conn hconn (huse.trans hold)
    · rw [hsame j hjk, huse]
      exact hold

theorem State.Counted.pass (hs : s.Counted cfg) (hi : s.calls[i]? = some p)
    (hq : ∀ k object epoch, q ≠ .handling k object epoch)
    (hcharge : ∀ k, (if p.holds k then 1 else 0) + (if p.leaks k then 1 else 0) =
    (if q.holds k then 1 else 0) + (if q.leaks k then 1 else 0)) : (s.at i q).Counted cfg := by
  refine ⟨hs.known, ?_, ?_⟩
  · intro k object epoch h
    rcases handling_mem_set h with h | h
    · exact hs.given k object epoch h
    · exact (hq k object epoch h).elim
  · intro k conn hconn
    have hset := charges_set hi q k
    rw [hcharge k] at hset
    rw [hs.counted k conn hconn, at_calls, Nat.add_right_cancel hset]

theorem frame_refl (objects : List (ConnData ω)) : ∀ (k : Nat) (conn' : ConnData ω), objects[k]? = some conn' →
    ∃ conn, objects[k]? = some conn ∧ conn'.object = conn.object ∧ conn'.useCount = conn.useCount :=
  fun _ conn' h => ⟨conn', h, rfl, rfl⟩

theorem State.Counted.take {epoch : Nat} (hs : s.Counted cfg)
    (hi : s.calls[i]? = some (.selected k epoch)) (hk : s.objects[k]? = some conn)
    (hcharge : ∀ j, (if q.holds j then 1 else 0) + (if q.leaks j then 1 else 0) = if k = j
    then 1 else 0) (hq : ∀ k' object epoch', q = .handling k' object epoch' → k' = k ∧
    (conn.takeObject cfg k input).1.object = some object) :
    ((s.update k fun _ => (conn.takeObject cfg k input).1).at i q).Counted cfg := by
  have hresolves : ∀ object, (conn.takeObject cfg k input).1.object = some object → cfg.Resolves k object := by
    intro object ho
    rcases @takeObject_object ω ε cfg conn k input with ⟨hsame, -⟩ | ⟨hnew, -⟩
    · exact hs.known k conn object hk (hsame ▸ ho)
    · exact resolves_of_resolved (hnew ▸ ho)
  have hsame : ∀ j, charges (s.calls.set i q) j = charges s.calls j := by
    intro j
    have hset := charges_set hi q j
    rw [hcharge j] at hset
    simpa [Point.holds, Point.leaks] using hset
  apply hs.change (frame_refl s.objects) rfl
  · exact fun _ object _ ho => hresolves object ho
  · intro k' object epoch' hmem
    rcases handling_mem_set hmem with hmem | heq
    · exact .inl hmem
    · obtain ⟨rfl, ho⟩ := hq k' object epoch' heq
      exact .inr (hresolves object ho)
  · exact fun j _ => hsame j
  · intro conn' hconn' hold
    rw [hk] at hconn'
    cases hconn'
    rw [takeObject_frame.1, hold, at_calls, update_calls, hsame]

/-! ## 一歩の場合分け -/

section Step

variable [DecidableEq ω]

theorem getConndata_some (h : getConndata objects object = some k) :
    ∃ conn, objects[k]? = some conn ∧ conn.object = some object := by
  obtain ⟨hlt, hk, -⟩ := List.findIdx?_eq_some_iff_getElem.mp h
  exact ⟨objects[k], List.getElem?_eq_getElem hlt, by simpa using hk⟩

theorem getConndata_none (h : getConndata objects object = none) (hk : objects[k]? = some conn) :
    conn.object ≠ some object := by
  have hall := List.findIdx?_eq_none_iff.mp h
  simpa using hall conn (List.mem_of_getElem? hk)

theorem step_get (h : step cfg s (.get key rand now) = some t) :
    (∃ e, t = { s with objects := (review cfg now s.objects).1, calls := s.calls ++ [.threw e] }) ∨
      ∃ k last conn, (review cfg now s.objects).1[k]? = some conn ∧ (cfg.policy ≠ .precise → conn.softSuitable = true) ∧
        t = { { s with objects := (review cfg now s.objects).1 }.update k (·.select) with
          lastObject := last, calls := s.calls ++ [.selected k conn.epoch] } := by
  simp only [step] at h
  split_ifs at h
  cases hr : (review cfg now s.objects).2 with
  | error e =>
      simp only [hr] at h
      exact .inl ⟨e, (Option.some.inj h).symm⟩
  | ok u =>
      simp only [hr] at h
      cases hv : getValidObject cfg.policy (review cfg now s.objects).1 s.lastObject key rand with
      | error e =>
          simp only [hv] at h
          exact .inl ⟨e, (Option.some.inj h).symm⟩
      | ok chosen =>
          cases chosen with
          | none =>
              simp only [hv] at h
              cases h
          | some chosen =>
              obtain ⟨k, last⟩ := chosen
              simp only [hv] at h
              cases hk : (review cfg now s.objects).1[k]? with
              | none =>
                  simp only [hk] at h
                  cases h
              | some conn =>
                  simp only [hk] at h
                  refine .inr ⟨k, last, conn, hk, ?_, (Option.some.inj h).symm⟩
                  intro hp
                  obtain ⟨conn', hconn', hs⟩ := suitableAt_iff.mp (suitableAt_of_getValidObject hp hv)
                  rw [hk] at hconn'
                  cases hconn'
                  exact hs

theorem step_examine (h : step cfg s (.examine i input) = some t) :
    ∃ k epoch conn, s.calls[i]? = some (.selected k epoch) ∧ s.objects[k]? = some conn ∧
      (conn.isBad = true ∧ t = s.at i (.refused k) ∨
        conn.isBad = false ∧ ((∃ object, (conn.takeObject cfg k input).2 = .ok object ∧
            t = (s.update k fun _ => (conn.takeObject cfg k input).1).at i (.handling k object conn.epoch)) ∨
          ∃ dsc, t = (s.update k fun _ => (conn.takeObject cfg k input).1).at i (.failed k dsc))) := by
  simp only [step] at h
  split_ifs at h
  split at h
  · rename_i k epoch hi
    split at h
    · rename_i conn hk
      refine ⟨k, epoch, conn, hi, hk, ?_⟩
      split_ifs at h with hlock hbad
      · exact .inl ⟨hbad, (Option.some.inj h).symm⟩
      · refine .inr ⟨Bool.not_eq_true _ ▸ hbad, ?_⟩
        cases hr : (conn.takeObject cfg k input).2 with
        | ok object =>
            simp only [hr] at h
            exact .inl ⟨object, rfl, (Option.some.inj h).symm⟩
        | error dsc =>
            simp only [hr] at h
            exact .inr ⟨dsc, (Option.some.inj h).symm⟩
    · cases h
  · cases h

theorem step_undo (h : step cfg s (.undo i now) = some t) :
    ∃ k dsc, s.calls[i]? = some (.failed k dsc) ∧ t = (s.update k (·.releaseBad now dsc)).at i (.undone k) := by
  simp only [step] at h
  split_ifs at h
  split at h
  · rename_i k dsc hi
    exact ⟨k, dsc, hi, (Option.some.inj h).symm⟩
  · cases h

theorem step_report (h : step cfg s (.report i) = some t) :
    ∃ k status, s.calls[i]? = some (.refused k) ∧ t = s.at i (.rejected k status) ∨
      s.calls[i]? = some (.undone k) ∧ t = s.at i (.threw (.invalidReference status)) := by
  simp only [step] at h
  split_ifs at h
  split at h
  · rename_i k hi
    obtain ⟨conn, -, rfl⟩ := Option.map_eq_some_iff.mp h
    exact ⟨k, conn.badnessDescription, .inl ⟨hi, rfl⟩⟩
  · rename_i k hi
    obtain ⟨conn, -, rfl⟩ := Option.map_eq_some_iff.mp h
    exact ⟨k, conn.badnessDescription, .inr ⟨hi, rfl⟩⟩
  · cases h

theorem step_release (h : step cfg s (.release i) = some t) :
    ∃ k object given, s.calls[i]? = some (.handling k object given) ∧ t = s.releaseObject i object
      (·.releaseGood given) := by
  simp only [step] at h
  split_ifs at h
  split at h
  · rename_i k object given hi
    exact ⟨k, object, given, hi, (Option.some.inj h).symm⟩
  · cases h

theorem step_releaseBad (h : step cfg s (.releaseBad i now dsc) = some t) :
    ∃ k object given dsc', s.calls[i]? = some (.handling k object given) ∧
      t = s.releaseObject i object (·.releaseBad now dsc') := by
  rw [step, Option.ite_none_left_eq_some] at h
  replace h := h.2
  split at h
  · rename_i k object given hi
    exact ⟨k, object, given, _, hi, (Option.some.inj h).symm⟩
  · cases h

/-! ## 数を保つ歩み -/

theorem State.Counted.getConndata_eq (hs : s.Counted cfg) (hd : cfg.Distinct) {epoch : Nat}
    (hi : s.calls[i]? = some (.handling k object epoch))
    (h : getConndata s.objects object = some j) : j = k := by
  obtain ⟨conn, hconn, hobject⟩ := getConndata_some h
  exact hd j k object (hs.known j conn object hconn hobject) (hs.given k object epoch (List.mem_of_getElem? hi))

theorem State.Counted.releaseObject {f : ConnData ω → ConnData ω} {epoch : Nat} (hs : s.Counted cfg) (hd : cfg.Distinct)
    (hi : s.calls[i]? = some (.handling k object epoch)) (hobject : ∀ conn, (f conn).object = conn.object)
    (hcount : ∀ conn, (f conn).useCount = conn.useCount - 1) : (s.releaseObject i object f).Counted cfg := by
  cases hc : getConndata s.objects object with
  | none =>
      have hstop : s.releaseObject i object f = { s with aborted := true } := by simp [State.releaseObject, hc]
      rw [hstop]
      exact ⟨hs.known, hs.given, hs.counted⟩
  | some j =>
      obtain rfl := hs.getConndata_eq hd hi hc
      have hrelease : s.releaseObject i object f = (s.update j f).at i .released := by simp [State.releaseObject, hc]
      rw [hrelease]
      apply hs.change (frame_refl s.objects) rfl
      · intro conn object' hconn ho
        exact hs.known j conn object' hconn (hobject conn ▸ ho)
      · intro k object' epoch' h
        rcases handling_mem_set h with h | h
        · exact .inl h
        · cases h
      · intro k hk
        have hset := charges_set hi .released k
        simpa [Point.holds, Point.leaks, Ne.symm hk] using hset
      · intro conn _ hold
        have hset := charges_set hi .released j
        simp [Point.holds, Point.leaks] at hset
        rw [hcount, hold]
        simp only [at_calls, update_calls]
        omega

theorem State.Counted.step {action : Action ε} (hs : s.Counted cfg) (hd : cfg.Distinct)
    (h : ObjectPool.step cfg s action = some t) : t.Counted cfg := by
  have hreview : ∀ now (k : Nat) (conn' : ConnData ω), (review cfg now s.objects).1[k]? = some conn' →
      ∃ conn, s.objects[k]? = some conn ∧ conn'.object = conn.object ∧ conn'.useCount = conn.useCount := by
    intro now k conn' hk
    obtain ⟨conn, hconn, ho, hu, -⟩ := review_frame hk
    exact ⟨conn, hconn, ho, hu⟩
  have hknown : ∀ now (k : Nat) conn object, (review cfg now s.objects).1[k]? = some conn →
      conn.object = some object → cfg.Resolves k object := by
    intro now k conn object hk ho
    obtain ⟨conn₀, hconn₀, hobj, -⟩ := hreview now k conn hk
    exact hs.known k conn₀ object hconn₀ (hobj ▸ ho)
  cases action with
  | get key rand now =>
      rcases step_get h with ⟨e, rfl⟩ | ⟨k, last, conn, hk, -, rfl⟩
      · apply hs.change (k := 0) (f := id) (hreview now) (by simp)
        · exact hknown now 0
        · intro k object epoch hmem
          exact .inl (by simpa using hmem)
        · intro j _
          exact charges_append s.calls (.threw e) j
        · intro conn _ hold
          simpa [charges_append, Point.holds, Point.leaks] using hold
      · apply hs.change (hreview now) rfl
        · exact hknown now k
        · intro k' object epoch hmem
          exact .inl (by simpa using hmem)
        · intro j hj
          simp [charges_append, Point.holds, Point.leaks, Ne.symm hj]
        · intro conn' _ hold
          simp [charges_append, Point.holds, Point.leaks, ConnData.select, hold]
  | examine i input =>
      obtain ⟨k, epoch, conn, hi, hk, ⟨hbad, rfl⟩ | ⟨hbad, ⟨object, hok, rfl⟩ | ⟨dsc, rfl⟩⟩⟩ := step_examine h
      · exact hs.pass hi (by simp) (by simp [Point.holds, Point.leaks])
      · apply hs.take hi hk
        · intro j
          simp [Point.holds, Point.leaks]
        · intro k' object' epoch' heq
          cases heq
          exact ⟨rfl, takeObject_ok hok⟩
      · apply hs.take hi hk
        · intro j
          simp [Point.holds, Point.leaks]
        · intro k' object' epoch' heq
          cases heq
  | undo i now =>
      obtain ⟨k, dsc, hi, rfl⟩ := step_undo h
      apply hs.change (frame_refl s.objects) rfl
      · exact fun conn object hconn ho => hs.known k conn object hconn ho
      · intro k' object epoch hmem
        rcases handling_mem_set hmem with hmem | heq
        · exact .inl hmem
        · cases heq
      · intro j hj
        have hset := charges_set hi (.undone k) j
        simpa [Point.holds, Point.leaks, Ne.symm hj] using hset
      · intro conn _ hold
        have hset := charges_set hi (.undone k) k
        simp [Point.holds, Point.leaks] at hset
        simp only [ConnData.releaseBad, hold, at_calls, update_calls]
        omega
  | report i =>
      obtain ⟨k, status, ⟨hi, rfl⟩ | ⟨hi, rfl⟩⟩ := step_report h
      · exact hs.pass hi (by simp) (by simp [Point.holds, Point.leaks])
      · exact hs.pass hi (by simp) (by simp [Point.holds, Point.leaks])
  | release i =>
      obtain ⟨k, object, given, hi, rfl⟩ := step_release h
      exact hs.releaseObject hd hi (fun _ => rfl) (fun _ => rfl)
  | releaseBad i now dsc =>
      obtain ⟨k, object, given, dsc', hi, rfl⟩ := step_releaseBad h
      exact hs.releaseObject hd hi (fun _ => rfl) (fun _ => rfl)

end Step

/-! ## 数の失われない列 -/

theorem review_length : (review cfg now objects).1.length = objects.length := by
  simp only [review]
  split_ifs
  · split <;> simp [checkBadRefs]
  · simp [checkBadRefs]

/-- 断られた呼び出しも、止まることもなく、使われている参照の物は、接続の物である。 -/
structure State.Fresh (s : State ω) : Prop where
  fresh : ∀ (k : Nat) (object : ω) (epoch : Nat), .handling k object epoch ∈ s.calls →
    k < s.objects.length ∧ ∀ conn, s.objects[k]? = some conn → conn.object = some object
  clean : ∀ p ∈ s.calls, ∀ k, p.leaks k = false
  running : s.aborted = false

theorem State.Fresh.init (counts : List Int) : (State.init counts : State ω).Fresh :=
  ⟨by simp [State.init], by simp [State.init], rfl⟩

theorem State.Fresh.change (hs : s.Fresh) (hlen : t.objects.length = s.objects.length)
    (hobject : ∀ (k : Nat) (conn' : ConnData ω), t.objects[k]? = some conn' →
    ∃ conn, s.objects[k]? = some conn ∧ conn'.object = conn.object)
    (hcalls : ∀ p ∈ t.calls, p ∈ s.calls ∨ ∀ k, p.leaks k = false ∧ p.live k = false)
    (ha : t.aborted = s.aborted) : t.Fresh := by
  constructor
  · intro k object epoch h
    rcases hcalls _ h with h | h
    · obtain ⟨hlt, hsame⟩ := hs.fresh k object epoch h
      refine ⟨hlen ▸ hlt, fun conn' hconn' => ?_⟩
      obtain ⟨conn, hconn, ho⟩ := hobject k conn' hconn'
      rw [ho]
      exact hsame conn hconn
    · simpa [Point.live] using (h k).2
  · intro p hp k
    rcases hcalls p hp with hp | hp
    · exact hs.clean p hp k
    · exact (hp k).1
  · exact ha.trans hs.running

theorem modify_object {f : ConnData ω → ConnData ω} (hf : ∀ conn, (f conn).object = conn.object)
    (h : (objects.modify j f)[k]? = some conn') :
    ∃ conn, objects[k]? = some conn ∧ conn'.object = conn.object := by
  obtain ⟨conn, hconn, ⟨-, rfl⟩ | ⟨-, rfl⟩⟩ := modify_cases h
  · exact ⟨conn, hconn, hf conn⟩
  · exact ⟨conn', hconn, rfl⟩

theorem mem_set_cases (h : p ∈ s.calls.set i q) (hq : ∀ k, q.leaks k = false ∧ q.live k = false) :
    p ∈ s.calls ∨ ∀ k, p.leaks k = false ∧ p.live k = false := by
  rcases List.mem_or_eq_of_mem_set h with h | rfl
  · exact .inl h
  · exact .inr hq

section FreshStep

variable [DecidableEq ω]

theorem State.Fresh.releaseObject {f : ConnData ω → ConnData ω} {epoch : Nat} (hs : s.Fresh)
    (hi : s.calls[i]? = some (.handling k object epoch))
    (hobject : ∀ conn, (f conn).object = conn.object) : (s.releaseObject i object f).Fresh := by
  cases hc : getConndata s.objects object with
  | none =>
      obtain ⟨hlt, hsame⟩ := hs.fresh k object epoch (List.mem_of_getElem? hi)
      have hk : s.objects[k]? = some s.objects[k] := List.getElem?_eq_getElem hlt
      exact absurd (hsame _ hk) (getConndata_none hc hk)
  | some j =>
      have hrelease : s.releaseObject i object f = (s.update j f).at i .released := by simp [State.releaseObject, hc]
      rw [hrelease]
      refine hs.change (by simp) (fun k conn' h => modify_object hobject h) ?_ rfl
      exact fun p hp => mem_set_cases hp (by simp [Point.leaks, Point.live])

theorem takeObject_fresh {epoch epoch' : Nat} (hs : s.Fresh)
    (hi : s.calls[i]? = some (.selected k epoch)) (hk : s.objects[k]? = some conn)
    (hok : lost cfg s (.examine i input) = false) (hmem : .handling k object epoch' ∈ s.calls) :
    (conn.takeObject cfg k input).1.object = some object := by
  have hold : conn.object = some object := (hs.fresh k object epoch' hmem).2 conn hk
  rcases @takeObject_object ω ε cfg conn k input with ⟨hsame, -⟩ | ⟨hnew, hnone | hre⟩
  · rw [hsame, hold]
  · rw [hold] at hnone
    cases hnone
  · simp only [lost, hi, hk, Option.any_some, Bool.or_eq_false_iff, hre, Bool.true_and, List.any_eq_false] at hok
    have hdiffers := hok.2 _ hmem
    rw [hnew]
    simp only [Point.differs, beq_self_eq_true, Bool.true_and, Bool.not_eq_true, bne_eq_false_iff_eq] at hdiffers
    exact hdiffers.symm

theorem State.Fresh.take {epoch : Nat} (hs : s.Fresh) (hi : s.calls[i]? = some (.selected k epoch))
    (hk : s.objects[k]? = some conn)
    (hok : lost cfg s (.examine i input) = false) (hleak : ∀ j, q.leaks j = false)
    (hq : ∀ k' object epoch', q = .handling k' object epoch' → k' = k ∧
    (conn.takeObject cfg k input).1.object = some object) :
    ((s.update k fun _ => (conn.takeObject cfg k input).1).at i q).Fresh := by
  have hlt : k < s.objects.length := (List.getElem?_eq_some_iff.mp hk).1
  have hget : (s.objects.modify k fun _ => (conn.takeObject cfg k input).1)[k]? = some (conn.takeObject cfg k input).1 := by
    simp [hlt]
  constructor
  · intro k' object epoch' hmem
    rcases handling_mem_set hmem with hmem | heq
    · obtain ⟨hlt', hsame⟩ := hs.fresh k' object epoch' hmem
      refine ⟨by simpa using hlt', fun conn' hconn' => ?_⟩
      by_cases hkk : k' = k
      · cases hkk
        rw [at_objects, update_objects, hget] at hconn'
        cases hconn'
        exact takeObject_fresh hs hi hk hok hmem
      · rw [at_objects, update_objects, List.getElem?_modify_ne _ _ (Ne.symm hkk)] at hconn'
        exact hsame conn' hconn'
    · obtain ⟨rfl, ho⟩ := hq k' object epoch' heq
      refine ⟨by simpa using hlt, fun conn' hconn' => ?_⟩
      rw [at_objects, update_objects, hget] at hconn'
      cases hconn'
      exact ho
  · intro p hp j
    rcases List.mem_or_eq_of_mem_set hp with hp | rfl
    · exact hs.clean p hp j
    · exact hleak j
  · exact hs.running

theorem State.Fresh.step {action : Action ε} (hs : s.Fresh) (hok : lost cfg s action = false)
    (h : ObjectPool.step cfg s action = some t) : t.Fresh := by
  cases action with
  | get key rand now =>
      rcases step_get h with ⟨e, rfl⟩ | ⟨k, last, conn, hk, -, rfl⟩
      · refine hs.change review_length ?_ ?_ rfl
        · intro k conn' hk
          obtain ⟨conn, hconn, ho, -⟩ := review_frame hk
          exact ⟨conn, hconn, ho⟩
        · intro p hp
          rcases List.mem_append.mp hp with hp | hp
          · exact .inl hp
          · cases List.mem_singleton.mp hp
            exact .inr (by simp [Point.leaks, Point.live])
      · refine hs.change (by simp [review_length]) ?_ ?_ rfl
        · intro k' conn' hk'
          obtain ⟨conn₁, hconn₁, ho₁⟩ := modify_object (f := (·.select)) (fun _ => rfl) hk'
          obtain ⟨conn, hconn, ho, -⟩ := review_frame hconn₁
          exact ⟨conn, hconn, ho₁.trans ho⟩
        · intro p hp
          rcases List.mem_append.mp hp with hp | hp
          · exact .inl hp
          · cases List.mem_singleton.mp hp
            exact .inr (by simp [Point.leaks, Point.live])
  | examine i input =>
      obtain ⟨k, epoch, conn, hi, hk, ⟨hbad, rfl⟩ | ⟨hbad, ⟨object, hobj, rfl⟩ | ⟨dsc, rfl⟩⟩⟩ := step_examine h
      · simp [lost, hi, hk, hbad] at hok
      · apply hs.take hi hk hok
        · exact fun _ => rfl
        · intro k' object' epoch' heq
          cases heq
          exact ⟨rfl, takeObject_ok hobj⟩
      · apply hs.take hi hk hok
        · exact fun _ => rfl
        · intro k' object' epoch' heq
          cases heq
  | undo i now =>
      obtain ⟨k, dsc, hi, rfl⟩ := step_undo h
      refine hs.change (by simp) (fun k conn' h => modify_object (f := (·.releaseBad now dsc)) (fun _ => rfl) h) ?_ rfl
      exact fun p hp => mem_set_cases hp (by simp [Point.leaks, Point.live])
  | report i =>
      obtain ⟨k, status, ⟨hi, rfl⟩ | ⟨hi, rfl⟩⟩ := step_report h
      · have hleak := hs.clean _ (List.mem_of_getElem? hi) k
        simp [Point.leaks] at hleak
      · refine hs.change rfl (fun k conn' h => ⟨conn', h, rfl⟩) ?_ rfl
        exact fun p hp => mem_set_cases hp (by simp [Point.leaks, Point.live])
  | release i =>
      obtain ⟨k, object, given, hi, rfl⟩ := step_release h
      exact hs.releaseObject hi (fun _ => rfl)
  | releaseBad i now dsc =>
      obtain ⟨k, object, given, dsc', hi, rfl⟩ := step_releaseBad h
      exact hs.releaseObject hi (fun _ => rfl)

end FreshStep

end UnixCommons.CORBA.ObjectPool
