import UnixCommons.Generics.CompositeActiveObject

/-!
# 活動する物の合成の補題

鍵の下の操作が子の状態に何をするかを、一つの操作に一つの補題で述べる。
-/

namespace UnixCommons.Generics.CompositeActiveObject

open Lib

variable {κ : Type} [DecidableEq κ]
variable {synchronous : Bool} {s t : State κ} {objects objects' : κ → ActiveState}
    {children children' activated l rest : List κ} {c child : κ}
variable {state : ActiveState} {i : Nat} {w : Waiter κ} {action : Action κ}

/-! ## 一つの物 -/

@[simp] theorem setObject_self : setObject objects child state child = state := by simp [setObject]

theorem setObject_of_ne (h : c ≠ child) : setObject objects child state c = objects c := by simp [setObject, h]

@[simp] theorem waited_ne_deactivating : state.waited ≠ .deactivating := by cases state <;> decide

theorem waited_eq_active_iff : state.waited = .active ↔ state = .active := by cases state <;> decide

theorem waited_of_ne_active (h : state ≠ .active) : state.waited = .notActive := by
  cases state with
  | active => exact absurd rfl h
  | deactivating => rfl
  | notActive => rfl

def quiet (synchronous : Bool) (state : ActiveState) : ActiveState :=
  if synchronous then state.deactivateObject.waited else state.deactivateObject

theorem quiet_quiet : quiet synchronous (quiet synchronous state) = quiet synchronous state := by
  cases synchronous <;> cases state <;> rfl

theorem quiet_ne_active : quiet synchronous state ≠ .active := by cases synchronous <;> cases state <;> decide

theorem quiet_sync (h : synchronous = true) : quiet synchronous state = .notActive := by
  subst h
  cases state <;> rfl

theorem quiet_waited : (quiet synchronous state).waited = .notActive := waited_of_ne_active quiet_ne_active

theorem quiet_eq_notActive_of (h : state = .notActive) : quiet synchronous state = .notActive := by
  subst h
  cases synchronous <;> rfl

/-! ## 子どもの操作 -/

theorem deactivateChildren_apply :
    deactivateChildren synchronous objects l c = if c ∈ l then quiet synchronous (objects c) else objects c := by
  induction l generalizing objects with
  | nil => simp [deactivateChildren]
  | cons child rest ih =>
      rw [deactivateChildren, ih]
      by_cases hc : c = child
      · subst hc
        have hself : setObject objects c
            (if synchronous = true then (objects c).deactivateObject.waited
            else (objects c).deactivateObject) c = quiet synchronous (objects c) := setObject_self
        rw [hself, quiet_quiet, if_pos List.mem_cons_self]
        exact ite_self _
      · simp only [setObject_of_ne hc, List.mem_cons, hc, false_or]

theorem waitForSomeObjects_apply (h : waitForSomeObjects objects l = some objects') :
    objects' c = if c ∈ l then (objects c).waited else objects c := by
  induction l generalizing objects with
  | nil =>
      obtain rfl := Option.some.inj h
      simp
  | cons child rest ih =>
      rw [waitForSomeObjects] at h
      split at h
      · cases h
      · rw [ih h]
        by_cases hc : c = child
        · subst hc
          have htwice : (objects c).waited.waited = (objects c).waited := by cases objects c <;> rfl
          rw [setObject_self, htwice, if_pos List.mem_cons_self]
          exact ite_self _
        · simp only [setObject_of_ne hc, List.mem_cons, hc, false_or]

theorem exists_waitForSomeObjects (h : ∀ c ∈ l, objects c ≠ .active) :
    ∃ objects', waitForSomeObjects objects l = some objects' := by
  induction l generalizing objects with
  | nil => exact ⟨objects, rfl⟩
  | cons child rest ih =>
      rw [waitForSomeObjects, if_neg (h child List.mem_cons_self)]
      refine ih fun c hc => ?_
      by_cases he : c = child
      · subst he
        rw [setObject_self]
        exact fun ha => h c List.mem_cons_self (waited_eq_active_iff.mp ha)
      · rw [setObject_of_ne he]
        exact h c (List.mem_cons_of_mem _ hc)

theorem activateChildren_spec (objects : κ → ActiveState) (activated l : List κ) :
    ∃ started rest, l = started ++ rest ∧ (activateChildren objects activated l).2.1 = started.reverse ++ activated ∧
      (∀ c, (activateChildren objects activated l).1 c = if c ∈ started then .active else objects c) ∧
      (∀ c ∈ started, objects c = .notActive) ∧ ((activateChildren objects activated l).2.2 = true → rest = []) := by
  induction l generalizing objects activated with
  | nil => exact ⟨[], [], rfl, rfl, fun c =>
      by simp [activateChildren], fun c hc => absurd hc List.not_mem_nil, fun _ => rfl⟩
  | cons child l ih =>
      rw [activateChildren]
      cases hstate : objects child with
      | notActive =>
          obtain ⟨started, rest, hl, hactivated, hobjects, hstarted, hdone⟩ :=
            ih (setObject objects child .active) (child :: activated)
          refine ⟨child :: started, rest, by rw [hl, List.cons_append], ?_, ?_, ?_, hdone⟩
          · rw [ActiveState.activateObject, hactivated, List.reverse_cons, List.append_assoc, List.singleton_append]
          · intro c
            rw [ActiveState.activateObject, hobjects]
            by_cases hc : c = child
            · subst hc
              simp
            · simp [setObject_of_ne hc, hc]
          · intro c hc
            by_cases he : c = child
            · rw [he, hstate]
            · rcases List.mem_cons.mp hc with hc | hc
              · exact absurd hc he
              · rw [← hstarted c hc, setObject_of_ne he]
      | active =>
          exact ⟨[], child :: l, rfl, rfl, fun c =>
            by simp [ActiveState.activateObject], fun c hc => absurd hc List.not_mem_nil,
            fun h => by simp [ActiveState.activateObject] at h⟩
      | deactivating =>
          exact ⟨[], child :: l, rfl, rfl, fun c =>
            by simp [ActiveState.activateObject], fun c hc => absurd hc List.not_mem_nil,
            fun h => by simp [ActiveState.activateObject] at h⟩

theorem deactivate_wait_spec (synchronous : Bool) (objects : κ → ActiveState) (l : List κ) :
    ∃ objects', waitForSomeObjects (deactivateChildren synchronous objects l) l = some objects' ∧
      ∀ c, objects' c = if c ∈ l then .notActive else objects c := by
  have hquiet : ∀ c ∈ l, deactivateChildren synchronous objects l c ≠ .active := by
    intro c hc
    rw [deactivateChildren_apply, if_pos hc]
    exact quiet_ne_active
  obtain ⟨objects', hwait⟩ := exists_waitForSomeObjects hquiet
  refine ⟨objects', hwait, fun c => ?_⟩
  rw [waitForSomeObjects_apply hwait, deactivateChildren_apply]
  by_cases hc : c ∈ l
  · simp only [if_pos hc, quiet_waited]
  · simp only [if_neg hc]

theorem activateObject_cases (h : s.activateObject synchronous = some t) :
    (∃ objects, s.state = .notActive ∧ (∀ c, objects c = if c ∈ s.childObjects then .active else s.objects c) ∧
      t = { s with state := .active, objects := objects, waiters := markStale s.waiters }) ∨ t = s := by
  rw [State.activateObject] at h
  split at h
  · rename_i hstate
    obtain ⟨started, rest, hl, hactivated, hobjects, hstarted, hdone⟩ := activateChildren_spec s.objects [] s.childObjects
    split at h
    · rename_i objects activated hresult
      obtain rfl := Option.some.inj h
      simp only [hresult, forall_const] at hobjects hdone
      rw [hdone, List.append_nil] at hl
      exact .inl ⟨objects, hstate, fun c => by rw [hobjects, hl], rfl⟩
    · rename_i objects activated hresult
      simp only [hresult, List.append_nil] at hactivated hobjects
      obtain ⟨objects', hwait, hrestored⟩ := deactivate_wait_spec synchronous objects activated
      rw [hwait] at h
      obtain rfl := Option.some.inj h
      -- 始めた子は、始める前の状態に戻る。
      have hsame : objects' = s.objects := by
        funext c
        rw [hrestored]
        simp only [hactivated, List.mem_reverse, hobjects]
        by_cases hc : c ∈ started
        · rw [if_pos hc, hstarted c hc]
        · rw [if_neg hc, if_neg hc]
      exact .inr (by rw [hsame])
  · exact .inr (Option.some.inj h).symm

theorem clearChildren_cases (h : s.clearChildren synchronous = some t) :
    (s.state = .notActive ∧ t = { s with childObjects := [] }) ∨
      ∃ objects, (∀ c, objects c = if c ∈ s.childObjects then .notActive else s.objects c) ∧
        t = { s with state := .notActive, objects := objects, childObjects := [] } := by
  rw [State.clearChildren] at h
  split at h
  · obtain ⟨objects, hwait, hobjects⟩ := deactivate_wait_spec synchronous s.objects s.childObjects.reverse
    simp only [hwait] at h
    obtain rfl := Option.some.inj h
    simp only [List.mem_reverse] at hobjects
    exact .inr ⟨objects, hobjects, rfl⟩
  · rename_i hstate
    exact .inl ⟨not_not.mp hstate, (Option.some.inj h).symm⟩

/-! ## 合成と子の一致 -/

structure Consistent (synchronous : Bool) (state : ActiveState) (children : List κ) (objects : κ → ActiveState) : Prop where
  notActive : state = .notActive → ∀ c ∈ children, objects c = .notActive
  active : state = .active → ∀ c ∈ children, objects c = .active
  deactivating : state = .deactivating → ∀ c ∈ children, objects c ≠ .active ∧ (synchronous = true → objects c = .notActive)
  free : ∀ c, c ∉ children → objects c ≠ .deactivating

omit [DecidableEq κ] in
theorem Consistent.of_notActive (h : ∀ c ∈ children, objects c = .notActive)
    (hfree : ∀ c, c ∉ children → objects c ≠ .deactivating) :
    Consistent synchronous .notActive children objects where
  notActive _ := h
  active hs := by cases hs
  deactivating hs := by cases hs
  free := hfree

theorem Consistent.activate (h : Consistent synchronous state children objects)
    (hobjects : ∀ c, objects' c = if c ∈ children then .active else objects c) :
    Consistent synchronous .active children objects' where
  notActive hs := by cases hs
  active _ c hc := by rw [hobjects, if_pos hc]
  deactivating hs := by cases hs
  free c hc := by
    rw [hobjects, if_neg hc]
    exact h.free c hc

theorem Consistent.deactivate (h : Consistent synchronous state children objects)
    (hobjects : ∀ c, objects' c = if c ∈ children then quiet synchronous
    (objects c) else objects c) : Consistent synchronous .deactivating children objects' where
  notActive hs := by cases hs
  active hs := by cases hs
  deactivating _ c hc := by
    rw [hobjects, if_pos hc]
    exact ⟨quiet_ne_active, quiet_sync⟩
  free c hc := by
    rw [hobjects, if_neg hc]
    exact h.free c hc

theorem Consistent.clear (h : Consistent synchronous state children objects)
    (hobjects : ∀ c, objects' c = if c ∈ children then .notActive else objects c) :
    Consistent synchronous .notActive [] objects' := by
  refine .of_notActive (fun c hc => absurd hc List.not_mem_nil) fun c _ => ?_
  rw [hobjects]
  split
  · decide
  · rename_i hc
    exact h.free c hc

omit [DecidableEq κ] in
theorem Consistent.waitChild (h : Consistent synchronous state children objects)
    (hobjects : ∀ c, objects' c = objects c ∨ objects' c = (objects c).waited) :
    Consistent synchronous state children objects' where
  notActive hs c hc := by
    rcases hobjects c with he | he <;> rw [he, h.notActive hs c hc]
    rfl
  active hs c hc := by
    rcases hobjects c with he | he <;> rw [he, h.active hs c hc]
    rfl
  deactivating hs c hc := by
    obtain ⟨hne, hsync⟩ := h.deactivating hs c hc
    rcases hobjects c with he | he
    · rw [he]
      exact ⟨hne, hsync⟩
    · rw [he]
      exact ⟨fun ha => hne (waited_eq_active_iff.mp ha), fun _ => waited_of_ne_active hne⟩
  free c hc := by
    rcases hobjects c with he | he
    · rw [he]
      exact h.free c hc
    · rw [he]
      exact waited_ne_deactivating

theorem Consistent.adopt (h : Consistent synchronous s.state s.childObjects s.objects)
    (hadopt : s.adopt child = some state) : (s.state = .active → state = .active) ∧
      (s.state ≠ .active → state = .notActive ∨ (state = s.objects child ∧ child ∈ s.childObjects)) := by
  rw [State.adopt] at hadopt
  split at hadopt
  · rename_i hactive
    refine ⟨fun _ => ?_, fun hne => absurd hactive hne⟩
    split at hadopt
    · exact (Option.some.inj hadopt).symm
    · cases hobject : s.objects child with
      | active => contradiction
      | deactivating =>
          rw [hobject] at hadopt
          cases hadopt
      | notActive =>
          rw [hobject] at hadopt
          exact (Option.some.inj hadopt).symm
  · rename_i hactive
    refine ⟨fun ha => absurd ha hactive, fun _ => ?_⟩
    split at hadopt
    · rename_i hobject
      rw [hobject] at hadopt
      exact .inl (Option.some.inj hadopt).symm
    · rename_i hobject
      obtain rfl := Option.some.inj hadopt
      by_cases hmem : child ∈ s.childObjects
      · exact .inr ⟨rfl, hmem⟩
      · refine .inl ?_
        cases hstate : s.objects child with
        | active => contradiction
        | deactivating => exact absurd hstate (h.free child hmem)
        | notActive => rfl

theorem Consistent.add (h : Consistent synchronous s.state s.childObjects s.objects) (hadopt : s.adopt child = some state)
    (hchildren : ∀ c, c ∈ children' ↔ c = child ∨ c ∈ s.childObjects) :
    Consistent synchronous s.state children' (setObject s.objects child state) := by
  obtain ⟨hactive, hother⟩ := h.adopt hadopt
  have hcases : ∀ c ∈ children', (c = child ∧ setObject s.objects child state c = state) ∨
      (c ∈ s.childObjects ∧ setObject s.objects child state c = s.objects c) := by
    intro c hc
    by_cases he : c = child
    · exact .inl ⟨he, he ▸ setObject_self⟩
    · exact .inr ⟨((hchildren c).mp hc).resolve_left he, setObject_of_ne he⟩
  refine ⟨fun hs c hc => ?_, fun hs c hc => ?_, fun hs c hc => ?_, fun c hc => ?_⟩
  · rcases hcases c hc with ⟨-, he⟩ | ⟨hmem, he⟩
    · rcases hother (by rw [hs]; decide) with hstate | ⟨hstate, hmem⟩
      · rw [he, hstate]
      · rw [he, hstate, h.notActive hs child hmem]
    · rw [he, h.notActive hs c hmem]
  · rcases hcases c hc with ⟨-, he⟩ | ⟨hmem, he⟩
    · rw [he, hactive hs]
    · rw [he, h.active hs c hmem]
  · rcases hcases c hc with ⟨-, he⟩ | ⟨hmem, he⟩
    · rcases hother (by rw [hs]; decide) with hstate | ⟨hstate, hmem⟩
      · rw [he, hstate]
        exact ⟨by decide, fun _ => rfl⟩
      · rw [he, hstate]
        exact h.deactivating hs child hmem
    · rw [he]
      exact h.deactivating hs c hmem
  · obtain ⟨hne, hmem⟩ := not_or.mp fun hor => hc ((hchildren c).mpr hor)
    rw [setObject_of_ne hne]
    exact h.free c hmem

/-! ## 待っている呼び出し -/

/-- 待っている呼び出しは、活動していない子のほかは、どの子もこれから待つ。 -/
def WaitPoint.Tracks (children : List κ) (objects : κ → ActiveState) : WaitPoint κ → Prop
  | .children rest inside =>
      (∀ c ∈ children, objects c = .notActive ∨ c ∈ rest) ∧ (inside = true → ∀ c, rest.head? = some c → objects c ≠ .active)
  | _ => True

variable {waiters : List (Waiter κ)}

/-- 写した後に始まった活動のない呼び出しは、まだ待つべき子を並びに持つ。 -/
def Tracked (children : List κ) (objects : κ → ActiveState) (waiters : List (Waiter κ)) : Prop :=
  ∀ w ∈ waiters, w.stale = false → w.point.Tracks children objects

omit [DecidableEq κ] in
theorem Tracked.mono (h : Tracked children objects waiters)
    (hkeep : ∀ c ∈ children', objects' c ≠ .notActive → c ∈ children ∧ objects c ≠ .notActive)
    (hactive : ∀ c, objects' c = .active → objects c = .active) : Tracked children' objects' waiters := by
  intro w hw hstale
  have htracks := h w hw hstale
  cases hpoint : w.point with
  | children rest inside =>
      rw [hpoint] at htracks
      obtain ⟨hrest, hinside⟩ := htracks
      refine ⟨fun c hc => ?_, fun hin c hhead ha => hinside hin c hhead (hactive c ha)⟩
      by_cases hobject : objects' c = .notActive
      · exact .inl hobject
      · obtain ⟨hmem, hne⟩ := hkeep c hc hobject
        exact .inr ((hrest c hmem).resolve_left hne)
  | entering => trivial
  | copying => trivial
  | returned => trivial

omit [DecidableEq κ] in
theorem Tracked.markStale (waiters : List (Waiter κ)) : Tracked children objects (markStale waiters) := by
  intro w hw hstale
  obtain ⟨w', -, rfl⟩ := List.mem_map.mp hw
  cases hstale

theorem Tracked.deactivate (h : Tracked children objects waiters)
    (hobjects : ∀ c, objects' c = if c ∈ children then quiet synchronous (objects c) else objects
    c) : Tracked children objects' waiters := by
  refine h.mono (fun c hc hne => ⟨hc, fun he => hne ?_⟩) fun c hc => ?_
  · rw [hobjects, if_pos hc, quiet_eq_notActive_of he]
  · rw [hobjects] at hc
    split at hc
    · exact absurd hc quiet_ne_active
    · exact hc

theorem Tracked.add (h : Tracked children objects waiters)
    (hstate : state = .notActive ∨ (state = objects child ∧ child ∈ children))
    (hchildren : ∀ c, c ∈ children' ↔ c = child ∨ c ∈ children) : Tracked children'
    (setObject objects child state) waiters := by
  refine h.mono (fun c hc hne => ?_) fun c hc => ?_
  · by_cases he : c = child
    · subst he
      rw [setObject_self] at hne
      rcases hstate with hstate | ⟨hstate, hmem⟩
      · exact absurd hstate hne
      · exact ⟨hmem, hstate ▸ hne⟩
    · rw [setObject_of_ne he] at hne
      exact ⟨((hchildren c).mp hc).resolve_left he, hne⟩
  · by_cases he : c = child
    · subst he
      rw [setObject_self] at hc
      rcases hstate with hstate | ⟨hstate, -⟩
      · rw [hstate] at hc
        cases hc
      · rw [← hstate, hc]
    · rwa [setObject_of_ne he] at hc

omit [DecidableEq κ] in
theorem Tracked.clear (h : Tracked children objects waiters)
    (hobjects : ∀ c, objects' c = .notActive ∨ objects' c = objects c) :
    Tracked [] objects' waiters := by
  refine h.mono (fun c hc => absurd hc List.not_mem_nil) fun c hc => ?_
  rcases hobjects c with he | he
  · rw [he] at hc
    cases hc
  · rwa [he] at hc

omit [DecidableEq κ] in
theorem Tracked.waitChild (h : Tracked children objects waiters)
    (hobjects : ∀ c, objects' c = objects c ∨ objects' c = (objects c).waited) :
    Tracked children objects' waiters := by
  refine h.mono (fun c hc hne => ⟨hc, fun hc' => hne ?_⟩) fun c hc => ?_
  · rcases hobjects c with he | he <;> rw [he, hc']
    rfl
  · rcases hobjects c with he | he
    · rwa [he] at hc
    · rw [he] at hc
      exact waited_eq_active_iff.mp hc

structure State.Inv (synchronous : Bool) (s : State κ) : Prop where
  consistent : Consistent synchronous s.state s.childObjects s.objects
  tracked : Tracked s.childObjects s.objects s.waiters

/-! ## 動作 -/

theorem State.Inv.activate (hi : s.Inv synchronous) (h : s.activateObject synchronous = some t) : t.Inv synchronous := by
  rcases activateObject_cases h with ⟨objects, -, hobjects, rfl⟩ | rfl
  · exact ⟨hi.consistent.activate hobjects, .markStale s.waiters⟩
  · exact hi

theorem State.Inv.deactivate (hi : s.Inv synchronous) : (s.deactivateObject synchronous).Inv synchronous := by
  rw [State.deactivateObject]
  split
  · have hobjects : ∀ c, deactivateChildren synchronous s.objects s.childObjects.reverse c =
        if c ∈ s.childObjects then quiet synchronous (s.objects c) else s.objects c := by
      intro c
      rw [deactivateChildren_apply]
      simp only [List.mem_reverse]
    exact ⟨hi.consistent.deactivate hobjects, hi.tracked.deactivate hobjects⟩
  · exact hi

omit [DecidableEq κ] in
theorem mem_addChild {addToHead : Bool} :
    c ∈ (if addToHead then child :: children else children ++ [child]) ↔ c = child ∨ c ∈ children := by
  cases addToHead with
  | true => exact List.mem_cons
  | false =>
      rw [if_neg Bool.false_ne_true, List.mem_append, List.mem_singleton]
      exact or_comm

theorem State.Inv.addChild {addToHead : Bool} (hi : s.Inv synchronous) :
    (s.addChildObject child addToHead).Inv synchronous := by
  rw [State.addChildObject]
  split
  · rename_i state hadopt
    refine ⟨hi.consistent.add hadopt fun c => mem_addChild, ?_⟩
    by_cases hs : s.state = .active
    · rw [if_pos hs]
      exact .markStale s.waiters
    · rw [if_neg hs]
      exact hi.tracked.add ((hi.consistent.adopt hadopt).2 hs) fun c => mem_addChild
  · exact hi

theorem State.Inv.clear (hi : s.Inv synchronous) (h : s.clearChildren synchronous = some t) : t.Inv synchronous := by
  rcases clearChildren_cases h with ⟨hstate, rfl⟩ | ⟨objects, hobjects, rfl⟩
  · have hsame : ∀ c, s.objects c = if c ∈ s.childObjects then .notActive else s.objects c := by
      intro c
      split
      · exact hi.consistent.notActive hstate c ‹_›
      · rfl
    refine ⟨?_, hi.tracked.clear fun c => .inr rfl⟩
    show Consistent synchronous s.state [] s.objects
    rw [hstate]
    exact hi.consistent.clear hsame
  · have hcases : ∀ c, objects c = .notActive ∨ objects c = s.objects c := by
      intro c
      rw [hobjects]
      split
      · exact .inl rfl
      · exact .inr rfl
    exact ⟨hi.consistent.clear hobjects, hi.tracked.clear hcases⟩

/-- 並びの終わりに達した呼び出しが、写した後に活動の始まった合成を、止まったとする歩み。 -/
def overtaken (synchronous : Bool) (s : State κ) : Action κ → Bool
  | .wait i =>
      match s.waiters[i]? with
      | some ⟨.children [] _, stale⟩ => s.state = .deactivating ∧ synchronous = false ∧ stale = true
      | _ => false
  | _ => false

theorem State.Inv.waitStep (hi : s.Inv synchronous) (hw : s.waiters[i]? = some w)
    (hok : overtaken synchronous s (.wait i) = false)
    (h : s.waitStep i w = some t) : t.Inv synchronous := by
  have htracks := hi.tracked w (List.mem_of_getElem? hw)
  obtain ⟨point, stale⟩ := w
  rw [State.waitStep] at h
  cases point with
  | entering =>
      simp only at h
      split at h
      · cases h
      · obtain rfl := Option.some.inj h
        exact ⟨hi.consistent, forall_mem_set hi.tracked fun _ => trivial⟩
  | copying =>
      obtain rfl := Option.some.inj h
      exact ⟨hi.consistent,
        forall_mem_set hi.tracked fun _ => ⟨fun c hc => .inr (List.mem_reverse.mpr hc), fun hinside => by cases hinside⟩⟩
  | returned => cases h
  | children rest inside =>
      cases rest with
      | nil =>
          obtain rfl := Option.some.inj h
          refine ⟨?_, forall_mem_set hi.tracked fun _ => trivial⟩
          show Consistent synchronous s.state.waited s.childObjects s.objects
          have hconsistent := hi.consistent
          cases hstate : s.state with
          | active => rwa [hstate] at hconsistent
          | notActive => rwa [hstate] at hconsistent
          | deactivating =>
              refine .of_notActive (fun c hc => ?_) hi.consistent.free
              simp only [overtaken, hw, hstate, true_and, decide_eq_false_iff_not, not_and, Bool.not_eq_true] at hok
              cases hsync : synchronous with
              | true => exact (hi.consistent.deactivating hstate c hc).2 hsync
              | false => exact ((htracks (hok hsync)).1 c hc).resolve_right List.not_mem_nil
      | cons child rest =>
          cases inside with
          | false =>
              simp only at h
              split at h
              · cases h
              · rename_i hne
                obtain rfl := Option.some.inj h
                refine ⟨hi.consistent, forall_mem_set hi.tracked fun hstale => ⟨(htracks hstale).1, fun _ c hhead => ?_⟩⟩
                rwa [← Option.some.inj hhead]
          | true =>
              obtain rfl := Option.some.inj h
              have hobjects : ∀ c, setObject s.objects child (s.objects child).waited c = s.objects c ∨
                  setObject s.objects child (s.objects child).waited c = (s.objects c).waited := by
                intro c
                by_cases he : c = child
                · exact .inr (he ▸ setObject_self)
                · exact .inl (setObject_of_ne he)
              refine ⟨hi.consistent.waitChild hobjects, forall_mem_set (hi.tracked.waitChild hobjects) fun hstale =>
                ⟨fun c hc => ?_, fun hinside => by cases hinside⟩⟩
              · obtain ⟨hrest, hinside⟩ := htracks hstale
                by_cases he : c = child
                · subst he
                  exact .inl (setObject_self.trans (waited_of_ne_active (hinside rfl c rfl)))
                · simp only [setObject_of_ne he]
                  rcases hrest c hc with hnot | hmem
                  · exact .inl hnot
                  · exact .inr ((List.mem_cons.mp hmem).resolve_left he)

theorem State.Inv.step (hi : s.Inv synchronous) (hok : overtaken synchronous s action = false)
    (h : CompositeActiveObject.step synchronous s action = some t) : t.Inv synchronous := by
  cases action with
  | activate => exact hi.activate h
  | deactivate => exact Option.some.inj h ▸ hi.deactivate
  | addChild child addToHead => exact Option.some.inj h ▸ hi.addChild
  | clearChildren => exact hi.clear h
  | waitCall =>
      obtain rfl := Option.some.inj h
      refine ⟨hi.consistent, fun w hw => ?_⟩
      rcases List.mem_append.mp hw with hw | hw
      · exact hi.tracked w hw
      · obtain rfl := List.mem_singleton.mp hw
        exact fun _ => trivial
  | wait i =>
      obtain ⟨w, hw, hstep⟩ := Option.bind_eq_some_iff.mp h
      exact hi.waitStep hw hok hstep

omit [DecidableEq κ] in
theorem State.Inv.init (h : ∀ c, objects c ≠ .deactivating) : (State.init objects).Inv synchronous :=
  ⟨.of_notActive (fun _ hc => absurd hc List.not_mem_nil) fun c _ => h c, fun _ hw => absurd hw List.not_mem_nil⟩

end UnixCommons.Generics.CompositeActiveObject

namespace UnixCommons.Generics.CompositeActiveObject.Throwing

variable {κ : Type} {throws : Throws κ} {synchronous : Bool} {rit l activated : List κ} {child : κ} {calls : List (Call κ)}

/-! ## 例外を投げる子の後始末 -/

def childrenOf (method : Method) (calls : List (Call κ)) : List κ := (calls.filter (·.method = method)).map Call.child

@[simp] theorem childrenOf_append (method : Method) (calls calls' : List (Call κ)) :
    childrenOf method (calls ++ calls') = childrenOf method calls ++ childrenOf method calls' := by
  simp [childrenOf]

structure RollsBack (activated : List κ) (calls : List (Call κ)) : Prop where
  deactivated : childrenOf .deactivateObject calls = activated.reverse
  waited : ∃ rounds, 0 < rounds ∧ childrenOf .waitObject calls = (List.replicate rounds activated.reverse).flatten
  ordered : ∀ child ∈ activated, List.Sublist [⟨child, .deactivateObject⟩, ⟨child, .waitObject⟩] calls
  untouched : ∀ call ∈ calls, call.child ∈ activated ∧ call.method ≠ .activateObject

def started (throws : Throws κ) (l : List κ) : List κ := l.takeWhile fun child => throws child .activateObject = none

theorem activateLoop_eq (throws : Throws κ) (rit l : List κ) :
    activateLoop throws rit l = ((started throws l).reverse ++ rit,
      match l.drop (started throws l).length with
      | [] => ⟨l.map (⟨·, .activateObject⟩), none⟩
      | child :: _ => ⟨(started throws l ++ [child]).map (⟨·, .activateObject⟩), throws child .activateObject⟩) := by
  induction l generalizing rit with
  | nil => rfl
  | cons child rest ih =>
      rw [activateLoop, started, List.takeWhile_cons]
      cases hthrow : throws child .activateObject with
      | some what => simp [hthrow]
      | none =>
          have hrest := ih (child :: rit)
          rw [started] at hrest
          simp only [decide_true, if_true, hrest, List.length_cons, List.drop_succ_cons,
            List.reverse_cons, List.append_assoc, List.singleton_append]
          congr 1
          cases rest.drop (rest.takeWhile fun child => decide (throws child .activateObject = none)).length <;> rfl

theorem throws_of_drop {rest : List κ} (h : l.drop (started throws l).length = child :: rest) :
    throws child .activateObject ≠ none := by
  have hdrop : l.drop (started throws l).length = l.dropWhile fun child => throws child .activateObject = none := by
    have hsplit : started throws l ++ l.dropWhile
        (fun child => throws child .activateObject = none) = l := List.takeWhile_append_dropWhile
    exact (congrArg (List.drop (started throws l).length) hsplit.symm).trans List.drop_left
  rw [hdrop] at h
  have hhead := List.head_dropWhile_not (fun child => decide (throws child .activateObject = none))
      (by rw [h]; exact List.cons_ne_nil child rest)
  simp only [h, List.head_cons] at hhead
  simpa using hhead

theorem collectErrors_iff {body : κ → Outcome κ} (errors : String) :
    rit.foldl (fun errors child => (body child).thrown.elim errors (errors ++ · ++ "\n"))
      errors = "" ↔ errors = "" ∧ ∀ child ∈ rit, (body child).thrown = none := by
  induction rit generalizing errors with
  | nil => simp
  | cons child rit ih =>
      rw [List.foldl_cons, ih, List.forall_mem_cons, ← and_assoc]
      refine and_congr_left' ?_
      cases (body child).thrown with
      | none => simp
      | some what => simp

theorem collect_thrown_iff {header : String} {body : κ → Outcome κ} :
    (collect header body rit).thrown = none ↔ ∀ child ∈ rit, (body child).thrown = none := by
  have hjoin := @collectErrors_iff κ rit body ""
  rw [collect]
  dsimp only
  split_ifs with h
  · exact iff_of_true rfl (hjoin.mp h).2
  · exact iff_of_false (fun h => nomatch h) fun hall => h (hjoin.mpr ⟨rfl, hall⟩)

theorem stopChild_calls (h : throws child .deactivateObject = none) :
    (stopChild throws synchronous child).calls = ⟨child, .deactivateObject⟩ :: if synchronous
    then [⟨child, .waitObject⟩] else [] := by
  rw [stopChild, invoke, Outcome.andThen]
  simp only [h]
  cases synchronous <;> rfl

theorem stopChild_throws (h : throws child .deactivateObject ≠ none) :
    (stopChild throws synchronous child).calls = [⟨child, .deactivateObject⟩] ∧
    (stopChild throws synchronous child).thrown ≠ none := by
  obtain ⟨what, hwhat⟩ := Option.ne_none_iff_exists'.mp h
  rw [stopChild, invoke, Outcome.andThen]
  simp [hwhat]

theorem stopChild_child : ∀ call ∈ (stopChild throws synchronous child).calls, call.child = child ∧
    call.method ≠ .activateObject := by
  rw [stopChild, invoke, Outcome.andThen]
  cases throws child .deactivateObject with
  | some what => simp
  | none => cases synchronous <;> simp [invoke]

theorem rollBack_calls (throws : Throws κ) (synchronous : Bool) (rit : List κ) :
    (rollBack throws synchronous rit).calls = (rit.flatMap fun child => (stopChild throws synchronous child).calls) ++
      if ∀ child ∈ rit, (stopChild throws synchronous child).thrown = none then rit.map (⟨·, .waitObject⟩) else [] := by
  have hwait : (waitForSomeObjects throws rit).calls = rit.map (⟨·, .waitObject⟩) := List.map_eq_flatMap.symm
  have hthrown : (deactivateChildren throws synchronous rit).thrown = none ↔ ∀ child ∈ rit,
      (stopChild throws synchronous child).thrown = none :=
    collect_thrown_iff
  rw [rollBack, Outcome.andThen]
  cases hdeactivate : (deactivateChildren throws synchronous rit).thrown with
  | none =>
      rw [if_pos (hthrown.mp hdeactivate)]
      dsimp only
      rw [hwait]
      rfl
  | some what =>
      rw [if_neg (fun hall => by rw [hthrown.mpr hall] at hdeactivate; cases hdeactivate), List.append_nil]
      rfl

theorem rollBack_waits
    (h : (⟨child, .waitObject⟩ : Call κ) ∈ (rollBack throws synchronous rit).calls) :
    throws child .deactivateObject = none := by
  by_contra hthrow
  rw [rollBack_calls] at h
  rcases List.mem_append.mp h with h | h
  · obtain ⟨child', -, hcall⟩ := List.mem_flatMap.mp h
    obtain rfl : child = child' := (stopChild_child _ hcall).1
    rw [(stopChild_throws hthrow).1] at hcall
    simp at hcall
  · split_ifs at h with hall
    · obtain ⟨child', hmem, hcall⟩ := List.mem_map.mp h
      obtain rfl : child' = child := congrArg Call.child hcall
      exact (stopChild_throws hthrow).2 (hall child' hmem)
    · cases h

theorem childrenOf_stop (h : ∀ child ∈ rit, throws child .deactivateObject = none) :
    childrenOf .deactivateObject (rit.flatMap fun child => (stopChild throws synchronous child).calls) = rit ∧
      childrenOf .waitObject (rit.flatMap fun child => (stopChild throws synchronous child).calls) =
      if synchronous then rit else [] := by
  induction rit with
  | nil => cases synchronous <;> exact ⟨rfl, rfl⟩
  | cons child rit ih =>
      obtain ⟨hchild, hrest⟩ := List.forall_mem_cons.mp h
      obtain ⟨hdeactivate, hwait⟩ := ih hrest
      rw [List.flatMap_cons, childrenOf_append, childrenOf_append, hdeactivate, hwait, stopChild_calls hchild]
      cases synchronous <;> exact ⟨rfl, rfl⟩

theorem childrenOf_map (method method' : Method) (rit : List κ) :
    childrenOf method (rit.map (⟨·, method'⟩)) = if method' = method then rit else [] := by
  split_ifs with h
  · simp [childrenOf, h, List.filter_map, Function.comp_def]
  · simp [childrenOf, h, List.filter_map, Function.comp_def]

theorem rollsBack (h : ∀ child ∈ activated, throws child .deactivateObject = none) :
    RollsBack activated (rollBack throws synchronous activated.reverse).calls := by
  have hreverse : ∀ child ∈ activated.reverse, throws child .deactivateObject = none :=
    fun child hmem => h child (List.mem_reverse.mp hmem)
  obtain ⟨hdeactivate, hwait⟩ := @childrenOf_stop κ throws synchronous activated.reverse hreverse
  have hsilent : synchronous = false → ∀ child ∈ activated.reverse, (stopChild throws synchronous child).thrown = none := by
    rintro rfl child hmem
    rw [stopChild, invoke, Outcome.andThen]
    simp [hreverse child hmem]
  rw [rollBack_calls]
  refine ⟨?_, ?_, ?_, ?_⟩
  · rw [childrenOf_append, hdeactivate]
    split_ifs
    · rw [childrenOf_map, if_neg (by decide), List.append_nil]
    · exact List.append_nil _
  · rw [childrenOf_append, hwait]
    cases synchronous with
    | false =>
        rw [if_pos (hsilent rfl), childrenOf_map]
        exact ⟨1, Nat.one_pos, by simp⟩
    | true =>
        rw [if_pos rfl]
        split_ifs
        · rw [childrenOf_map]
          exact ⟨2, Nat.two_pos, by simp [List.replicate_succ]⟩
        · exact ⟨1, Nat.one_pos, by simp [childrenOf]⟩
  · intro child hmem
    have hcalls := @stopChild_calls κ throws synchronous child (h child hmem)
    have hsub : List.Sublist (stopChild throws synchronous child).calls
        (activated.reverse.flatMap fun child => (stopChild throws synchronous child).calls) :=
      List.sublist_flatten_of_mem (List.mem_map_of_mem (List.mem_reverse.mpr hmem))
    rw [hcalls] at hsub
    cases synchronous with
    | true => exact hsub.trans (List.sublist_append_left _ _)
    | false =>
        rw [if_pos (hsilent rfl)]
        exact hsub.append (List.singleton_sublist.mpr (List.mem_map_of_mem (List.mem_reverse.mpr hmem)))
  · intro call hcall
    rcases List.mem_append.mp hcall with hcall | hcall
    · obtain ⟨child, hmem, hcall⟩ := List.mem_flatMap.mp hcall
      obtain ⟨rfl, hmethod⟩ := stopChild_child call hcall
      exact ⟨List.mem_reverse.mp hmem, hmethod⟩
    · split_ifs at hcall
      · obtain ⟨child, hmem, rfl⟩ := List.mem_map.mp hcall
        exact ⟨List.mem_reverse.mp hmem, by simp⟩
      · cases hcall

end UnixCommons.Generics.CompositeActiveObject.Throwing
