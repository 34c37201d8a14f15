import UnixCommons.HTTP.Lemmas.HttpAsyncPool

/-!
# 接続の集まりの歩み

接続の条件と糸の条件を、書き込みの失敗しないどの歩みも保つ。
-/

namespace UnixCommons.HTTP.HttpAsyncPool

open Lib PoolPolicy

variable {cfg : Settings} {s t : State} {log : List Event} {e : Event} {c server : Nat}
    {o o' : ConnObject} {r : Option Connection} {delay : Int}

-- 歩みの等式を、歩みの補題が並べて使う前に、一度だけ作る。
attribute [local simp] step

/-! ## 出来事 -/

def connClosed (log : List Event) (c : Nat) : Prop := ∃ n, Event.connectionClosed c n ∈ log

def threadClosed (log : List Event) (t : Nat) : Prop := ∃ n, Event.threadClosed t n ∈ log

def Event.Empty : Event → Prop
  | .connectionClosed _ n | .threadClosed _ n => n = 0
  | _ => True

/-- 前の出来事が物を閉じたならば、後の出来事は、それを選びも、増やしもしない。 -/
def Event.Allowed : Event → Event → Prop
  | .connectionClosed c _, .connectionChosen c' | .connectionClosed c _, .requestAdded c' => c ≠ c'
  | .threadClosed t _, .threadChosen t' | .threadClosed t _, .connectionAdded t' => t ≠ t'
  | _, _ => True

structure LogOk (log : List Event) : Prop where
  empty : ∀ e ∈ log, e.Empty
  ordered : log.Pairwise Event.Allowed

theorem LogOk.note (h : LogOk log) (hempty : e.Empty) (hallowed : ∀ e' ∈ log, e'.Allowed e) : LogOk (log ++ [e]) := by
  constructor
  · intro e' he
    rcases List.mem_append.mp he with he | he
    · exact h.empty e' he
    · rwa [List.mem_singleton.mp he]
  · rw [List.pairwise_append]
    refine ⟨h.ordered, List.pairwise_singleton _ _, fun e' he x hx => ?_⟩
    rw [List.mem_singleton.mp hx]
    exact hallowed e' he

theorem allowed_connection (h : ¬ connClosed log c)
    (he : e = .connectionChosen c ∨ e = .requestAdded c) : ∀ e' ∈ log, e'.Allowed e := by
  intro e' hmem
  cases e' with
  | connectionClosed c' n =>
      have hne : c' ≠ c := by
        rintro rfl
        exact h ⟨n, hmem⟩
      rcases he with rfl | rfl
      · exact hne
      · exact hne
  | _ => rcases he with rfl | rfl <;> trivial

theorem allowed_thread {d : Nat} (h : ¬ threadClosed log d)
    (he : e = .threadChosen d ∨ e = .connectionAdded d) : ∀ e' ∈ log, e'.Allowed e := by
  intro e' hmem
  cases e' with
  | threadClosed d' n =>
      have hne : d' ≠ d := by
        rintro rfl
        exact h ⟨n, hmem⟩
      rcases he with rfl | rfl
      · exact hne
      · exact hne
  | _ => rcases he with rfl | rfl <;> trivial

theorem connClosed_note (h : connClosed (log ++ [e]) c) : connClosed log c ∨ ∃ n, e = .connectionClosed c n := by
  obtain ⟨n, hmem⟩ := h
  rcases List.mem_append.mp hmem with hmem | hmem
  · exact .inl ⟨n, hmem⟩
  · exact .inr ⟨n, (List.mem_singleton.mp hmem).symm⟩

theorem threadClosed_note {d : Nat} (h : threadClosed (log ++ [e]) d) : threadClosed log d ∨ ∃ n, e = .threadClosed d n := by
  obtain ⟨n, hmem⟩ := h
  rcases List.mem_append.mp hmem with hmem | hmem
  · exact .inl ⟨n, hmem⟩
  · exact .inr ⟨n, (List.mem_singleton.mp hmem).symm⟩

/-! ## 不変条件 -/

def places (conns : List ConnObject) : List (Option Nat) := conns.map (·.place.thread?)

structure Inv (cfg : Settings) (s : State) : Prop where
  conn : ConnInv cfg (connClosed s.log) s.conns s.policy.connections s.policy.servers s.sections
  thread : ThreadInv cfg (threadClosed s.log) (places s.conns) s.threads s.policy.threadStat s.sections s.pool
  log : LogOk s.log

theorem Inv.init : Inv cfg .init := by
  refine ⟨⟨?_, ?_, ?_, ?_, ?_, ?_, ?_, ?_⟩, ⟨?_, ?_, ?_, ?_, ?_, ?_, ?_, ?_⟩, ⟨?_, .nil⟩⟩
  all_goals simp [State.init, Policy.init, places, Policy.threadStat, connClosed, threadClosed]

theorem Inv.note (h : Inv cfg s) (hconn : ∀ c n, e ≠ .connectionClosed c n) (hthread : ∀ t n, e ≠ .threadClosed t n)
    (hallowed : ∀ e' ∈ s.log, e'.Allowed e) : Inv cfg (s.note [e]) := by
  have hempty : e.Empty := by
    cases e with
    | connectionClosed c n => exact absurd rfl (hconn c n)
    | threadClosed t n => exact absurd rfl (hthread t n)
    | _ => trivial
  refine ⟨h.conn.close fun d hd => ?_, h.thread.close fun d hd => ?_, h.log.note hempty hallowed⟩
  · rcases connClosed_note hd with hd | ⟨n, hn⟩
    · exact .inl hd
    · exact absurd hn (hconn d n)
  · rcases threadClosed_note hd with hd | ⟨n, hn⟩
    · exact .inl hd
    · exact absurd hn (hthread d n)

theorem Inv.not_connClosed (h : Inv cfg s) (hopen : nonClosing s.policy.connections c = true) : ¬ connClosed s.log c := by
  intro hc
  have hclosing := (h.conn.closing c hc).2
  rw [hopen] at hclosing
  cases hclosing

theorem Inv.not_threadClosed (h : Inv cfg s) {d : Nat} {x : SimpleStat}
    (hx : s.policy.threadStat d = some x) (hopen : x.state ≠ .closing) :
    ¬ threadClosed s.log d := fun hd => hopen ((h.thread.closing d hd).2 x hx)

theorem places_set (conns : List ConnObject) (c : Nat) (o : ConnObject) :
    places (conns.set c o) = (places conns).set c o.place.thread? := by
  simp [places, List.map_set]

theorem places_getElem? {conns : List ConnObject} (ho : conns[c]? = some o) : (places conns)[c]? = some o.place.thread? := by
  simp [places, ho]

theorem places_same {conns : List ConnObject} (o' : ConnObject) (ho : conns[c]? = some o)
    (h : o'.place.thread? = o.place.thread?) : places (conns.set c o') = places conns := by
  have hc := places_getElem? ho
  rw [places_set, h]
  obtain ⟨hlt, heq⟩ := List.getElem?_eq_some_iff.mp hc
  rw [← heq, List.set_getElem_self]

/-! ## 方針の記録 -/

theorem threadStat_update (p : Policy) (d : Nat) (x : Option Thread) :
    ({ p with thread := Function.update p.thread d x } : Policy).threadStat = Function.update
    p.threadStat d (x.map (·.toSimpleStat)) := by
  funext u
  by_cases hu : u = d
  · simp [Policy.threadStat, hu]
  · simp [Policy.threadStat, hu]

theorem threadConnectionAdded_stat (p : Policy) (d c : Nat) : (p.threadConnectionAdded d c).threadStat =
    Function.update p.threadStat d ((p.threadStat d).map fun x => ⟨.active, x.itemsCount + 1⟩) := by
  have hstat : (p.threadConnectionAdded d c).threadStat = Function.update p.threadStat d _ := threadStat_update ..
  rw [hstat, Option.map_map, Policy.threadStat, Option.map_map]
  rfl

theorem threadConnectionRemoved_stat (p : Policy) (d c : Nat) : (p.threadConnectionRemoved d c).threadStat =
    Function.update p.threadStat d ((p.threadStat d).map fun x => ⟨x.state, x.itemsCount - 1⟩) := by
  have hstat : (p.threadConnectionRemoved d c).threadStat = Function.update p.threadStat d _ := threadStat_update ..
  rw [hstat, Option.map_map, Policy.threadStat, Option.map_map]
  rfl

theorem whenCloseConnection_cases (cfg : Settings) (p : Policy) (c : Nat) :
    ((p.whenCloseConnection cfg c).1 = p ∧ (p.whenCloseConnection cfg c).2 = -1) ∨
      ∃ x map, p.connections c = some x ∧ (p.whenCloseConnection cfg c).2 =
      (whenCloseEntity cfg.connectionDelay c x.toSimpleStat map).2 ∧
        (p.whenCloseConnection cfg c).1 = { p with
          connections := Function.update p.connections c
            (some { x with state := (whenCloseEntity cfg.connectionDelay c x.toSimpleStat map).1 }) } := by
  unfold Policy.whenCloseConnection
  split
  · exact .inl ⟨rfl, rfl⟩
  · rename_i x hx
    split
    · exact .inl ⟨rfl, rfl⟩
    · exact .inr ⟨x, _, hx, rfl, rfl⟩

theorem whenCloseThread_cases (cfg : Settings) (p : Policy) (d : Nat) :
    ((p.whenCloseThread cfg d).1 = p ∧ (p.whenCloseThread cfg d).2 = -1) ∨
      ∃ x map, p.threadStat d = some x ∧ (p.whenCloseThread cfg d).2 = (whenCloseEntity cfg.threadDelay d x map).2 ∧
        (p.whenCloseThread cfg d).1.connections = p.connections ∧
        (p.whenCloseThread cfg d).1.servers = p.servers ∧ (p.whenCloseThread cfg d).1.threadStat =
          Function.update p.threadStat d (some ⟨(whenCloseEntity cfg.threadDelay d x map).1, x.itemsCount⟩) := by
  unfold Policy.whenCloseThread
  split
  · exact .inl ⟨rfl, rfl⟩
  · rename_i x hx
    exact .inr ⟨x.toSimpleStat, _, by simp [Policy.threadStat, hx], rfl, rfl, rfl, threadStat_update _ _ _⟩

/-! ## 接続の記録 -/

theorem ConnOk.map (h : ConnOk delay o r) (o' : ConnObject) (f : Connection → Connection)
    (hlisted : o'.listed = o.listed) (hplace : o'.place.thread?.isSome = o.place.thread?.isSome)
    (hf : ∀ x, r = some x → RecordOk delay o x → RecordOk delay o' (f x)) :
    ConnOk delay o' (r.map f) := by
  constructor
  · rw [Option.isSome_map, h.present, hlisted, hplace]
  · intro y hy
    obtain ⟨x, hx, rfl⟩ := Option.map_eq_some_iff.mp hy
    exact hf x hx (h.record x hx)

theorem ConnOk.same (h : ConnOk delay o r) (hlisted : o'.listed = o.listed) (hserver : o'.server = o.server)
    (hplace : o'.place.thread? = o.place.thread?) (hcount : o'.calls + o'.failed + o'.held = o.calls + o.failed + o.held) :
    ConnOk delay o' r := by
  have hmap := h.map o' id hlisted (congrArg Option.isSome hplace) fun x _ hx =>
    ⟨hx.stat, by have := hx.items; simp only [id]; omega,
      by simpa [hlisted, hserver] using hx.server, by simpa [hplace] using hx.thread⟩
  rwa [Option.map_id, id] at hmap

theorem ConnOk.requestRemoved (h : ConnOk delay o r) (hlisted : o'.listed = o.listed) (hserver : o'.server = o.server)
    (hplace : o'.place = o.place) (hcount : o'.calls + o'.failed + o'.held + 1 = o.calls + o.failed + o.held) :
    ConnOk delay o' (r.map fun x => { x with itemsCount := x.itemsCount - 1 }) := by
  apply h.map _ _ hlisted (by rw [hplace])
  intro x _ hx
  have hitems := hx.items
  refine ⟨⟨fun h₁ h₂ => ?_, hx.stat.waits⟩, ?_,
    by simpa [hlisted, hserver] using hx.server, by simpa [hplace] using hx.thread⟩
  · -- 空の接続からは、要求は減らない。
    have hempty := hx.stat.idle h₁ h₂
    omega
  · simp only
    omega

theorem ConnOk.threadRemoved (h : ConnOk delay o r) {place : Place}
    (hplace : place.thread? = none) : ConnOk delay { o with place := place }
      (r.bind fun x => if x.server.isSome then some { x with thread := none } else none) := by
  cases r with
  | none =>
      have hpresent := h.present
      simp only [Option.isSome_none, Bool.false_eq, Bool.or_eq_false_iff] at hpresent
      exact ⟨by simp [hpresent.1, hplace], by simp⟩
  | some x =>
      have hx := h.record x rfl
      rw [Option.bind_some, hx.server]
      cases hl : o.listed with
      | true =>
          refine ⟨by simp, fun y hy => ?_⟩
          cases hy
          exact ⟨hx.stat, hx.items, by simp, hplace.symm⟩
      | false => exact ⟨by simp [hplace], by simp⟩

theorem nonClosing_threadRemoved {connections : Nat → Option Connection}
    (h : ((connections c).bind fun x => if x.server.isSome then some { x with thread := none }
    else none).any (·.state != .closing) = true) : nonClosing connections c = true := by
  cases hr : connections c with
  | none => simp [hr] at h
  | some x =>
      rw [hr, Option.bind_some] at h
      split at h
      · simpa [nonClosing, hr] using h
      · cases h

/-! ## `Server::add_request` の歩み -/

namespace Inv

theorem holder (h : Inv cfg s) {sec : Section} (hsec : s.sections server = some sec)
    (hc : sec.conn? = some c) (ho : s.conns[c]? = some o) :
    sec.Holds server o (s.policy.connections c) := by
  obtain ⟨o', ho', hold⟩ := h.conn.sect server sec c hsec hc
  rw [ho] at ho'
  cases ho'
  exact hold

theorem serverAdded (h : Inv cfg s) : Inv cfg { s with policy := s.policy.serverAdded server } := by
  unfold Policy.serverAdded
  split
  · exact h
  · rename_i hnone
    exact ⟨h.conn.serverAdded hnone, h.thread, h.log⟩

theorem chooseConnection (h : Inv cfg s) (hstep : step cfg s (.chooseConnection server) = some t) : Inv cfg t := by
  simp only [step] at hstep
  split at hstep
  · rename_i ptrs _ hptrs
    split at hstep
    · rename_i hchoose
      cases hstep
      obtain ⟨hp, hlt⟩ := chooseConnection_none hptrs hchoose
      have hconn := h.conn.enter server (some .special) (by simp [hptrs]) (fun _ ptrs' hptrs' => by
        rw [hptrs] at hptrs'
        cases hptrs'
        exact hlt) (fun _ _ hsec hc => by cases hsec; cases hc)
      rw [hp]
      exact ⟨hconn, h.thread.outside _ _ (by simp [Section.inPool]), h.log⟩
    · rename_i c hchoose
      obtain ⟨ptrs', x, hptrs', hmem, hx, hopen, hp⟩ := chooseConnection_some hchoose
      obtain ⟨o, ho, rfl, hlisted⟩ := ((h.conn.list server ptrs' hptrs').2 c).mp hmem
      have hnon : nonClosing s.policy.connections c = true := nonClosing_iff.mpr ⟨x, hx, hopen⟩
      have hok := h.conn.conn c o ho
      have hconn := h.conn.update o (some { x with state := .activeAwaiting }) (some (.ready c)) ho rfl rfl
        ⟨by rw [← hok.present, hx]; rfl, fun y hy => by
          cases hy
          have hrec := hok.record x hx
          exact ⟨.awaiting rfl, hrec.items, hrec.server, hrec.thread⟩⟩
        (fun _ => hnon) (by simp) (fun sec hsec _ => by
          cases hsec
          exact ⟨rfl, hlisted, trivial, _, rfl, rfl⟩)
        (fun sec d hsec hd hne => by
          cases hsec
          cases hd
          exact absurd rfl hne)
      have hset : s.conns.set c o = s.conns := by
        obtain ⟨hlt, heq⟩ := List.getElem?_eq_some_iff.mp ho
        rw [← heq, List.set_getElem_self]
      rw [hset] at hconn
      simp only [ho, hlisted, hp, and_self, if_true, Option.some.injEq] at hstep
      cases hstep
      exact Inv.note ⟨hconn, h.thread.outside _ _ (by simp [Section.inPool]), h.log⟩
        (by simp) (by simp) (allowed_connection (h.not_connClosed hnon) (.inl rfl))
  · cases hstep

theorem create (h : Inv cfg s) {position : Nat} (hstep : step cfg s (.create server position) = some t) : Inv cfg t := by
  simp only [step] at hstep
  split at hstep
  · rename_i hsec
    cases hstep
    have hconn := h.conn.create position hsec
    have hfresh : s.policy.connections s.conns.length = none := h.conn.fresh _ (Nat.le_refl _)
    refine ⟨?_, ?_, h.log⟩
    · simpa only [State.enter, Policy.serverConnectionAdded, hfresh, Option.getD_none] using hconn
    · have hplaces : places (s.conns ++ [ConnObject.new server]) = places s.conns ++ [none] := by
        simp [places, ConnObject.new, Place.thread?]
      simp only [State.enter, hplaces]
      exact h.thread.append.outside _ _ (by simp [Section.inPool])
  · cases hstep

theorem createFails (h : Inv cfg s) (hstep : step cfg s (.createFails server) = some t) : Inv cfg t := by
  simp only [step] at hstep
  split at hstep
  · rename_i hsec
    cases hstep
    exact ⟨h.conn.enter server _ (h.conn.entered server _ hsec) (by simp) (by simp), h.thread.outside _ _ (by simp), h.log⟩
  · cases hstep

theorem chooseThread (h : Inv cfg s) (hstep : step cfg s (.chooseThread server) = some t) : Inv cfg t := by
  simp only [step] at hstep
  split at hstep
  · rename_i c hsec hpool
    have hthread := h.thread
    rw [hpool] at hthread
    split at hstep
    · rename_i hchoose
      cases hstep
      refine ⟨h.conn.advance hsec rfl (by simp) (fun _ hp => hp), ?_, h.log⟩
      simp only [State.enter, chooseThread_none hchoose]
      exact hthread.acquire (by simp)
    · rename_i d hchoose
      cases hstep
      obtain ⟨x, hx, hopen, hlt, hstat⟩ := chooseThread_some hchoose
      refine Inv.note ⟨h.conn.advance hsec rfl (by simp) (fun _ hp => hp), ?_, h.log⟩
        (by simp) (by simp) (allowed_thread (h.not_threadClosed hx hopen) (.inl rfl))
      simp only [State.enter, hstat]
      refine (hthread.choose hx hopen).acquire fun c' d' heq => ?_
      cases heq
      exact ⟨_, Function.update_self .., rfl, by simp only; omega⟩
  · cases hstep

theorem addThread (h : Inv cfg s) {position : Nat}
    (hstep : step cfg s (.addThread server position) = some t) : Inv cfg t := by
  simp only [step] at hstep
  split at hstep
  · rename_i c hsec
    cases hstep
    refine ⟨h.conn.advance hsec rfl (by simp) (fun _ hp => hp), ?_, h.log⟩
    have hfresh : s.policy.thread s.threads = none := by
      have hnone := h.thread.fresh _ (Nat.le_refl _)
      simpa [Policy.threadStat] using hnone
    have hstat : (s.policy.threadAdded s.threads position).threadStat =
        Function.update s.policy.threadStat s.threads (some ⟨.activeAwaiting, 0⟩) := by
      simp only [Policy.threadAdded, hfresh, Option.getD_none]
      exact threadStat_update s.policy s.threads (some .new)
    simp only [State.enter, hstat]
    exact h.thread.add hsec
  · cases hstep

theorem placeThread (h : Inv cfg s) (hstep : step cfg s (.placeThread server) = some t) : Inv cfg t := by
  simp only [step] at hstep
  split at hstep
  · rename_i c d hsec
    split at hstep
    · rename_i o ho
      cases hstep
      have hold := h.holder hsec rfl ho
      obtain ⟨x, hx, hstate⟩ := hold.awaiting
      obtain ⟨y, hy, hawaiting, -⟩ := h.thread.chosen server c d hsec
      have hplace : o.place = .unplaced := hold.fits
      have hserver : o.server = server := hold.server
      cases hserver
      have hok := h.conn.conn c o ho
      have hrec := hok.record x hx
      have hconn := h.conn.update { o with place := .adding d }
        ((s.policy.connections c).map fun r => { r with thread := some d })
        (some (.adding c d)) ho rfl rfl ⟨by simp [hx, hold.listed], fun z hz => by
          rw [hx] at hz
          cases hz
          exact ⟨hrec.stat, hrec.items, hrec.server, rfl⟩⟩
        (fun hopen => by simpa [nonClosing, hx] using hopen) (by simp)
        (fun sec heq _ => by
          cases heq
          exact ⟨rfl, hold.listed, rfl, { x with thread := some d }, by simp [hx], hstate⟩)
        (fun sec e heq he hne => by
          cases heq
          cases he
          exact absurd rfl hne)
      have hthread := h.thread.place hsec (by rw [places_getElem? ho, hplace]; rfl)
      refine Inv.note ⟨hconn, ?_, h.log⟩ (by simp) (by simp)
        (allowed_thread (h.not_threadClosed hy (by simp [hawaiting])) (.inr rfl))
      simpa only [State.enter, State.setConn, threadConnectionAdded_stat, places_set, Place.thread?] using hthread
    · cases hstep
  · cases hstep

theorem placeFails (h : Inv cfg s) (hstep : step cfg s (.placeFails server) = some t) : Inv cfg t := by
  simp only [step] at hstep
  split at hstep
  · rename_i c hsec
    cases hstep
    exact ⟨h.conn.advance hsec rfl (by simp) (fun _ hp => hp), h.thread.outside _ _ (by simp [Section.inPool]), h.log⟩
  · rename_i c hsec
    cases hstep
    exact ⟨h.conn.advance hsec rfl (by simp) (fun _ hp => hp), h.thread.release _ hsec rfl (by simp [Section.inPool]), h.log⟩
  · rename_i c d hsec
    cases hstep
    exact ⟨h.conn.advance hsec rfl (by simp) (fun _ hp => hp), h.thread.release _ hsec rfl (by simp [Section.inPool]), h.log⟩
  · cases hstep

theorem enqueueConnection (h : Inv cfg s) {outcome : Outcome} (hw : outcome ≠ .threwLeft)
    (hstep : step cfg s (.enqueueConnection server outcome) = some t) : Inv cfg t := by
  simp only [step] at hstep
  split at hstep
  · rename_i c d hsec
    split at hstep
    · rename_i o ho
      have hold := h.holder hsec rfl ho
      have hplace : o.place = .adding d := hold.fits
      cases outcome with
      | returned =>
          cases hstep
          have hserver : o.server = server := hold.server
          cases hserver
          have hsame : (Place.queued d).thread? = o.place.thread? := by rw [hplace]; rfl
          have hconn := h.conn.update { o with place := .queued d } (s.policy.connections c) (some (.ready c)) ho rfl rfl
            ((h.conn.conn c o ho).same rfl rfl hsame rfl) id (by simp)
            (fun sec heq _ => by
              cases heq
              exact ⟨rfl, hold.listed, trivial, hold.awaiting⟩)
            (fun sec e heq he hne => by
              cases heq
              cases he
              exact absurd rfl hne)
          rw [Function.update_eq_self] at hconn
          refine ⟨hconn, ?_, h.log⟩
          simp only [State.enter, State.setConn, places_same { o with place := .queued d } ho hsame]
          exact h.thread.outside _ _ (by simp [Section.inPool])
      | threw =>
          cases hstep
          exact ⟨h.conn.advance hsec rfl (by simp) (fun _ hp => hp), h.thread.outside _ _ (by simp [Section.inPool]), h.log⟩
      | threwLeft => exact absurd rfl hw
    · cases hstep
  · cases hstep

theorem catchThread (h : Inv cfg s) (hstep : step cfg s (.catchThread server) = some t) : Inv cfg t := by
  simp only [step] at hstep
  split at hstep
  · rename_i c d hsec
    split at hstep
    · rename_i o ho
      cases hstep
      have hold := h.holder hsec rfl ho
      have hplace : o.place = .adding d := hold.fits
      have hserver : o.server = server := hold.server
      cases hserver
      obtain ⟨x, hx, hstate⟩ := hold.awaiting
      have hrecord : x.server = some o.server := by rw [((h.conn.conn c o ho).record x hx).server, if_pos hold.listed]
      have hconn := h.conn.update { o with place := .unplaced } _ (some (.ready c)) ho rfl rfl
        ((h.conn.conn c o ho).threadRemoved rfl) nonClosing_threadRemoved (by simp)
        (fun sec heq _ => by
          cases heq
          exact ⟨rfl, hold.listed, trivial, { x with thread := none }, by simp [hx, hrecord], hstate⟩)
        (fun sec e heq he hne => by
          cases heq
          cases he
          exact absurd rfl hne)
      have hthread := (h.thread.leave (by rw [places_getElem? ho, hplace]; rfl)).outside o.server (some (.ready c))
        (by simp [Section.inPool])
      simp only [hplace, if_true]
      refine ⟨hconn, ?_, h.log⟩
      simpa only [State.enter, State.setConn, threadConnectionRemoved_stat, places_set, Place.thread?] using hthread
    · cases hstep
  · cases hstep

theorem exclude (h : Inv cfg s) (ho : s.conns[c]? = some o) (hl : o.listed = true) :
    Inv cfg (State.enter
      (State.setConn { s with policy := s.policy.serverConnectionRemoved o.server c } c
      { o with listed := false }) o.server none) := by
  have hpresent := (h.conn.conn c o ho).present
  rw [hl, Bool.true_or, Option.isSome_iff_exists] at hpresent
  obtain ⟨x, hx⟩ := hpresent
  have hconn := h.conn.exclude ho (h.conn.excluded_record ho hx) (fun hopen => by
    split at hopen
    · simpa [nonClosing, hx] using hopen
    · cases hopen)
  have hthread : ThreadInv cfg (threadClosed s.log) (places (s.conns.set c { o with listed := false })) s.threads
      s.policy.threadStat (Function.update s.sections o.server none) s.pool := by
    rw [places_same { o with listed := false } ho rfl]
    exact h.thread.outside _ _ (by simp)
  simp only [State.enter, State.setConn, Policy.serverConnectionRemoved, hx]
  exact ⟨hconn, hthread, h.log⟩

theorem catchPlace (h : Inv cfg s) (hstep : step cfg s (.catchPlace server) = some t) : Inv cfg t := by
  simp only [step] at hstep
  split at hstep
  · rename_i c hsec
    split at hstep
    · rename_i o ho
      cases hstep
      have hold := h.holder hsec rfl ho
      have hserver : o.server = server := hold.server
      cases hserver
      exact h.exclude ho hold.listed
    · cases hstep
  · cases hstep

theorem addRequest (h : Inv cfg s) (hstep : step cfg s (.addRequest server) = some t) : Inv cfg t := by
  simp only [step] at hstep
  split at hstep
  · rename_i c hsec
    split at hstep
    · rename_i o ho
      cases hstep
      have hold := h.holder hsec rfl ho
      have hserver : o.server = server := hold.server
      cases hserver
      obtain ⟨x, hx, hstate⟩ := hold.awaiting
      have hopen : nonClosing s.policy.connections c = true := nonClosing_iff.mpr ⟨x, hx, by simp [hstate]⟩
      have hok := (h.conn.conn c o ho).map { o with calls := o.calls + 1 }
        (fun r => { r with itemsCount := r.itemsCount + 1, state := .active }) rfl rfl (fun y _ hy =>
          ⟨.active rfl, by have := hy.items; simp only; omega, hy.server, hy.thread⟩)
      have hconn := h.conn.update { o with calls := o.calls + 1 } _ none ho rfl rfl hok
          (fun _ => hopen) (by simp) (by simp) (by simp)
      refine Inv.note ⟨hconn, ?_, h.log⟩ (by simp) (by simp) (allowed_connection (h.not_connClosed hopen) (.inr rfl))
      simp only [State.enter, State.setConn]
      rw [places_same { o with calls := o.calls + 1 } ho rfl]
      exact h.thread.outside _ _ (by simp)
    · cases hstep
  · cases hstep

/-! ## 接続と糸の歩み -/

theorem setConn (h : Inv cfg s) (ho : s.conns[c]? = some o) (hserver : o'.server = o.server) (hlisted : o'.listed = o.listed)
    (hplace : o'.place.thread? = o.place.thread?) (hcount : o'.calls + o'.failed + o'.held = o.calls + o.failed + o.held)
    (hfits : ∀ sec : Section, sec.Fits o.place → sec.Fits o'.place) : Inv cfg (s.setConn c o') := by
  refine ⟨h.conn.object ho hserver hlisted ((h.conn.conn c o ho).same hlisted hserver hplace hcount) hfits, ?_, h.log⟩
  simp only [State.setConn]
  rw [places_same _ ho hplace]
  exact h.thread

theorem requestRemoved (h : Inv cfg s) (ho : s.conns[c]? = some o) (hserver : o'.server = o.server)
    (hlisted : o'.listed = o.listed)
    (hplace : o'.place = o.place) (hcount : o'.calls + o'.failed + o'.held + 1 = o.calls + o.failed + o.held) :
    Inv cfg (State.setConn { s with policy := s.policy.connectionRequestRemoved c } c o') := by
  have hok := (h.conn.conn c o ho).requestRemoved hlisted hserver hplace hcount
  have hconn := h.conn.keep _ _ ho hserver hlisted hok
    (fun hopen => by
      cases hr : s.policy.connections c with
      | none => simp [hr] at hopen
      | some x => simpa [nonClosing, hr] using hopen)
    (fun sec _ hold => by
      obtain ⟨x, hx, hstate⟩ := hold.awaiting
      exact ⟨hserver, hlisted.trans hold.listed, hplace ▸ hold.fits,
        { x with itemsCount := x.itemsCount - 1 }, by simp [hx], hstate⟩)
  refine ⟨hconn, ?_, h.log⟩
  simp only [State.setConn]
  rw [places_same _ ho (congrArg Place.thread? hplace)]
  exact h.thread

theorem threadRemoved (h : Inv cfg s) (ho : s.conns[c]? = some o) {d : Nat} (hthread : o.place.thread? = some d)
    (hfits : ∀ sec : Section, sec.Fits o.place → sec.Fits .left) :
    Inv cfg (State.setConn { s with policy := s.policy.threadConnectionRemoved d c } c { o with place := .left }) := by
  have hok := h.conn.conn c o ho
  have hconn := h.conn.keep { o with place := .left } _ ho rfl rfl (hok.threadRemoved rfl) nonClosing_threadRemoved
    (fun sec _ hold => by
      obtain ⟨x, hx, hstate⟩ := hold.awaiting
      have hrecord : x.server = some o.server := by rw [(hok.record x hx).server, if_pos hold.listed]
      exact ⟨rfl, hold.listed, hfits sec hold.fits, { x with thread := none }, by simp [hx, hrecord], hstate⟩)
  refine ⟨hconn, ?_, h.log⟩
  have hleave := h.thread.leave ((places_getElem? ho).trans (congrArg some hthread))
  simpa only [State.setConn, threadConnectionRemoved_stat, places_set, Place.thread?] using hleave

theorem enqueueRequest (h : Inv cfg s) {outcome : Outcome} (hw : outcome ≠ .threwLeft)
    (hstep : step cfg s (.enqueueRequest c outcome) = some t) : Inv cfg t := by
  simp only [step] at hstep
  split at hstep
  · rename_i o ho
    split at hstep
    · cases hstep
    · rename_i hcalls
      cases outcome with
      | returned =>
          cases hstep
          exact h.setConn ho rfl rfl rfl (by simp only; omega) (fun _ hf => hf)
      | threw =>
          cases hstep
          exact h.setConn ho rfl rfl rfl (by simp only; omega) (fun _ hf => hf)
      | threwLeft => exact absurd rfl hw
  · cases hstep

theorem catchRequest (h : Inv cfg s) (hstep : step cfg s (.catchRequest c) = some t) : Inv cfg t := by
  simp only [step] at hstep
  split at hstep
  · rename_i o ho
    split at hstep
    · cases hstep
    · rename_i hfailed
      cases hstep
      exact h.requestRemoved ho rfl rfl rfl (by simp only; omega)
  · cases hstep

theorem removeRequest (h : Inv cfg s) (hstep : step cfg s (.removeRequest c) = some t) : Inv cfg t := by
  simp only [step] at hstep
  split at hstep
  · rename_i o ho
    split at hstep
    · cases hstep
    · rename_i hheld
      cases hstep
      have hne : o.held ≠ 0 := fun hz => hheld (.inl hz)
      exact h.requestRemoved ho rfl rfl rfl (by simp only; omega)
  · cases hstep

theorem register (h : Inv cfg s) (hstep : step cfg s (.register c) = some t) : Inv cfg t := by
  simp only [step] at hstep
  split at hstep
  · rename_i o ho
    split at hstep
    · rename_i d hplace
      cases hstep
      refine h.setConn ho rfl rfl (by rw [hplace]; rfl) rfl fun sec hf => ?_
      -- 糸の列にある接続を扱う `add_request` は、置き終えている。
      cases sec <;> simp_all [Section.Fits]
    · cases hstep
  · cases hstep

theorem registerFails (h : Inv cfg s) (hstep : step cfg s (.registerFails c) = some t) : Inv cfg t := by
  simp only [step] at hstep
  split at hstep
  · rename_i o ho
    split at hstep
    · rename_i d hplace
      cases hstep
      refine h.threadRemoved ho (by rw [hplace]; rfl) fun sec hf => ?_
      cases sec <;> simp_all [Section.Fits]
    · cases hstep
  · cases hstep

theorem leaveThread (h : Inv cfg s) (hstep : step cfg s (.leaveThread c) = some t) : Inv cfg t := by
  simp only [step] at hstep
  split at hstep
  · rename_i o ho
    split at hstep
    · rename_i d hplace
      split at hstep
      · cases hstep
      · cases hstep
        refine h.threadRemoved ho (by rw [hplace]; rfl) fun sec hf => ?_
        cases sec <;> simp_all [Section.Fits]
    · cases hstep
  · cases hstep

theorem excludeConnection (h : Inv cfg s) (hstep : step cfg s (.excludeConnection c) = some t) : Inv cfg t := by
  simp only [step] at hstep
  split at hstep
  · rename_i o ho
    split at hstep
    · rename_i hcond
      cases hstep
      have hexclude := h.exclude ho hcond.1
      have hfree : Function.update s.sections o.server none = s.sections := by
        rw [← hcond.2, Function.update_eq_self]
      simpa only [State.enter, State.setConn, hfree] using hexclude
    · cases hstep
  · cases hstep

theorem tryCloseConnection (h : Inv cfg s) (hd : Representable cfg.connectionDelay)
    (hstep : step cfg s (.tryCloseConnection c) = some t) : Inv cfg t := by
  simp only [step] at hstep
  split at hstep
  · rename_i o ho
    split at hstep
    · rcases whenCloseConnection_cases cfg s.policy c with ⟨hp, hans⟩ | ⟨x, map, hx, hans, hp⟩
      · rw [hans, if_neg (by decide), hp] at hstep
        cases hstep
        simpa [State.note] using h
      · have hok := h.conn.conn c o ho
        have hrec := hok.record x hx
        obtain ⟨hstat, hzero, hawaiting, hclosed⟩ := whenCloseEntity_spec hd hrec.stat c map
        have hconn :=
          h.conn.keep o (some { x with state := (whenCloseEntity cfg.connectionDelay c x.toSimpleStat map).1 }) ho rfl rfl
          ⟨by rw [← hok.present, hx]; rfl, fun y hy => by
            cases hy
            exact ⟨hstat, hrec.items, hrec.server, hrec.thread⟩⟩
          (fun hopen => nonClosing_iff.mpr ⟨x, hx, fun hclosing => by simp [hclosed hclosing] at hopen⟩)
          (fun sec _ hold => by
            obtain ⟨y, hy, hstate⟩ := hold.awaiting
            rw [hx] at hy
            cases hy
            exact ⟨rfl, hold.listed, hold.fits, _, rfl, hawaiting hstate⟩)
        have hset : s.conns.set c o = s.conns := by
          obtain ⟨hlt, heq⟩ := List.getElem?_eq_some_iff.mp ho
          rw [← heq, List.set_getElem_self]
        rw [hset] at hconn
        rw [hans, hp] at hstep
        split at hstep
        · rename_i hz
          cases hstep
          have hclosing := hzero hz
          have hempty : x.itemsCount = 0 := hstat.idle (by simp [hclosing]) (by simp [hclosing])
          simp only [Function.update_self, Option.map_some, Option.toList_some]
          refine ⟨hconn.close fun e he => ?_, h.thread.close fun e he => ?_, h.log.note hempty
            (by rintro (_ | _) - <;> trivial)⟩
          · rcases connClosed_note he with he | ⟨n, heq⟩
            · exact .inl he
            · cases heq
              exact .inr ⟨ConnInv.lt_length ho, by simp [nonClosing, hclosing]⟩
          · rcases threadClosed_note he with he | ⟨n, heq⟩
            · exact .inl he
            · cases heq
        · cases hstep
          simp only [State.note, List.append_nil]
          exact ⟨hconn, h.thread, h.log⟩
    · cases hstep
  · cases hstep

theorem tryCloseThread (h : Inv cfg s) {d : Nat} (hd : Representable cfg.threadDelay)
    (hstep : step cfg s (.tryCloseThread d) = some t) : Inv cfg t := by
  simp only [step] at hstep
  rcases whenCloseThread_cases cfg s.policy d with ⟨hp, hans⟩ | ⟨x, map, hx, hans, hc, hs, hstat⟩
  · rw [hans, if_neg (by decide), hp] at hstep
    cases hstep
    simpa [State.note] using h
  · have hthread := h.thread.tryClose hd map hx
    obtain ⟨hok, hzero, -, -⟩ := whenCloseEntity_spec hd (h.thread.ok d x hx) d map
    rw [hans] at hstep
    split at hstep
    · rename_i hz
      cases hstep
      have hclosing := hzero hz
      have hempty : x.itemsCount = 0 := hok.idle (by simp [hclosing]) (by simp [hclosing])
      have hrecord := congrFun hstat d
      rw [Function.update_self] at hrecord
      obtain ⟨y, hy, hyx⟩ := Option.map_eq_some_iff.mp hrecord
      have hitems : y.itemsCount = x.itemsCount := by rw [hyx]
      simp only [hy, Option.map_some, Option.toList_some, hitems]
      refine ⟨?_, ?_, h.log.note hempty (by rintro (_ | _) - <;> trivial)⟩
      · simp only [State.note, hc, hs]
        refine h.conn.close fun e he => ?_
        rcases connClosed_note he with he | ⟨n, heq⟩
        · exact .inl he
        · cases heq
      · simp only [State.note, hstat]
        refine hthread.close fun e he => ?_
        rcases threadClosed_note he with he | ⟨n, heq⟩
        · exact .inl he
        · cases heq
          exact .inr ⟨_, Function.update_self .., hclosing⟩
    · cases hstep
      simp only [State.note, List.append_nil]
      exact ⟨by simpa only [hc, hs] using h.conn, by simpa only [hstat] using hthread, h.log⟩

theorem removeThread (h : Inv cfg s) {d : Nat} (hstep : step cfg s (.removeThread d) = some t) : Inv cfg t := by
  simp only [step] at hstep
  split at hstep
  · rename_i hpool _
    cases hstep
    refine ⟨h.conn, ?_, h.log⟩
    have hthread := h.thread
    rw [hpool] at hthread
    have hstat : (s.policy.threadRemoved d).threadStat = Function.update s.policy.threadStat d
        none := threadStat_update _ _ _
    simp only [hstat, hpool]
    exact hthread.remove
  · cases hstep

theorem step (h : Inv cfg s) (hc : Representable cfg.connectionDelay) (hd : Representable cfg.threadDelay) {action : Action}
    (hw : writeFails action = false) (hstep : HttpAsyncPool.step cfg s action = some t) : Inv cfg t := by
  cases action with
  | serverAdded server =>
      cases hstep
      exact h.serverAdded
  | chooseConnection server => exact h.chooseConnection hstep
  | create server position => exact h.create hstep
  | createFails server => exact h.createFails hstep
  | chooseThread server => exact h.chooseThread hstep
  | addThread server position => exact h.addThread hstep
  | placeThread server => exact h.placeThread hstep
  | placeFails server => exact h.placeFails hstep
  | enqueueConnection server outcome => exact h.enqueueConnection (by simpa [writeFails] using hw) hstep
  | catchThread server => exact h.catchThread hstep
  | catchPlace server => exact h.catchPlace hstep
  | addRequest server => exact h.addRequest hstep
  | enqueueRequest c outcome => exact h.enqueueRequest (by simpa [writeFails] using hw) hstep
  | catchRequest c => exact h.catchRequest hstep
  | removeRequest c => exact h.removeRequest hstep
  | register c => exact h.register hstep
  | registerFails c => exact h.registerFails hstep
  | tryCloseConnection c => exact h.tryCloseConnection hc hstep
  | excludeConnection c => exact h.excludeConnection hstep
  | leaveThread c => exact h.leaveThread hstep
  | tryCloseThread d => exact h.tryCloseThread hd hstep
  | removeThread d => exact h.removeThread hstep

end Inv

end UnixCommons.HTTP.HttpAsyncPool
