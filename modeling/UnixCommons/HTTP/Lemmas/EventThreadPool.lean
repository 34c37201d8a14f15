import Mathlib.Tactic
import UnixCommons.HTTP.HttpAsyncPool

/-! # 方針と糸の集まりの補題 -/

/-! ## 接続の集まりの方針の補題 -/

namespace UnixCommons.HTTP.PoolPolicy

variable {cfg : Settings} {p : Policy} {delay : Int} {stat : SimpleStat} {map : List View} {current c server : Nat}

structure SimpleStat.Ok (delay : Int) (stat : SimpleStat) : Prop where
  idle : stat.state ≠ .activeAwaiting → stat.state ≠ .active → stat.itemsCount = 0
  waits : stat.state = .closureAwaiting → delay ≠ 0

/-- `int` に直した待つ時間が、零になるのは、零の時だけである。 -/
def Representable (delay : Int) : Prop := closureInt delay = 0 → delay = 0

theorem SimpleStat.Ok.awaiting (h : stat.state = .activeAwaiting) : stat.Ok delay :=
  ⟨fun hne => absurd h hne, fun hw => by rw [h] at hw; cases hw⟩

theorem SimpleStat.Ok.active (h : stat.state = .active) : stat.Ok delay :=
  ⟨fun _ hne => absurd h hne, fun hw => by rw [h] at hw; cases hw⟩

theorem whenCloseEntity_spec (hd : Representable delay) (h : stat.Ok delay) (current : Nat) (map : List View) :
    (SimpleStat.mk (whenCloseEntity delay current stat map).1 stat.itemsCount).Ok delay ∧
      ((whenCloseEntity delay current stat map).2 = 0 → (whenCloseEntity delay current stat map).1 = .closing) ∧
      (stat.state = .activeAwaiting → (whenCloseEntity delay current stat map).1 = .activeAwaiting) ∧
      (stat.state = .closing → (whenCloseEntity delay current stat map).1 = .closing) := by
  cases hs : stat.state with
  | activeAwaiting =>
      have hok : (SimpleStat.mk .activeAwaiting stat.itemsCount).Ok delay := .awaiting rfl
      simpa [whenCloseEntity, hs] using hok
  | closing =>
      have hempty : stat.itemsCount = 0 := h.idle (by simp [hs]) (by simp [hs])
      simp only [whenCloseEntity, hs]
      exact ⟨⟨fun _ _ => hempty, by simp⟩, by simp, by simp, by simp⟩
  | closureOnNextTry =>
      have hempty : stat.itemsCount = 0 := h.idle (by simp [hs]) (by simp [hs])
      simp only [whenCloseEntity, hs]
      exact ⟨⟨fun _ _ => hempty, by simp⟩, by simp, by simp, by simp⟩
  | active =>
      simp only [whenCloseEntity, hs, processEntityActiveState]
      split
      · exact ⟨.active rfl, by simp, by simp, by simp⟩
      · rename_i hempty
        have hempty : stat.itemsCount = 0 := not_not.mp hempty
        split
        · exact ⟨⟨fun _ _ => hempty, by simp⟩, by simp, by simp, by simp⟩
        · rename_i hdelay
          have hdelay : delay ≠ 0 := fun hz => hdelay (.inr hz)
          exact ⟨⟨fun _ _ => hempty, fun _ => hdelay⟩, fun hz => absurd (hd hz) hdelay, by simp, by simp⟩
  | closureAwaiting =>
      have hempty : stat.itemsCount = 0 := h.idle (by simp [hs]) (by simp [hs])
      have hdelay : delay ≠ 0 := h.waits hs
      simp only [whenCloseEntity, hs, processEntityClosureAwaitingState]
      exact ⟨⟨fun _ _ => hempty, fun _ => hdelay⟩, fun hz => absurd (hd hz) hdelay, by simp, by simp⟩

def nonClosing (connections : Nat → Option Connection) (c : Nat) : Bool := (connections c).any (·.state != .closing)

theorem nonClosing_iff {connections : Nat → Option Connection} :
    nonClosing connections c = true ↔ ∃ r, connections c = some r ∧ r.state ≠ .closing := by
  cases h : connections c <;> simp [nonClosing, h]

theorem chooseConnectionLoop_some {connections : Nat → Option Connection} {ptrs : List Nat}
    {requests : Int} {chosen : Option Nat}
    (h : chooseConnectionLoop connections ptrs requests chosen = some c) : chosen = some c ∨
    (c ∈ ptrs ∧ nonClosing connections c = true) := by
  induction ptrs generalizing requests chosen with
  | nil => exact .inl h
  | cons d ptrs ih =>
      have hrest : ∀ {n it}, chooseConnectionLoop connections ptrs n it = some c → it = some c ∨
          (c ∈ d :: ptrs ∧ nonClosing connections c = true) :=
        fun h => (ih h).imp id (fun h => ⟨List.mem_cons_of_mem _ h.1, h.2⟩)
      simp only [chooseConnectionLoop] at h
      split at h
      · exact hrest h
      · rename_i r hr
        split at h
        · exact hrest h
        · rename_i hopen
          have hd : nonClosing connections d = true := nonClosing_iff.mpr ⟨r, hr, hopen⟩
          split at h
          · cases h
            exact .inr ⟨List.mem_cons_self, hd⟩
          · split at h
            · rcases hrest h with heq | hmem
              · cases heq
                exact .inr ⟨List.mem_cons_self, hd⟩
              · exact .inr hmem
            · exact hrest h

theorem chooseConnectionLoop_none {connections : Nat → Option Connection} {ptrs : List Nat}
    {requests : Int} {chosen : Option Nat} (hchosen : chosen = none → requests = 0)
    (h : chooseConnectionLoop connections ptrs requests chosen = none) : chosen = none ∧ ∀ d ∈ ptrs,
    nonClosing connections d = false := by
  induction ptrs generalizing requests chosen with
  | nil => exact ⟨h, by simp⟩
  | cons d ptrs ih =>
      simp only [chooseConnectionLoop] at h
      split at h
      · rename_i hr
        obtain ⟨hnone, hall⟩ := ih hchosen h
        exact ⟨hnone, List.forall_mem_cons.mpr ⟨by simp [nonClosing, hr], hall⟩⟩
      · rename_i r hr
        split at h
        · rename_i hclosing
          obtain ⟨hnone, hall⟩ := ih hchosen h
          exact ⟨hnone, List.forall_mem_cons.mpr ⟨by simp [nonClosing, hr, hclosing], hall⟩⟩
        · split at h
          · cases h
          · split at h
            · obtain ⟨hnone, -⟩ := ih (by simp) h
              cases hnone
            · rename_i hreq
              obtain ⟨hnone, -⟩ := ih hchosen h
              exact absurd (.inl (hchosen hnone)) hreq

theorem chooseConnection_some (h : (p.chooseConnection cfg server).2 = some c) :
    ∃ ptrs r, p.servers server = some ptrs ∧ c ∈ ptrs ∧ p.connections c = some r ∧
      r.state ≠ .closing ∧ (p.chooseConnection cfg server).1 =
        { p with connections := Function.update p.connections c (some { r with state := .activeAwaiting }) } := by
  simp only [Policy.chooseConnection] at h ⊢
  split at h
  · cases h
  · rename_i ptrs hptrs
    split at h
    · cases h
    · rename_i d hloop
      split at h
      · cases h
      · rename_i r hr
        split at h
        · rename_i hcond
          cases h
          rcases chooseConnectionLoop_some hloop with hnone | ⟨hmem, hopen⟩
          · cases hnone
          · obtain ⟨r', hr', hstate⟩ := nonClosing_iff.mp hopen
            rw [hr] at hr'
            cases hr'
            exact ⟨ptrs, r, hptrs, hmem, hr, hstate, by simp [hcond]⟩
        · cases h

theorem chooseConnection_none {ptrs : List Nat} (hptrs : p.servers server = some ptrs)
    (h : (p.chooseConnection cfg server).2 = none) :
    (p.chooseConnection cfg server).1 = p ∧ ptrs.countP (nonClosing p.connections) < max 1 cfg.connectionsPerServer := by
  simp only [Policy.chooseConnection, hptrs] at h ⊢
  split at h
  · rename_i hloop
    have hall := (chooseConnectionLoop_none (by simp) hloop).2
    refine ⟨by simp, ?_⟩
    rw [List.countP_eq_zero.mpr fun d hd => by simp [hall d hd]]
    exact Nat.lt_of_lt_of_le Nat.zero_lt_one (Nat.le_max_left _ _)
  · rename_i d hloop
    rcases chooseConnectionLoop_some hloop with hnone | ⟨-, hopen⟩
    · cases hnone
    · obtain ⟨r, hr, -⟩ := nonClosing_iff.mp hopen
      simp only [hr] at h
      split at h
      · cases h
      · rename_i hcond
        refine ⟨by simp [hr, hcond], ?_⟩
        have hlen : ptrs.length < cfg.connectionsPerServer := by
          by_contra hle
          exact hcond (.inl (Nat.le_of_not_lt hle))
        calc
          ptrs.countP (nonClosing p.connections) ≤ ptrs.length := List.countP_le_length
          _ < cfg.connectionsPerServer := hlen
          _ ≤ max 1 cfg.connectionsPerServer := Nat.le_max_right _ _

def Policy.threadStat (p : Policy) (t : Nat) : Option SimpleStat := (p.thread t).map (·.toSimpleStat)

theorem chooseThreadLoop_spec (perThreads : Nat) (ts : List Nat) (threads : Nat → Option Thread) :
    (∀ t, ((chooseThreadLoop perThreads ts threads).2 t).map (·.toSimpleStat) =
      if (chooseThreadLoop perThreads ts threads).1 = some t then (threads t).map fun r =>
      ⟨.activeAwaiting, r.itemsCount⟩ else (threads t).map (·.toSimpleStat)) ∧
    ∀ t, (chooseThreadLoop perThreads ts threads).1 = some t →
      ∃ r, threads t = some r ∧ r.state ≠ .closing ∧ r.itemsCount < perThreads := by
  induction ts generalizing threads with
  | nil => simp [chooseThreadLoop]
  | cons d ts ih =>
      cases hr : threads d with
      | none => simpa only [chooseThreadLoop, hr] using ih threads
      | some r =>
          by_cases hopen : r.state = .closing
          · simpa only [chooseThreadLoop, hr, hopen, if_true] using ih threads
          · by_cases hlt : r.itemsCount < perThreads
            · simp only [chooseThreadLoop, hr, hopen, hlt, if_true, if_false]
              constructor
              · intro t
                by_cases ht : t = d
                · simp [ht, hr]
                · simp [ht, Ne.symm ht]
              · intro t ht
                cases ht
                exact ⟨r, hr, hopen, hlt⟩
            · simp only [chooseThreadLoop, hr, hopen, hlt, if_false]
              obtain ⟨hstat, hfound⟩ := ih (Function.update threads d (some { r with full := true }))
              constructor
              · intro t
                -- 満ちた印は、状態と数を変えない。
                rw [hstat]
                by_cases ht : t = d
                · simp [ht, hr]
                · simp [ht]
              · intro t ht
                obtain ⟨r', hr', hopen', hlt'⟩ := hfound t ht
                by_cases hd : t = d
                · cases hd
                  simp only [Function.update_self, Option.some.injEq] at hr'
                  cases hr'
                  exact ⟨r, hr, hopen', hlt'⟩
                · rw [Function.update_of_ne hd] at hr'
                  exact ⟨r', hr', hopen', hlt'⟩

theorem chooseThread_some {t : Nat} (h : (p.chooseThread cfg).2 = some t) :
    ∃ x, p.threadStat t = some x ∧ x.state ≠ .closing ∧ x.itemsCount < cfg.connectionsPerThreads ∧
      (p.chooseThread cfg).1.threadStat = Function.update p.threadStat t (some { x with state := .activeAwaiting }) := by
  obtain ⟨hstat, hfound⟩ := chooseThreadLoop_spec cfg.connectionsPerThreads p.threads p.thread
  obtain ⟨r, hr, hopen, hlt⟩ := hfound t h
  refine ⟨r.toSimpleStat, by simp [Policy.threadStat, hr], hopen, hlt, ?_⟩
  funext d
  simp only [Policy.chooseThread] at h
  simp only [Policy.threadStat, Policy.chooseThread, hstat, h, Option.some.injEq]
  by_cases hd : d = t
  · simp [hd, hr]
  · simp [hd, Ne.symm hd, Policy.threadStat]

theorem chooseThread_none (h : (p.chooseThread cfg).2 = none) : (p.chooseThread cfg).1.threadStat = p.threadStat := by
  funext d
  simp only [Policy.chooseThread] at h
  simp only [Policy.threadStat, Policy.chooseThread,
    (chooseThreadLoop_spec cfg.connectionsPerThreads p.threads p.thread).1, h]
  simp

end UnixCommons.HTTP.PoolPolicy

/-! ## 糸の集まりの補題 -/

namespace UnixCommons.HTTP.HttpAsyncPool

open Lib PoolPolicy

structure ThreadInv (cfg : Settings) (closed : Nat → Prop) (places : List (Option Nat))
    (threads : Nat) (stat : Nat → Option SimpleStat)
    (sections : Nat → Option Section) (pool : Option Nat) : Prop where
  old : ∀ t, some t ∈ places → t < threads
  fresh : ∀ t, threads ≤ t → stat t = none
  ok : ∀ t x, stat t = some x → x.Ok cfg.threadDelay
  items : ∀ t x, stat t = some x → x.itemsCount = places.count (some t)
  limit : ∀ t, places.count (some t) ≤ max 1 cfg.connectionsPerThreads
  lock : ∀ sv sec, sections sv = some sec → sec.inPool = true → pool = some sv
  chosen : ∀ sv c t, sections sv = some (.threadChosen c t) →
    ∃ x, stat t = some x ∧ x.state = .activeAwaiting ∧ x.itemsCount < max 1 cfg.connectionsPerThreads
  closing : ∀ t, closed t → t < threads ∧ ∀ x, stat t = some x → x.state = .closing

namespace ThreadInv

variable {cfg : Settings} {closed : Nat → Prop} {places : List (Option Nat)} {threads t c sv : Nat}
    {stat : Nat → Option SimpleStat}
variable {sections : Nat → Option Section} {pool : Option Nat} {sec : Section} {sec' : Option Section} {x : SimpleStat}

theorem lt_threads (h : ThreadInv cfg closed places threads stat sections pool) (hx : stat t = some x) : t < threads := by
  by_contra hle
  rw [h.fresh t (Nat.le_of_not_lt hle)] at hx
  cases hx

theorem update_cases {x' : Option SimpleStat} {d : Nat} {y : SimpleStat} (hy : Function.update stat t x' d = some y) :
    (d = t ∧ x' = some y) ∨ (d ≠ t ∧ stat d = some y) := by
  by_cases hd : d = t
  · cases hd
    exact .inl ⟨rfl, by simpa using hy⟩
  · rw [Function.update_of_ne hd] at hy
    exact .inr ⟨hd, hy⟩

theorem outside (h : ThreadInv cfg closed places threads stat sections pool) (sv : Nat)
    (sec' : Option Section) (hout : ∀ sec, sec' = some sec → sec.inPool = false) :
    ThreadInv cfg closed places threads stat (Function.update sections sv sec') pool := by
  refine ⟨h.old, h.fresh, h.ok, h.items, h.limit, ?_, ?_, h.closing⟩
  · intro s sec hsec hin
    by_cases hs : s = sv
    · cases hs
      rw [Function.update_self] at hsec
      rw [hout sec hsec] at hin
      cases hin
    · rw [Function.update_of_ne hs] at hsec
      exact h.lock s sec hsec hin
  · intro s c t hsec
    by_cases hs : s = sv
    · cases hs
      rw [Function.update_self] at hsec
      cases hout _ hsec
    · rw [Function.update_of_ne hs] at hsec
      exact h.chosen s c t hsec

theorem release (h : ThreadInv cfg closed places threads stat sections pool) (sec' : Option Section)
    (hsec : sections sv = some sec)
    (hin : sec.inPool = true) (hout : ∀ sec, sec' = some sec → sec.inPool = false) :
    ThreadInv cfg closed places threads stat (Function.update sections sv sec') none := by
  refine { h.outside sv sec' hout with lock := ?_ }
  intro s next hs hnext
  by_cases heq : s = sv
  · cases heq
    rw [Function.update_self] at hs
    rw [hout next hs] at hnext
    cases hnext
  · rw [Function.update_of_ne heq] at hs
    have hpool := h.lock s next hs hnext
    rw [h.lock sv sec hsec hin] at hpool
    exact absurd (Option.some.inj hpool).symm heq

theorem acquire (h : ThreadInv cfg closed places threads stat sections none) {next : Section}
    (hchosen : ∀ c t, next = .threadChosen c t →
      ∃ x, stat t = some x ∧ x.state = .activeAwaiting ∧ x.itemsCount < max 1 cfg.connectionsPerThreads) :
    ThreadInv cfg closed places threads stat (Function.update sections sv (some next)) (some sv) := by
  have hfree : ∀ s sec, sections s = some sec → sec.inPool = true → False := by
    intro s sec hs hin
    cases h.lock s sec hs hin
  refine ⟨h.old, h.fresh, h.ok, h.items, h.limit, ?_, ?_, h.closing⟩
  · intro s sec hs hin
    by_cases heq : s = sv
    · rw [heq]
    · rw [Function.update_of_ne heq] at hs
      exact (hfree s sec hs hin).elim
  · intro s c t hs
    by_cases heq : s = sv
    · cases heq
      rw [Function.update_self, Option.some.injEq] at hs
      exact hchosen c t hs
    · rw [Function.update_of_ne heq] at hs
      exact (hfree s _ hs rfl).elim

theorem restate (h : ThreadInv cfg closed places threads stat sections pool) (hx : stat t = some x)
    {state : States} (hok : (SimpleStat.mk state x.itemsCount).Ok cfg.threadDelay)
    (hawaiting : x.state = .activeAwaiting → state = .activeAwaiting)
    (hclosed : x.state = .closing → state = .closing) :
    ThreadInv cfg closed places threads (Function.update stat t (some ⟨state, x.itemsCount⟩)) sections pool := by
  refine ⟨h.old, ?_, ?_, ?_, h.limit, h.lock, ?_, ?_⟩
  · intro d hd
    rw [Function.update_of_ne (Nat.ne_of_gt (Nat.lt_of_lt_of_le (h.lt_threads hx) hd))]
    exact h.fresh d hd
  · intro d y hy
    rcases update_cases hy with ⟨-, heq⟩ | ⟨-, hy⟩
    · cases heq
      exact hok
    · exact h.ok d y hy
  · intro d y hy
    rcases update_cases hy with ⟨rfl, heq⟩ | ⟨-, hy⟩
    · cases heq
      exact h.items d x hx
    · exact h.items d y hy
  · intro s c d hs
    obtain ⟨y, hy, hstate, hlt⟩ := h.chosen s c d hs
    by_cases hd : d = t
    · cases hd
      rw [hx] at hy
      cases hy
      exact ⟨_, Function.update_self .., hawaiting hstate, hlt⟩
    · exact ⟨y, by rwa [Function.update_of_ne hd], hstate, hlt⟩
  · intro d hd
    obtain ⟨hlt, hclosing⟩ := h.closing d hd
    refine ⟨hlt, fun y hy => ?_⟩
    rcases update_cases hy with ⟨rfl, heq⟩ | ⟨-, hy⟩
    · cases heq
      exact hclosed (hclosing x hx)
    · exact hclosing y hy

theorem choose (h : ThreadInv cfg closed places threads stat sections pool) (hx : stat t = some x)
    (hopen : x.state ≠ .closing) :
    ThreadInv cfg closed places threads (Function.update stat t (some { x with state := .activeAwaiting })) sections pool :=
  h.restate hx (.awaiting rfl) (fun _ => rfl) (fun hclosing => absurd hclosing hopen)

theorem add (h : ThreadInv cfg closed places threads stat sections pool) (hsec : sections sv = some (.threadSpecial c)) :
    ThreadInv cfg closed places (threads + 1) (Function.update stat threads (some ⟨.activeAwaiting, 0⟩))
      (Function.update sections sv (some (.threadChosen c threads))) pool := by
  have hpool : pool = some sv := h.lock sv _ hsec rfl
  have hpos : (0 : Int) < (max 1 cfg.connectionsPerThreads : Nat) := by omega
  have hzero : places.count (some threads) = 0 := by
    rw [List.count_eq_zero]
    exact fun hmem => Nat.lt_irrefl _ (h.old threads hmem)
  refine ⟨?_, ?_, ?_, ?_, h.limit, ?_, ?_, ?_⟩
  · exact fun d hd => Nat.lt_succ_of_lt (h.old d hd)
  · intro d hd
    rw [Function.update_of_ne (Nat.ne_of_gt hd)]
    exact h.fresh d (Nat.le_of_succ_le hd)
  · intro d y hy
    rcases update_cases hy with ⟨-, heq⟩ | ⟨-, hy⟩
    · cases heq
      exact .awaiting rfl
    · exact h.ok d y hy
  · intro d y hy
    rcases update_cases hy with ⟨rfl, heq⟩ | ⟨-, hy⟩
    · cases heq
      rw [hzero]
      rfl
    · exact h.items d y hy
  · intro s sec hs hin
    by_cases heq : s = sv
    · rw [heq, hpool]
    · rw [Function.update_of_ne heq] at hs
      exact h.lock s sec hs hin
  · intro s d t hs
    by_cases heq : s = sv
    · cases heq
      simp only [Function.update_self, Option.some.injEq, Section.threadChosen.injEq] at hs
      obtain ⟨rfl, rfl⟩ := hs
      exact ⟨_, Function.update_self .., rfl, hpos⟩
    · rw [Function.update_of_ne heq] at hs
      obtain ⟨y, hy, hrest⟩ := h.chosen s d t hs
      exact ⟨y, by rwa [Function.update_of_ne (Nat.ne_of_lt (h.lt_threads hy))], hrest⟩
  · intro d hd
    obtain ⟨hlt, hclosing⟩ := h.closing d hd
    refine ⟨Nat.lt_succ_of_lt hlt, fun y hy => ?_⟩
    rw [Function.update_of_ne (Nat.ne_of_lt hlt)] at hy
    exact hclosing y hy

theorem count_set {place : Option Nat} (hc : places[c]? = some place) (place' : Option Nat) (d : Nat) :
    (places.set c place').count (some d) + (if place = some d then 1 else 0) = places.count
    (some d) + (if place' = some d then 1 else 0) := by
  have hcount := countP_set_of_getElem? (p := (· == some d)) (b := place') hc
  simpa only [List.count, beq_iff_eq] using hcount

theorem place (h : ThreadInv cfg closed places threads stat sections pool)
    (hsec : sections sv = some (.threadChosen c t)) (hc : places[c]? = some none) :
    ThreadInv cfg closed (places.set c (some t)) threads
      (Function.update stat t ((stat t).map fun x => ⟨.active, x.itemsCount + 1⟩))
      (Function.update sections sv (some (.adding c t))) none := by
  obtain ⟨x, hx, hawait, hlt⟩ := h.chosen sv c t hsec
  have hout := h.release (some (.adding c t)) hsec rfl (by simp [Section.inPool])
  have hfree : ∀ s d u, Function.update sections sv (some (.adding c t)) s = some (.threadChosen d u) → False := by
    intro s d u hs
    cases hout.lock s _ hs rfl
  simp only [hx, Option.map_some]
  refine ⟨?_, ?_, ?_, ?_, ?_, hout.lock, fun s d u hs => (hfree s d u hs).elim, ?_⟩
  · intro d hd
    rcases List.mem_or_eq_of_mem_set hd with hd | hd
    · exact h.old d hd
    · cases hd
      exact h.lt_threads hx
  · intro d hd
    rw [Function.update_of_ne (Nat.ne_of_gt (Nat.lt_of_lt_of_le (h.lt_threads hx) hd))]
    exact h.fresh d hd
  · intro d y hy
    rcases update_cases hy with ⟨-, heq⟩ | ⟨-, hy⟩
    · cases heq
      exact .active rfl
    · exact h.ok d y hy
  · intro d y hy
    have hcount := count_set hc (some t) d
    rcases update_cases hy with ⟨rfl, heq⟩ | ⟨hd, hy⟩
    · cases heq
      have hitems := h.items d x hx
      simp only [reduceCtorEq, if_false, if_true] at hcount
      simp only
      omega
    · have hitems := h.items d y hy
      simp only [reduceCtorEq, if_false, Option.some.injEq, if_neg (Ne.symm hd)] at hcount
      omega
  · intro d
    have hcount := count_set hc (some t) d
    simp only [reduceCtorEq, if_false] at hcount
    by_cases hd : t = d
    · cases hd
      have hitems := h.items t x hx
      rw [if_pos rfl] at hcount
      omega
    · rw [if_neg (by simpa using hd)] at hcount
      have hlim := h.limit d
      omega
  · intro d hd
    obtain ⟨hltd, hclosing⟩ := h.closing d hd
    refine ⟨hltd, fun y hy => ?_⟩
    rcases update_cases hy with ⟨rfl, -⟩ | ⟨-, hy⟩
    · rw [hclosing x hx] at hawait
      cases hawait
    · exact hclosing y hy

theorem leave (h : ThreadInv cfg closed places threads stat sections pool)
    (hc : places[c]? = some (some t)) : ThreadInv cfg closed (places.set c none) threads
      (Function.update stat t ((stat t).map fun x => ⟨x.state, x.itemsCount - 1⟩)) sections pool := by
  have hcases : ∀ {d y}, Function.update stat t ((stat t).map fun x => ⟨x.state, x.itemsCount - 1⟩) d = some y →
      ∃ x, stat d = some x ∧ ((d = t ∧ y = ⟨x.state, x.itemsCount - 1⟩) ∨ (d ≠ t ∧ y = x)) := by
    intro d y hy
    rcases update_cases hy with ⟨rfl, heq⟩ | ⟨hd, hy⟩
    · obtain ⟨x, hx, rfl⟩ := Option.map_eq_some_iff.mp heq
      exact ⟨x, hx, .inl ⟨rfl, rfl⟩⟩
    · exact ⟨y, hy, .inr ⟨hd, rfl⟩⟩
  have hpos : 0 < places.count (some t) := List.count_pos_iff.mpr (List.mem_of_getElem? hc)
  refine ⟨?_, ?_, ?_, ?_, ?_, h.lock, ?_, ?_⟩
  · intro d hd
    rcases List.mem_or_eq_of_mem_set hd with hd | hd
    · exact h.old d hd
    · cases hd
  · intro d hd
    by_cases hdt : d = t
    · cases hdt
      simp [h.fresh t hd]
    · rw [Function.update_of_ne hdt]
      exact h.fresh d hd
  · intro d y hy
    obtain ⟨x, hx, ⟨rfl, rfl⟩ | ⟨-, rfl⟩⟩ := hcases hy
    · have hitems := h.items d x hx
      have hok := h.ok d x hx
      refine ⟨fun h₁ h₂ => ?_, hok.waits⟩
      -- 閉じようとする糸は、空である。
      have hempty := hok.idle h₁ h₂
      omega
    · exact h.ok d y hx
  · intro d y hy
    have hcount := count_set hc none d
    obtain ⟨x, hx, ⟨rfl, rfl⟩ | ⟨hd, rfl⟩⟩ := hcases hy
    · have hitems := h.items d x hx
      simp only [reduceCtorEq, if_false, if_true] at hcount
      simp only
      omega
    · have hitems := h.items d y hx
      simp only [reduceCtorEq, if_false, Option.some.injEq, if_neg (Ne.symm hd)] at hcount
      omega
  · intro d
    have hcount := count_set hc none d
    have hlim := h.limit d
    simp only [reduceCtorEq, if_false] at hcount
    omega
  · intro s e d hs
    obtain ⟨x, hx, hawait, hlt⟩ := h.chosen s e d hs
    by_cases hd : d = t
    · cases hd
      refine ⟨⟨x.state, x.itemsCount - 1⟩, by simp [hx], hawait, Int.lt_of_le_of_lt (Int.sub_le_self _ (by decide)) hlt⟩
    · exact ⟨x, by rwa [Function.update_of_ne hd], hawait, hlt⟩
  · intro d hd
    obtain ⟨hltd, hclosing⟩ := h.closing d hd
    refine ⟨hltd, fun y hy => ?_⟩
    obtain ⟨x, hx, ⟨rfl, rfl⟩ | ⟨-, rfl⟩⟩ := hcases hy
    · exact hclosing x hx
    · exact hclosing y hx

theorem tryClose (h : ThreadInv cfg closed places threads stat sections pool)
    (hd : Representable cfg.threadDelay) (map : List View) (hx : stat t = some x) :
    ThreadInv cfg closed places threads
      (Function.update stat t (some ⟨(whenCloseEntity cfg.threadDelay t x map).1, x.itemsCount⟩)) sections pool := by
  obtain ⟨hok, -, hawaiting, hclosed⟩ := whenCloseEntity_spec hd (h.ok t x hx) t map
  exact h.restate hx hok hawaiting hclosed

theorem close (h : ThreadInv cfg closed places threads stat sections pool) {closed' : Nat → Prop}
    (hclosed : ∀ d, closed' d → closed d ∨ ∃ x, stat d = some x ∧ x.state = .closing) :
    ThreadInv cfg closed' places threads stat sections pool := by
  refine { h with closing := fun d hd => ?_ }
  rcases hclosed d hd with hd | ⟨x, hx, hclosing⟩
  · exact h.closing d hd
  · refine ⟨h.lt_threads hx, fun y hy => ?_⟩
    rw [hx] at hy
    cases hy
    exact hclosing

theorem remove (h : ThreadInv cfg closed places threads stat sections none) :
    ThreadInv cfg closed places threads (Function.update stat t none) sections none := by
  have hsub : ∀ {d y}, Function.update stat t none d = some y → stat d = some y := by
    intro d y hy
    rcases update_cases hy with ⟨-, heq⟩ | ⟨-, hy⟩
    · cases heq
    · exact hy
  refine ⟨h.old, ?_, fun d y hy => h.ok d y (hsub hy), fun d y hy => h.items d y (hsub hy), h.limit, h.lock, ?_,
    fun d hd => ⟨(h.closing d hd).1, fun y hy => (h.closing d hd).2 y (hsub hy)⟩⟩
  · intro d hd
    by_cases hdt : d = t
    · simp [hdt]
    · rw [Function.update_of_ne hdt]
      exact h.fresh d hd
  · intro s c d hs
    cases h.lock s _ hs rfl

theorem append (h : ThreadInv cfg closed places threads stat sections pool) :
    ThreadInv cfg closed (places ++ [none]) threads stat sections pool := by
  have hcount : ∀ t, (places ++ [none]).count (some t) = places.count (some t) := by
    intro t
    rw [List.count_append]
    simp
  refine { h with old := ?_, items := ?_, limit := ?_ }
  · intro t ht
    rcases List.mem_append.mp ht with ht | ht
    · exact h.old t ht
    · simp at ht
  · intro t x hx
    rw [h.items t x hx, hcount]
  · intro t
    rw [hcount]
    exact h.limit t

end ThreadInv

end UnixCommons.HTTP.HttpAsyncPool
