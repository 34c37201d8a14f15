import UnixCommons.HTTP.Lemmas.EventThreadPool

/-!
# 接続の集まりの補題

接続についての条件は、接続の物と方針の記録との関係であり、一つの接続が変わる歩みで保たれることを、一度だけ示す。
-/

namespace UnixCommons.HTTP.HttpAsyncPool

open Lib PoolPolicy

/-! ## 接続の条件 -/

structure RecordOk (delay : Int) (o : ConnObject) (r : Connection) : Prop where
  stat : r.toSimpleStat.Ok delay
  items : r.itemsCount = o.calls + o.failed + o.held
  server : r.server = if o.listed then some o.server else none
  thread : r.thread = o.place.thread?

structure ConnOk (delay : Int) (o : ConnObject) (r : Option Connection) : Prop where
  present : r.isSome = (o.listed || o.place.thread?.isSome)
  record : ∀ x, r = some x → RecordOk delay o x

def Section.Fits (place : Place) : Section → Prop
  | .created _ | .threadSpecial _ | .threadChosen _ _ | .notPlaced _ => place = .unplaced
  | .adding _ t | .threadThrew _ t => place = .adding t
  | .special | .ready _ => True

/-- `add_request` の扱う接続は、選ばれたままである。 -/
structure Section.Holds (server : Nat) (sec : Section) (o : ConnObject) (r : Option Connection) : Prop where
  server : o.server = server
  listed : o.listed = true
  fits : sec.Fits o.place
  awaiting : ∃ x, r = some x ∧ x.state = .activeAwaiting

structure ConnInv (cfg : Settings) (closed : Nat → Prop) (conns : List ConnObject) (connections : Nat → Option Connection)
    (servers : Nat → Option (List Nat)) (sections : Nat → Option Section) : Prop where
  fresh : ∀ c, conns.length ≤ c → connections c = none
  conn : ∀ c o, conns[c]? = some o → ConnOk cfg.connectionDelay o (connections c)
  known : ∀ (c : Nat) (o : ConnObject), conns[c]? = some o → servers o.server ≠ none
  entered : ∀ sv sec, sections sv = some sec → servers sv ≠ none
  sect : ∀ sv sec c, sections sv = some sec → sec.conn? = some c → ∃ o, conns[c]? = some o ∧ sec.Holds sv o (connections c)
  list : ∀ sv ptrs, servers sv = some ptrs → ptrs.Nodup ∧ ∀ c, c ∈ ptrs ↔ ∃ o : ConnObject,
    conns[c]? = some o ∧ o.server = sv ∧ o.listed = true
  limit : ∀ sv ptrs, servers sv = some ptrs →
    ptrs.countP (nonClosing connections) + (if sections sv = some .special then 1 else 0) ≤ max 1 cfg.connectionsPerServer
  closing : ∀ c, closed c → c < conns.length ∧ nonClosing connections c = false

namespace ConnInv

variable {cfg : Settings} {closed : Nat → Prop} {conns : List ConnObject} {connections : Nat → Option Connection}
variable {servers : Nat → Option (List Nat)} {sections : Nat → Option Section} {c sv : Nat}
    {o o' : ConnObject} {r' : Option Connection}
variable {sec : Section} {sec' : Option Section}

theorem lt_length (ho : conns[c]? = some o) : c < conns.length := (List.getElem?_eq_some_iff.mp ho).1

theorem countP_le {connections' : Nat → Option Connection}
    (h : ∀ c, nonClosing connections' c = true → nonClosing connections c = true)
    (ptrs : List Nat) :
    ptrs.countP (nonClosing connections') ≤ ptrs.countP (nonClosing connections) :=
  List.countP_mono_left fun c _ hc => h c hc

theorem nonClosing_update (hmono : r'.any (·.state != .closing) = true → nonClosing connections c = true) (d : Nat)
    (hd : nonClosing (Function.update connections c r') d = true) : nonClosing connections d = true := by
  by_cases hdc : d = c
  · cases hdc
    exact hmono (by simpa [nonClosing] using hd)
  · simpa [nonClosing, hdc] using hd

theorem getElem?_set_cases {d : Nat} {x : ConnObject} (ho : conns[c]? = some o)
    (hx : (conns.set c o')[d]? = some x) : (d = c ∧ x = o') ∨ (d ≠ c ∧ conns[d]? = some x) := by
  by_cases hd : d = c
  · cases hd
    rw [List.getElem?_set_self (lt_length ho)] at hx
    exact .inl ⟨rfl, (Option.some.inj hx).symm⟩
  · rw [List.getElem?_set_ne (Ne.symm hd)] at hx
    exact .inr ⟨hd, hx⟩

theorem sect_other (h : ConnInv cfg closed conns connections servers sections)
    (ho : conns[c]? = some o) {d : Nat} (hsv : sv ≠ o.server)
    (hsec : sections sv = some sec) (hd : sec.conn? = some d) :
    ∃ x, (conns.set c o')[d]? = some x ∧ sec.Holds sv x (Function.update connections c r' d) := by
  obtain ⟨x, hx, hhx⟩ := h.sect sv sec d hsec hd
  have hdc : d ≠ c := by
    rintro rfl
    rw [ho] at hx
    cases hx
    exact hsv hhx.server.symm
  refine ⟨x, ?_, ?_⟩
  · rwa [List.getElem?_set_ne (Ne.symm hdc)]
  · rwa [Function.update_of_ne hdc]

theorem closing_update (h : ConnInv cfg closed conns connections servers sections)
    (hmono : r'.any (·.state != .closing) = true → nonClosing connections c = true) (d : Nat) (hd : closed d) :
    d < (conns.set c o').length ∧ nonClosing (Function.update connections c r') d = false := by
  obtain ⟨hlt, hclosing⟩ := h.closing d hd
  refine ⟨by rwa [List.length_set], ?_⟩
  cases hn : nonClosing (Function.update connections c r') d with
  | false => rfl
  | true =>
      rw [nonClosing_update hmono d hn] at hclosing
      cases hclosing

theorem update (h : ConnInv cfg closed conns connections servers sections) (o' : ConnObject)
    (r' : Option Connection) (sec' : Option Section)
    (ho : conns[c]? = some o) (hserver : o'.server = o.server) (hlisted : o'.listed = o.listed)
    (hok : ConnOk cfg.connectionDelay o' r')
    (hmono : r'.any (·.state != .closing) = true → nonClosing connections c = true)
    (hspecial : sec' = some .special → sections o.server = some .special)
    (hhold : ∀ sec, sec' = some sec → sec.conn? = some c → sec.Holds o.server o' r')
    (hother : ∀ sec d, sec' = some sec → sec.conn? = some d → d ≠ c →
    sections o.server = some sec) : ConnInv cfg closed (conns.set c o')
      (Function.update connections c r') servers (Function.update sections o.server sec') := by
  have hc : c < conns.length := lt_length ho
  have hopen : ∀ d, nonClosing (Function.update connections c r') d = true →
      nonClosing connections d = true := nonClosing_update hmono
  constructor
  · intro d hd
    rw [List.length_set] at hd
    rw [Function.update_of_ne (by omega)]
    exact h.fresh d hd
  · intro d x hx
    rcases getElem?_set_cases ho hx with ⟨rfl, rfl⟩ | ⟨hd, hx⟩
    · simpa using hok
    · simpa [hd] using h.conn d x hx
  · intro d x hx
    rcases getElem?_set_cases ho hx with ⟨rfl, rfl⟩ | ⟨hd, hx⟩
    · rw [hserver]
      exact h.known d o ho
    · exact h.known d x hx
  · intro s sec hsec
    by_cases hs : s = o.server
    · cases hs
      exact h.known c o ho
    · rw [Function.update_of_ne hs] at hsec
      exact h.entered s sec hsec
  · intro s sec d hsec hd
    by_cases hs : s = o.server
    · cases hs
      rw [Function.update_self] at hsec
      by_cases hdc : d = c
      · cases hdc
        exact ⟨o', List.getElem?_set_self hc, by simpa using hhold sec hsec hd⟩
      · obtain ⟨x, hx, hhx⟩ := h.sect _ sec d (hother sec d hsec hd hdc) hd
        refine ⟨x, ?_, ?_⟩
        · rwa [List.getElem?_set_ne (Ne.symm hdc)]
        · simpa [hdc] using hhx
    · rw [Function.update_of_ne hs] at hsec
      exact h.sect_other ho hs hsec hd
  · intro s ptrs hptrs
    obtain ⟨hnodup, hmem⟩ := h.list s ptrs hptrs
    refine ⟨hnodup, fun d => (hmem d).trans ?_⟩
    by_cases hd : d = c
    · cases hd
      constructor
      · rintro ⟨x, hx, hsv, hl⟩
        rw [ho] at hx
        cases hx
        exact ⟨o', List.getElem?_set_self hc, hserver.trans hsv, hlisted.trans hl⟩
      · rintro ⟨x, hx, hsv, hl⟩
        rw [List.getElem?_set_self hc] at hx
        cases hx
        exact ⟨o, ho, hserver.symm.trans hsv, hlisted.symm.trans hl⟩
    · simp [List.getElem?_set_ne (Ne.symm hd)]
  · intro s ptrs hptrs
    have hle := countP_le hopen ptrs
    have hlim := h.limit s ptrs hptrs
    have hsec : (if Function.update sections o.server sec' s = some .special then 1 else 0) ≤
        if sections s = some .special then 1 else 0 := by
      by_cases hs : s = o.server
      · cases hs
        rw [Function.update_self]
        split
        · rename_i heq
          rw [if_pos (hspecial heq)]
        · exact Nat.zero_le _
      · rw [Function.update_of_ne hs]
    omega
  · exact h.closing_update hmono

theorem keep (h : ConnInv cfg closed conns connections servers sections) (o' : ConnObject)
    (r' : Option Connection) (ho : conns[c]? = some o) (hserver : o'.server = o.server)
    (hlisted : o'.listed = o.listed) (hok : ConnOk cfg.connectionDelay o' r')
    (hmono : r'.any (·.state != .closing) = true → nonClosing connections c = true)
    (hhold : ∀ sec : Section, sec.conn? = some c → sec.Holds o.server o (connections c) → sec.Holds o.server o' r') :
    ConnInv cfg closed (conns.set c o') (Function.update connections c r') servers sections := by
  have hupdate := h.update o' r' (sections o.server) ho hserver hlisted hok hmono id
    (fun sec hsec hc => by
      obtain ⟨x, hx, hhx⟩ := h.sect _ sec c hsec hc
      rw [ho] at hx
      cases hx
      exact hhold sec hc hhx)
    (fun _ _ hsec _ _ => hsec)
  rwa [Function.update_eq_self] at hupdate

theorem object (h : ConnInv cfg closed conns connections servers sections) (ho : conns[c]? = some o)
    (hserver : o'.server = o.server)
    (hlisted : o'.listed = o.listed) (hok : ConnOk cfg.connectionDelay o' (connections c))
    (hfits : ∀ sec : Section, sec.Fits o.place → sec.Fits o'.place) :
    ConnInv cfg closed (conns.set c o') connections servers sections := by
  have hkeep := h.keep o' (connections c) ho hserver hlisted hok id
    (fun sec _ hold => ⟨hserver, hlisted.trans hold.listed, hfits sec hold.fits, hold.awaiting⟩)
  rwa [Function.update_eq_self] at hkeep

theorem enter (h : ConnInv cfg closed conns connections servers sections) (sv : Nat)
    (sec' : Option Section) (hsv : servers sv ≠ none)
    (hspecial : sec' = some .special → ∀ ptrs, servers sv = some ptrs →
    ptrs.countP (nonClosing connections) < max 1 cfg.connectionsPerServer)
    (hhold : ∀ sec c, sec' = some sec → sec.conn? = some c → ∃ o, conns[c]? = some o ∧ sec.Holds sv o (connections c)) :
    ConnInv cfg closed conns connections servers (Function.update sections sv sec') := by
  refine ⟨h.fresh, h.conn, h.known, ?_, ?_, h.list, ?_, h.closing⟩
  · intro s sec hsec
    by_cases hs : s = sv
    · exact hs ▸ hsv
    · rw [Function.update_of_ne hs] at hsec
      exact h.entered s sec hsec
  · intro s sec c hsec hc
    by_cases hs : s = sv
    · cases hs
      rw [Function.update_self] at hsec
      exact hhold sec c hsec hc
    · rw [Function.update_of_ne hs] at hsec
      exact h.sect s sec c hsec hc
  · intro s ptrs hptrs
    by_cases hs : s = sv
    · cases hs
      have hle : ptrs.countP (nonClosing connections) ≤ max 1 cfg.connectionsPerServer :=
        Nat.le_of_add_right_le (h.limit sv ptrs hptrs)
      rw [Function.update_self]
      split
      · rename_i heq
        exact hspecial heq ptrs hptrs
      · exact hle
    · rw [Function.update_of_ne hs]
      exact h.limit s ptrs hptrs

theorem advance (h : ConnInv cfg closed conns connections servers sections) {next : Section} (hsec : sections sv = some sec)
    (hsame : next.conn? = sec.conn?) (hnext : next ≠ .special) (hfits : ∀ place, sec.Fits place → next.Fits place) :
    ConnInv cfg closed conns connections servers (Function.update sections sv (some next)) := by
  refine h.enter sv _ (h.entered sv sec hsec) (fun heq => absurd (Option.some.inj heq) hnext) ?_
  intro s c hs hc
  cases hs
  obtain ⟨o, ho, hold⟩ := h.sect sv sec c hsec (hsame ▸ hc)
  exact ⟨o, ho, hold.server, hold.listed, hfits _ hold.fits, hold.awaiting⟩

theorem close (h : ConnInv cfg closed conns connections servers sections) {closed' : Nat → Prop}
    (hclosed : ∀ d, closed' d → closed d ∨ (d < conns.length ∧ nonClosing connections d = false)) :
    ConnInv cfg closed' conns connections servers sections :=
  { h with closing := fun d hd => (hclosed d hd).elim (h.closing d) id }

theorem serverAdded (h : ConnInv cfg closed conns connections servers sections) (hnone : servers sv = none) :
    ConnInv cfg closed conns connections (Function.update servers sv (some [])) sections := by
  have hne : ∀ {s}, servers s ≠ none → s ≠ sv := fun hs heq => hs (heq ▸ hnone)
  refine ⟨h.fresh, h.conn, ?_, ?_, h.sect, ?_, ?_, h.closing⟩
  · intro c o ho
    rw [Function.update_of_ne (hne (h.known c o ho))]
    exact h.known c o ho
  · intro s sec hsec
    rw [Function.update_of_ne (hne (h.entered s sec hsec))]
    exact h.entered s sec hsec
  · intro s ptrs hptrs
    by_cases hs : s = sv
    · cases hs
      simp only [Function.update_self, Option.some.injEq] at hptrs
      cases hptrs
      refine ⟨List.nodup_nil, fun c => ⟨fun hc => absurd hc List.not_mem_nil, ?_⟩⟩
      rintro ⟨o, ho, rfl, -⟩
      exact absurd hnone (h.known c o ho)
    · rw [Function.update_of_ne hs] at hptrs
      exact h.list s ptrs hptrs
  · intro s ptrs hptrs
    by_cases hs : s = sv
    · cases hs
      simp only [Function.update_self, Option.some.injEq] at hptrs
      cases hptrs
      have hsec : sections sv ≠ some .special := fun heq => h.entered sv _ heq hnone
      simp [hsec]
    · rw [Function.update_of_ne hs] at hptrs
      exact h.limit s ptrs hptrs

theorem mem_insertAt {position x y : Nat} {xs : List Nat} : y ∈ insertAt position x xs ↔ y = x ∨ y ∈ xs := by
  have hsplit : y ∈ xs ↔ y ∈ xs.take position ∨ y ∈ xs.drop position := by
    rw [← List.mem_append, List.take_append_drop]
  rw [insertAt, List.mem_append, List.mem_cons, hsplit]
  exact or_left_comm

theorem insertAt_perm (position x : Nat) (xs : List Nat) : (insertAt position x xs).Perm (x :: xs) := by
  have hperm : (insertAt position x xs).Perm (x :: (xs.take position ++ xs.drop position)) := List.perm_middle
  rwa [List.take_append_drop] at hperm

theorem create (h : ConnInv cfg closed conns connections servers sections) (position : Nat)
    (hsec : sections sv = some .special) :
    ConnInv cfg closed (conns ++ [.new sv]) (Function.update connections conns.length (some (.new sv)))
      (Function.update servers sv ((servers sv).map (insertAt position conns.length)))
      (Function.update sections sv (some (.created conns.length))) := by
  have hget : ∀ {c o}, (conns ++ [ConnObject.new sv])[c]? = some o →
      (c < conns.length ∧ conns[c]? = some o) ∨ (c = conns.length ∧ o = .new sv) := by
    intro c o ho
    rcases Nat.lt_or_ge c conns.length with hlt | hge
    · exact .inl ⟨hlt, by rwa [List.getElem?_append_left hlt] at ho⟩
    · have hlt := (List.getElem?_eq_some_iff.mp ho).1
      simp only [List.length_append, List.length_singleton] at hlt
      have heq : c = conns.length := by omega
      cases heq
      simp only [List.getElem?_concat_length, Option.some.injEq] at ho
      exact .inr ⟨rfl, ho.symm⟩
  have hnew : (conns ++ [ConnObject.new sv])[conns.length]? = some (.new sv) := List.getElem?_concat_length
  have hsv : servers sv ≠ none := h.entered sv _ hsec
  obtain ⟨old, hold⟩ := Option.ne_none_iff_exists'.mp hsv
  -- 新しい接続の番号は、どの表にもない。
  have hfresh : ∀ {s ptrs}, servers s = some ptrs → conns.length ∉ ptrs := by
    intro s ptrs hptrs hmem
    obtain ⟨o, ho, -⟩ := ((h.list s ptrs hptrs).2 _).mp hmem
    exact Nat.lt_irrefl _ (lt_length ho)
  have hcount : ∀ {s ptrs}, servers s = some ptrs →
      ptrs.countP (nonClosing (Function.update connections conns.length (some (.new sv)))) =
      ptrs.countP (nonClosing connections) := by
    intro s ptrs hptrs
    apply List.countP_congr
    intro d hd
    have hne : d ≠ conns.length := fun heq => hfresh hptrs (heq ▸ hd)
    simp [nonClosing, hne]
  constructor
  · intro c hc
    rw [List.length_append, List.length_singleton] at hc
    rw [Function.update_of_ne (by omega)]
    exact h.fresh c (by omega)
  · intro c o ho
    rcases hget ho with ⟨hlt, ho⟩ | ⟨rfl, rfl⟩
    · rw [Function.update_of_ne (Nat.ne_of_lt hlt)]
      exact h.conn c o ho
    · rw [Function.update_self]
      refine ⟨rfl, fun x hx => ?_⟩
      cases hx
      exact ⟨.awaiting rfl, rfl, rfl, rfl⟩
  · intro c o ho
    by_cases hs : o.server = sv
    · simp [hs, hold]
    · rw [Function.update_of_ne hs]
      rcases hget ho with ⟨-, ho⟩ | ⟨-, rfl⟩
      · exact h.known c o ho
      · exact absurd rfl hs
  · intro s sec hs
    by_cases heq : s = sv
    · simp [heq, hold]
    · rw [Function.update_of_ne heq] at hs ⊢
      exact h.entered s sec hs
  · intro s sec c hs hc
    by_cases heq : s = sv
    · cases heq
      simp only [Function.update_self, Option.some.injEq] at hs
      cases hs
      cases hc
      exact ⟨_, hnew, rfl, rfl, rfl, _, Function.update_self .., rfl⟩
    · rw [Function.update_of_ne heq] at hs
      obtain ⟨o, ho, hhold⟩ := h.sect s sec c hs hc
      have hlt := lt_length ho
      refine ⟨o, by rwa [List.getElem?_append_left hlt], ?_⟩
      rwa [Function.update_of_ne (Nat.ne_of_lt hlt)]
  · intro s ptrs hptrs
    -- 他のサーバの表は、変わらない。
    have hmem : ∀ {s ptrs}, servers s = some ptrs → ∀ c, c ≠ conns.length →
        (c ∈ ptrs ↔ ∃ o, (conns ++ [ConnObject.new sv])[c]? = some o ∧ o.server = s ∧ o.listed = true) := by
      intro s ptrs hptrs c hc
      rw [(h.list s ptrs hptrs).2 c]
      constructor
      · rintro ⟨o, ho, hrest⟩
        exact ⟨o, by rwa [List.getElem?_append_left (lt_length ho)], hrest⟩
      · rintro ⟨o, ho, hrest⟩
        rcases hget ho with ⟨-, ho⟩ | ⟨heq, -⟩
        · exact ⟨o, ho, hrest⟩
        · exact absurd heq hc
    by_cases heq : s = sv
    · cases heq
      simp only [Function.update_self, hold, Option.map_some, Option.some.injEq] at hptrs
      cases hptrs
      constructor
      · rw [(insertAt_perm ..).nodup_iff, List.nodup_cons]
        exact ⟨hfresh hold, (h.list sv old hold).1⟩
      · intro c
        rw [mem_insertAt]
        by_cases hc : c = conns.length
        · cases hc
          exact ⟨fun _ => ⟨_, hnew, rfl, rfl⟩, fun _ => .inl rfl⟩
        · rw [← hmem hold c hc]
          simp [hc]
    · rw [Function.update_of_ne heq] at hptrs
      refine ⟨(h.list s ptrs hptrs).1, fun c => ?_⟩
      by_cases hc : c = conns.length
      · cases hc
        constructor
        · exact fun hmem => absurd hmem (hfresh hptrs)
        · rintro ⟨o, ho, hserver, -⟩
          rw [hnew] at ho
          cases ho
          exact absurd hserver.symm heq
      · exact hmem hptrs c hc
  · intro s ptrs hptrs
    by_cases heq : s = sv
    · cases heq
      simp only [Function.update_self, hold, Option.map_some, Option.some.injEq] at hptrs
      cases hptrs
      have hlim := h.limit sv old hold
      rw [if_pos hsec] at hlim
      have hopen : nonClosing (Function.update connections conns.length (some (.new sv))) conns.length = true := by
        simp [nonClosing, Connection.new]
      rw [(insertAt_perm ..).countP_eq, List.countP_cons, hcount hold, if_pos hopen,
        Function.update_self, if_neg (by simp), Nat.add_zero]
      exact hlim
    · rw [Function.update_of_ne heq] at hptrs
      rw [hcount hptrs, Function.update_of_ne heq]
      exact h.limit s ptrs hptrs
  · intro c hc
    obtain ⟨hlt, hclosing⟩ := h.closing c hc
    refine ⟨?_, ?_⟩
    · rw [List.length_append]
      exact Nat.lt_add_right _ hlt
    · simpa [nonClosing, Nat.ne_of_lt hlt] using hclosing

theorem excluded_record (h : ConnInv cfg closed conns connections servers sections)
    (ho : conns[c]? = some o) {r : Connection} (hr : connections c = some r) :
    ConnOk cfg.connectionDelay { o with listed := false }
      (if r.thread.isSome then some { r with server := none } else none) := by
  have hrec := (h.conn c o ho).record r hr
  constructor
  · rw [hrec.thread]
    cases o.place.thread? <;> rfl
  · intro x hx
    split at hx
    · cases hx
      exact ⟨hrec.stat, hrec.items, rfl, hrec.thread⟩
    · cases hx

theorem exclude (h : ConnInv cfg closed conns connections servers sections)
    (ho : conns[c]? = some o) (hok : ConnOk cfg.connectionDelay { o with listed := false } r')
    (hmono : r'.any (·.state != .closing) = true → nonClosing connections c = true) :
    ConnInv cfg closed (conns.set c { o with listed := false }) (Function.update connections c r')
      (Function.update servers o.server ((servers o.server).map (·.erase c))) (Function.update sections o.server none) := by
  have hc : c < conns.length := lt_length ho
  have hopen : ∀ d, nonClosing (Function.update connections c r') d = true →
      nonClosing connections d = true := nonClosing_update hmono
  have hmap : ∀ {s}, servers s ≠ none → Function.update servers o.server ((servers o.server).map (·.erase c)) s ≠ none := by
    intro s hs
    by_cases heq : s = o.server
    · cases heq
      simpa using hs
    · rwa [Function.update_of_ne heq]
  constructor
  · intro d hd
    rw [List.length_set] at hd
    rw [Function.update_of_ne (by omega)]
    exact h.fresh d hd
  · intro d x hx
    rcases getElem?_set_cases ho hx with ⟨rfl, rfl⟩ | ⟨hd, hx⟩
    · simpa using hok
    · simpa [hd] using h.conn d x hx
  · intro d x hx
    rcases getElem?_set_cases ho hx with ⟨rfl, rfl⟩ | ⟨-, hx⟩
    · exact hmap (h.known d o ho)
    · exact hmap (h.known d x hx)
  · intro s sec hsec
    by_cases hs : s = o.server
    · cases hs
      simp at hsec
    · rw [Function.update_of_ne hs] at hsec
      exact hmap (h.entered s sec hsec)
  · intro s sec d hsec hd
    by_cases hs : s = o.server
    · cases hs
      simp at hsec
    · rw [Function.update_of_ne hs] at hsec
      exact h.sect_other ho hs hsec hd
  · intro s ptrs hptrs
    by_cases hs : s = o.server
    · cases hs
      obtain ⟨old, hold⟩ := Option.ne_none_iff_exists'.mp (h.known c o ho)
      simp only [Function.update_self, hold, Option.map_some, Option.some.injEq] at hptrs
      cases hptrs
      obtain ⟨hnodup, hmem⟩ := h.list _ old hold
      refine ⟨hnodup.erase c, fun d => ?_⟩
      rw [hnodup.mem_erase_iff, hmem]
      by_cases hd : d = c
      · cases hd
        simp [hc]
      · simp [hd, List.getElem?_set_ne (Ne.symm hd)]
    · rw [Function.update_of_ne hs] at hptrs
      obtain ⟨hnodup, hmem⟩ := h.list s ptrs hptrs
      refine ⟨hnodup, fun d => (hmem d).trans ?_⟩
      by_cases hd : d = c
      · cases hd
        constructor
        · rintro ⟨x, hx, hsx, -⟩
          rw [ho] at hx
          cases hx
          exact absurd hsx.symm hs
        · rintro ⟨x, hx, -, hl⟩
          rw [List.getElem?_set_self hc] at hx
          cases hx
          cases hl
      · simp [List.getElem?_set_ne (Ne.symm hd)]
  · intro s ptrs hptrs
    by_cases hs : s = o.server
    · cases hs
      obtain ⟨old, hold⟩ := Option.ne_none_iff_exists'.mp (h.known c o ho)
      simp only [Function.update_self, hold, Option.map_some, Option.some.injEq] at hptrs
      cases hptrs
      rw [Function.update_self, if_neg (by simp), Nat.add_zero]
      calc
        (old.erase c).countP (nonClosing (Function.update connections c r'))
          ≤ (old.erase c).countP (nonClosing connections) := countP_le hopen _
        _ ≤ old.countP (nonClosing connections) := List.erase_sublist.countP_le
        _ ≤ max 1 cfg.connectionsPerServer := Nat.le_of_add_right_le (h.limit _ old hold)
    · rw [Function.update_of_ne hs] at hptrs ⊢
      exact Nat.le_trans (Nat.add_le_add_right (countP_le hopen _) _) (h.limit s ptrs hptrs)
  · exact h.closing_update hmono

end ConnInv

end UnixCommons.HTTP.HttpAsyncPool
