import UnixCommons.Generics.FileCache

/-! # ファイルのキャッシュの補題 -/

namespace UnixCommons.Generics.FileCache

open Lib

variable {σ ε : Type} {s t : State σ} {i : Nat} {p q r : Point} {e : Event}
    {objectIsChanged : CheckStrategy σ ε} {action : Action ε}

/-! ## 呼び出しの数 -/

def State.callsAt (s : State σ) (p : Point) : Nat := s.calls.countP (· == p)

theorem callsAt_set (h : s.calls[i]? = some p) (q r : Point) :
    (s.calls.set i q).countP (· == r) + (if p = r then 1 else 0) = s.callsAt r + (if q = r then 1 else 0) := by
  have hset := @countP_set_of_getElem? Point s.calls i p q (· == r) h
  simpa [State.callsAt] using hset

theorem callsAt_at (h : s.calls[i]? = some p) (q r : Point) :
    (s.at i q).callsAt r + (if p = r then 1 else 0) = s.callsAt r + (if q = r then 1 else 0) := callsAt_set h q r

theorem callsAt_at_ne (h : s.calls[i]? = some p) (hp : p ≠ r) (hq : q ≠ r) : (s.at i q).callsAt r = s.callsAt r := by
  have hset := callsAt_at h q r
  simpa [hp, hq] using hset

theorem callsAt_pos (h : s.calls[i]? = some p) : 0 < s.callsAt p := countP_pos_of_getElem? h (by simp)

theorem mem_of_callsAt : p ∈ s.calls ↔ 0 < s.callsAt p := by
  simp [State.callsAt, List.countP_pos_iff]

/-! ## 不変条件 -/

structure State.Locked (s : State σ) : Prop where
  owner : ∀ (i : Nat) (p : Point), s.calls[i]? = some p → p.inside = true → s.mutex = some i
  updating : ∀ i : Nat, s.calls[i]? = some Point.updating → s.buffer = false

structure State.Counted (s : State σ) : Prop where
  users : s.mutex ≠ none ∨ 0 < s.callsAt .waiting → 0 < s.users
  held : s.buffer = true ↔ 0 < s.callsAt .holding
  cache : s.cache = s.buffer
  unreferenced : s.unreferencedBuffer = true ↔ s.buffer = false ∧ 0 < s.cacheRefs
  refCount : s.refCount = s.callsAt .holding + s.unreferencedBuffer.toNat
  cacheRefs : s.cacheRefs = s.users + s.cache.toNat + s.callsAt .releasing
  destroyed : s.destroyed = true ↔ s.cacheRefs = 0

theorem State.Locked.init (checker : σ) : (State.init checker).Locked := ⟨by simp [State.init], by simp [State.init]⟩

theorem State.Counted.init (checker : σ) : (State.init checker).Counted := by
  constructor <;> simp [State.init, State.callsAt]

/-! ## 鍵 -/

theorem State.Locked.move (hs : s.Locked) (hm : t.mutex = s.mutex)
    (hnew : ∀ (j : Nat) (p : Point), t.calls[j]? = some p → p.inside = true → s.calls[j]? = some p)
    (hb : t.buffer = true → s.buffer = true) : t.Locked := by
  constructor
  · intro j p hj hp
    rw [hm]
    exact hs.owner j p (hnew j p hj hp) hp
  · intro j hj
    have hfalse := hs.updating j (hnew j _ hj rfl)
    cases ht : t.buffer with
    | false => rfl
    | true => exact absurd (hb ht) (by simp [hfalse])

theorem State.Locked.unique (hs : s.Locked) (hi : s.calls[i]? = some p) (hp : p.inside = true)
    {j : Nat} (hj : s.calls[j]? = some q) (hq : q.inside = true) : j = i := by
  have howner := hs.owner i p hi hp
  rw [hs.owner j q hj hq] at howner
  exact Option.some.inj howner

theorem State.Locked.single (hm : t.mutex = some i)
    (hother : ∀ (j : Nat) (p : Point), t.calls[j]? = some p → p.inside = true → j = i)
    (hb : t.calls[i]? = some Point.updating → t.buffer = false) : t.Locked := by
  constructor
  · intro j p hj hp
    rw [hm, hother j p hj hp]
  · intro j hj
    obtain rfl := hother j _ hj rfl
    exact hb hj

theorem State.Locked.none (hother : ∀ (j : Nat) (p : Point), t.calls[j]? = some p → p.inside = true → False) : t.Locked :=
  ⟨fun j p hj hp => (hother j p hj hp).elim, fun j hj => (hother j _ hj rfl).elim⟩

theorem getElem?_at {j : Nat} : (s.at i q).calls[j]? = some p → i = j ∧ p = q ∨ i ≠ j ∧ s.calls[j]? = some p := by
  intro h
  simp only [State.at, List.getElem?_set] at h
  split_ifs at h with hij hlt
  · exact .inl ⟨hij, (Option.some.inj h).symm⟩
  · exact .inr ⟨hij, h⟩

/-! ## 一歩 -/

theorem step_get (h : step objectIsChanged s .get = some t) :
    s.mutex = none ∧ 0 < s.users ∧
      t = { s.note (.started s.calls.length) with mutex := some s.calls.length, calls := s.calls ++ [.checking] } := by
  simp only [step] at h
  split_ifs at h with hg
  exact ⟨hg.1, hg.2, (Option.some.inj h).symm⟩

theorem step_check {input : ε} (h : step objectIsChanged s (.check i input) = some t) :
    s.calls[i]? = some .checking ∧ ∃ checker',
      t = { ({ s with checker := checker' }.at i .finished).note (.threw i) with mutex := none } ∨
      t = { s with checker := checker' }.at i .sharing ∨
      s.buffer = true ∧ t = { ({ s with checker := checker' }.at i .waiting).note (.changed i) with mutex := none } ∨
      s.buffer = false ∧ t = ({ s with checker := checker' }.at i .updating).note (.changed i) := by
  simp only [step] at h
  rw [Option.ite_none_right_eq_some] at h
  obtain ⟨hg, h⟩ := h
  refine ⟨hg, (objectIsChanged s.checker input).1, ?_⟩
  cases hr : (objectIsChanged s.checker input).2 with
  | none =>
      simp only [hr] at h
      exact .inl (Option.some.inj h).symm
  | some changed =>
      cases changed with
      | false =>
          simp only [hr] at h
          exact .inr (.inl (Option.some.inj h).symm)
      | true =>
          simp only [hr] at h
          split_ifs at h with hb
          · exact .inr (.inr (.inl ⟨hb, (Option.some.inj h).symm⟩))
          · exact .inr (.inr (.inr ⟨Bool.not_eq_true _ ▸ hb, (Option.some.inj h).symm⟩))

theorem step_wake (h : step objectIsChanged s (.wake i) = some t) :
    s.calls[i]? = some .waiting ∧ s.mutex = none ∧
      t = { s.at i (if s.buffer then .sharing else .updating) with mutex := some i } := by
  simp only [step] at h
  rw [Option.ite_none_right_eq_some] at h
  exact ⟨h.1.1, h.1.2, (Option.some.inj h.2).symm⟩

theorem step_update {ok : Bool} (h : step objectIsChanged s (.update i ok) = some t) :
    s.calls[i]? = some .updating ∧
      (ok = true ∧ t = (s.at i .sharing).note .updated ∨ ok = false ∧
      t = { (s.at i .finished).note (.threw i) with mutex := none }) := by
  simp only [step] at h
  split_ifs at h with hg hok
  · exact ⟨hg, .inl ⟨hok, (Option.some.inj h).symm⟩⟩
  · exact ⟨hg, .inr ⟨Bool.not_eq_true _ ▸ hok, (Option.some.inj h).symm⟩⟩

theorem step_share (h : step objectIsChanged s (.share i) = some t) :
    s.calls[i]? = some .sharing ∧ t = { (s.at i .holding).shareBuffer.note (.returned i) with mutex := none } := by
  simp only [step] at h
  split_ifs at h with hg
  exact ⟨hg, (Option.some.inj h).symm⟩

theorem step_copy (h : step objectIsChanged s (.copy i) = some t) :
    s.calls[i]? = some .holding ∧ t = { s with refCount := s.refCount + 1, calls := s.calls ++ [.holding] } := by
  simp only [step] at h
  split_ifs at h with hg
  exact ⟨hg, (Option.some.inj h).symm⟩

theorem step_release (h : step objectIsChanged s (.release i) = some t) :
    s.calls[i]? = some .holding ∧ s.mutex = none ∧ t = s.removeRef i := by
  simp only [step] at h
  split_ifs at h with hg
  exact ⟨hg.1, hg.2, (Option.some.inj h).symm⟩

theorem step_releaseCache (h : step objectIsChanged s (.releaseCache i) = some t) :
    s.calls[i]? = some .releasing ∧ (s.cacheRefs = 1 → s.mutex = none) ∧ t = (s.at i .finished).removeCacheRef := by
  simp only [step] at h
  split_ifs at h with hg
  exact ⟨hg.1, hg.2, (Option.some.inj h).symm⟩

theorem step_addUser (h : step objectIsChanged s .addUser = some t) :
    0 < s.users ∧ t = { s with users := s.users + 1, cacheRefs := s.cacheRefs + 1 } := by
  simp only [step] at h
  split_ifs at h with hg
  exact ⟨hg, (Option.some.inj h).symm⟩

theorem step_dropUser (h : step objectIsChanged s .dropUser = some t) :
    0 < s.users ∧ (s.users = 1 → s.mutex = none ∧ .waiting ∉ s.calls) ∧
      t = { s with users := s.users - 1 }.removeCacheRef := by
  simp only [step] at h
  split_ifs at h with hg
  exact ⟨hg.1, hg.2, (Option.some.inj h).symm⟩

/-! ## 鍵を保つ歩み -/

theorem getElem?_concat {α : Type} {l : List α} {a b : α} {j : Nat} (h : (l ++ [a])[j]? = some b) :
    l[j]? = some b ∨ j = l.length ∧ b = a := by
  rw [List.getElem?_append] at h
  split at h
  · exact .inl h
  · rw [List.getElem?_singleton, Option.ite_none_right_eq_some] at h
    exact .inr ⟨by omega, (Option.some.inj h.2).symm⟩

@[simp] theorem removeCacheRef_calls : s.removeCacheRef.calls = s.calls := by
  simp only [State.removeCacheRef]
  split_ifs <;> rfl

@[simp] theorem removeCacheRef_mutex : s.removeCacheRef.mutex = s.mutex := by
  simp only [State.removeCacheRef]
  split_ifs <;> rfl

@[simp] theorem removeCacheRef_buffer : s.removeCacheRef.buffer = s.buffer := by
  simp only [State.removeCacheRef]
  split_ifs <;> rfl

@[simp] theorem removeCacheRef_log : s.removeCacheRef.log = s.log := by
  simp only [State.removeCacheRef]
  split_ifs <;> rfl

theorem removeRef_calls : ∃ q, q.inside = false ∧ q ≠ .waiting ∧ (s.removeRef i).calls = s.calls.set i q := by
  simp only [State.removeRef]
  split_ifs
  · exact ⟨.finished, rfl, by simp, rfl⟩
  · exact ⟨.releasing, rfl, by simp, rfl⟩
  · exact ⟨.finished, rfl, by simp, rfl⟩

@[simp] theorem removeRef_log : (s.removeRef i).log = s.log := by
  simp only [State.removeRef]
  split_ifs <;> rfl

@[simp] theorem shareBuffer_calls : s.shareBuffer.calls = s.calls := by
  simp only [State.shareBuffer]
  split_ifs <;> rfl

@[simp] theorem shareBuffer_log : s.shareBuffer.log = s.log := by
  simp only [State.shareBuffer]
  split_ifs <;> rfl

theorem inside_at {j : Nat} (hq : q.inside = false) (hj : (s.at i q).calls[j]? = some p)
    (hp : p.inside = true) : i ≠ j ∧ s.calls[j]? = some p := by
  rcases getElem?_at hj with ⟨-, rfl⟩ | h
  · simp [hq] at hp
  · exact h

theorem State.Locked.leave (hs : s.Locked) (hi : s.calls[i]? = some p) (hp : p.inside = true)
    (hq : q.inside = false) (hc : t.calls = (s.at i q).calls) : t.Locked := by
  apply State.Locked.none
  intro j r hj hr
  rw [hc] at hj
  obtain ⟨hij, hj⟩ := inside_at hq hj hr
  exact hij (hs.unique hi hp hj hr).symm

theorem State.Locked.stay (hs : s.Locked) (hi : s.calls[i]? = some p) (hp : p.inside = true) (hm : t.mutex = s.mutex)
    (hc : t.calls = (s.at i q).calls) (hb : q = .updating → t.buffer = false) : t.Locked := by
  apply State.Locked.single (hm.trans (hs.owner i p hi hp))
  · intro j r hj hr
    rw [hc] at hj
    rcases getElem?_at hj with ⟨rfl, -⟩ | ⟨-, hj⟩
    · rfl
    · exact hs.unique hi hp hj hr
  · intro hi'
    rw [hc] at hi'
    rcases getElem?_at hi' with ⟨-, hq⟩ | ⟨hne, -⟩
    · exact hb hq.symm
    · exact absurd rfl hne

theorem State.Locked.step (hs : s.Locked) (h : step objectIsChanged s action = some t) : t.Locked := by
  cases action with
  | get =>
      obtain ⟨hm, -, rfl⟩ := step_get h
      have hlast : ∀ (j : Nat) (p : Point), (s.calls ++ [.checking])[j]? = some p →
          p.inside = true → j = s.calls.length ∧ p = .checking := by
        intro j p hj hp
        rcases getElem?_concat hj with hj | hlast
        · exact absurd (hs.owner j p hj hp) (by simp [hm])
        · exact hlast
      apply State.Locked.single rfl
      · intro j p hj hp
        exact (hlast j p hj hp).1
      · intro hj
        cases (hlast _ _ hj rfl).2
  | check i input =>
      obtain ⟨hi, checker', rfl | rfl | ⟨-, rfl⟩ | ⟨hb, rfl⟩⟩ := step_check h
      · exact hs.leave hi rfl (q := .finished) rfl rfl
      · exact hs.stay hi rfl rfl rfl (by simp)
      · exact hs.leave hi rfl (q := .waiting) rfl rfl
      · exact hs.stay hi rfl rfl rfl (fun _ => hb)
  | wake i =>
      obtain ⟨hi, hm, rfl⟩ := step_wake h
      have hother : ∀ (j : Nat) (p : Point), s.calls[j]? = some p → p.inside = true → False := by
        intro j p hj hp
        exact absurd (hs.owner j p hj hp) (by simp [hm])
      apply State.Locked.single rfl
      · intro j p hj hp
        rcases getElem?_at hj with ⟨rfl, -⟩ | ⟨-, hj⟩
        · rfl
        · exact (hother j p hj hp).elim
      · intro hj
        rcases getElem?_at hj with ⟨-, hq⟩ | ⟨hne, -⟩
        · cases hb : s.buffer with
          | false => exact hb
          | true => simp [hb] at hq
        · exact absurd rfl hne
  | update i ok =>
      obtain ⟨hi, ⟨-, rfl⟩ | ⟨-, rfl⟩⟩ := step_update h
      · exact hs.stay hi rfl rfl rfl (by simp)
      · exact hs.leave hi rfl (q := .finished) rfl rfl
  | share i =>
      obtain ⟨hi, rfl⟩ := step_share h
      exact hs.leave hi rfl (q := .holding) rfl (by simp [State.note])
  | copy i =>
      obtain ⟨-, rfl⟩ := step_copy h
      refine hs.move rfl ?_ id
      intro j p hj hp
      rcases getElem?_concat hj with hj | ⟨-, rfl⟩
      · exact hj
      · cases hp
  | release i =>
      obtain ⟨hi, hm, rfl⟩ := step_release h
      obtain ⟨q, hq, -, hc⟩ := @removeRef_calls σ s i
      apply State.Locked.none
      intro j p hj hp
      rw [hc] at hj
      obtain ⟨-, hj⟩ := inside_at hq hj hp
      exact absurd (hs.owner j p hj hp) (by simp [hm])
  | releaseCache i =>
      obtain ⟨hi, -, rfl⟩ := step_releaseCache h
      apply hs.move (by simp [State.at])
      · intro j p hj hp
        rw [removeCacheRef_calls] at hj
        exact (inside_at rfl hj hp).2
      · simp [State.at]
  | addUser =>
      obtain ⟨-, rfl⟩ := step_addUser h
      exact hs.move rfl (fun _ _ hj _ => hj) id
  | dropUser =>
      obtain ⟨-, -, rfl⟩ := step_dropUser h
      exact hs.move (by simp) (fun j p hj hp => by simpa using hj) (by simp)

/-! ## 参照の数を保つ歩み -/

theorem State.Counted.move (hs : s.Counted) (hu : t.mutex ≠ none ∨ 0 < t.callsAt .waiting → 0 < s.users)
    (hheld : t.callsAt .holding = s.callsAt .holding) (hrel : t.callsAt .releasing = s.callsAt .releasing)
    (hsame : t.refCount = s.refCount ∧ t.cache = s.cache ∧ t.destroyed = s.destroyed ∧ t.buffer = s.buffer ∧
      t.unreferencedBuffer = s.unreferencedBuffer ∧ t.cacheRefs = s.cacheRefs ∧ t.users = s.users) : t.Counted := by
  obtain ⟨hr, hc, hd, hb, hun, hcr, hus⟩ := hsame
  constructor
  · rw [hus]
    exact hu
  · rw [hb, hheld]
    exact hs.held
  · rw [hc, hb]
    exact hs.cache
  · rw [hun, hb, hcr]
    exact hs.unreferenced
  · rw [hr, hheld, hun]
    exact hs.refCount
  · rw [hcr, hus, hc, hrel]
    exact hs.cacheRefs
  · rw [hd, hcr]
    exact hs.destroyed

theorem State.Counted.pass (hs : s.Counted) (hpos : 0 < s.users) (hi : s.calls[i]? = some p)
    (hp : p ≠ .holding ∧ p ≠ .releasing)
    (hq : q ≠ .holding ∧ q ≠ .releasing) (hc : t.calls = (s.at i q).calls)
    (hsame : t.refCount = s.refCount ∧ t.cache = s.cache ∧ t.destroyed = s.destroyed ∧ t.buffer = s.buffer ∧
      t.unreferencedBuffer = s.unreferencedBuffer ∧ t.cacheRefs = s.cacheRefs ∧ t.users = s.users) : t.Counted := by
  have hcalls : ∀ r, t.callsAt r = (s.at i q).callsAt r := fun r => by simp [State.callsAt, hc]
  apply hs.move (fun _ => hpos) _ _ hsame
  · rw [hcalls]
    exact callsAt_at_ne hi hp.1 hq.1
  · rw [hcalls]
    exact callsAt_at_ne hi hp.2 hq.2

theorem State.Counted.removeCacheRef (hu : s.mutex ≠ none ∨ 0 < s.callsAt .waiting → 0 < s.users)
    (hheld : s.buffer = true ↔ 0 < s.callsAt .holding) (hcache : s.cache = s.buffer)
    (hun : s.unreferencedBuffer = true ↔ s.buffer = false)
    (hr : s.refCount = s.callsAt .holding + s.unreferencedBuffer.toNat)
    (hcr : s.cacheRefs = s.users + s.cache.toNat + s.callsAt .releasing + 1)
    (hd : s.destroyed = false) : s.removeCacheRef.Counted := by
  have hcalls : ∀ p, s.removeCacheRef.callsAt p = s.callsAt p := fun p => by simp [State.callsAt]
  by_cases hlast : s.cacheRefs = 1
  · have hcfalse : s.cache = false := by
      cases hc : s.cache with
      | false => rfl
      | true =>
          simp [hc] at hcr
          omega
    have hbfalse : s.buffer = false := hcache ▸ hcfalse
    have hone : s.refCount = 1 := by
      rw [hr, hun.mpr hbfalse]
      have hzero : s.callsAt .holding = 0 := by
        have := hheld.not
        simp [hbfalse] at this
        exact this
      simp [hzero]
    have heq : s.removeCacheRef =
      { s with cacheRefs := 0, unreferencedBuffer := false, refCount := 0, destroyed := true } := by
      simp [State.removeCacheRef, hlast, hun.mpr hbfalse, hone]
    rw [hcfalse] at hcr
    constructor
    · rw [hcalls]
      simpa [heq] using hu
    · simpa [hcalls] using hheld
    · simpa [heq] using hcache
    · simp [heq]
    · rw [hcalls, heq]
      simp only [Bool.toNat_false]
      have := hheld.not
      simp [hbfalse] at this
      omega
    · rw [hcalls, heq]
      simp [hcfalse] at hcr ⊢
      omega
    · simp [heq]
  · have heq : s.removeCacheRef = { s with cacheRefs := s.cacheRefs - 1 } := by
      have hne : s.cacheRefs - 1 ≠ 0 := by omega
      simp [State.removeCacheRef, hne]
    have hpos : 0 < s.cacheRefs - 1 := by omega
    constructor
    · rw [hcalls]
      simpa [heq] using hu
    · simpa [hcalls] using hheld
    · simpa [heq] using hcache
    · simpa [heq, hpos] using hun
    · rw [hcalls, heq]
      exact hr
    · rw [hcalls, heq]
      simp only
      omega
    · rw [heq]
      simp only [hd]
      simp
      omega

theorem State.Counted.addRef (hs : s.Counted) (hb : s.buffer = true)
    (hu : t.mutex ≠ none ∨ 0 < t.callsAt .waiting → 0 < s.users)
    (hheld : t.callsAt .holding = s.callsAt .holding + 1)
    (hrel : t.callsAt .releasing = s.callsAt .releasing) (hr : t.refCount = s.refCount + 1)
    (hsame : t.cache = s.cache ∧ t.destroyed = s.destroyed ∧ t.buffer = s.buffer ∧
      t.unreferencedBuffer = s.unreferencedBuffer ∧ t.cacheRefs = s.cacheRefs ∧ t.users = s.users) : t.Counted := by
  obtain ⟨hc, hd, htb, hun, hcr, hus⟩ := hsame
  constructor
  · rw [hus]
    exact hu
  · simp [htb, hheld, hb]
  · rw [hc, htb]
    exact hs.cache
  · rw [hun, htb, hcr]
    exact hs.unreferenced
  · rw [hr, hheld, hun, hs.refCount]
    omega
  · rw [hcr, hus, hc, hrel]
    exact hs.cacheRefs
  · rw [hd, hcr]
    exact hs.destroyed

theorem State.Counted.share (hs : s.Counted) (hpos : 0 < s.users) (hi : s.calls[i]? = some .sharing) :
    { (s.at i .holding).shareBuffer.note (.returned i) with mutex := none }.Counted := by
  have hheld : (s.at i .holding).callsAt .holding = s.callsAt .holding + 1 := callsAt_at hi .holding .holding
  have hrel : (s.at i .holding).callsAt .releasing = s.callsAt .releasing := callsAt_at_ne hi (by simp) (by simp)
  cases hb : s.buffer with
  | true =>
      have hshare : (s.at i .holding).shareBuffer = { s.at i .holding with refCount := s.refCount + 1 } := by
        simp [State.shareBuffer, State.at, hb]
      rw [hshare]
      exact hs.addRef hb (fun _ => hpos) hheld hrel rfl ⟨rfl, rfl, rfl, rfl, rfl, rfl⟩
  | false =>
      have hcache := hs.cache
      have hcr := hs.cacheRefs
      rw [hb] at hcache
      rw [hcache] at hcr
      have hun : s.unreferencedBuffer = true := hs.unreferenced.mpr ⟨hb, by omega⟩
      have hr := hs.refCount
      rw [hun] at hr
      have hd := hs.destroyed
      have hshare : (s.at i .holding).shareBuffer =
          { s.at i .holding with
            buffer := true, unreferencedBuffer := false, cache := true, cacheRefs := s.cacheRefs + 1 } := by
        simp [State.shareBuffer, State.at, hb, hun]
      rw [hshare]
      constructor
      · exact fun _ => hpos
      · apply iff_of_true rfl
        exact Nat.lt_of_lt_of_eq (Nat.succ_pos _) hheld.symm
      · rfl
      · simp [State.note]
      · apply hr.trans
        exact hheld.symm
      · change s.cacheRefs + 1 = s.users + 1 + (s.at i .holding).callsAt .releasing
        simp only [Bool.toNat_false] at hcr
        omega
      · change s.destroyed = true ↔ s.cacheRefs + 1 = 0
        simp only [hd]
        omega

theorem State.Counted.removeRef (hs : s.Counted) (hi : s.calls[i]? = some .holding) : (s.removeRef i).Counted := by
  have hb : s.buffer = true := hs.held.mpr (callsAt_pos hi)
  have hc : s.cache = true := hs.cache.trans hb
  have hun : s.unreferencedBuffer = false := by
    cases hun : s.unreferencedBuffer with
    | false => rfl
    | true => exact absurd (hs.unreferenced.mp hun).1 (by simp [hb])
  have hr : s.refCount = s.callsAt .holding := by
    simpa [hun] using hs.refCount
  have hcr : s.cacheRefs = s.users + 1 + s.callsAt .releasing := by
    simpa [hc] using hs.cacheRefs
  by_cases hlast : s.callsAt .holding = 1
  · have hheld : (s.at i .releasing).callsAt .holding + 1 = s.callsAt .holding := callsAt_at hi .releasing .holding
    have hrel : (s.at i .releasing).callsAt .releasing = s.callsAt .releasing + 1 := callsAt_at hi .releasing .releasing
    have hwait : (s.at i .releasing).callsAt .waiting = s.callsAt .waiting := callsAt_at_ne hi (by simp) (by simp)
    have hremove : s.removeRef i =
        { s.at i .releasing with refCount := 1, cache := false, unreferencedBuffer := true, buffer := false } := by
      simp [State.removeRef, State.resetBuffer, State.at, hr, hlast, hc, hb]
    rw [hremove]
    constructor
    · exact fun h => hs.users (hwait ▸ h)
    · apply iff_of_false (by simp)
      exact Nat.not_lt_of_le (Nat.le_of_eq (by exact Nat.succ.inj (hheld.trans hlast)))
    · rfl
    · apply iff_of_true rfl
      exact ⟨rfl, Nat.lt_of_lt_of_eq (by omega) hcr.symm⟩
    · exact (Nat.zero_add 1).symm.trans (congrArg (· + 1) (Nat.succ.inj (hheld.trans hlast)).symm)
    · change s.cacheRefs = s.users + 0 + (s.at i .releasing).callsAt .releasing
      omega
    · exact hs.destroyed
  · have hheld : (s.at i .finished).callsAt .holding + 1 = s.callsAt .holding := callsAt_at hi .finished .holding
    have hrel : (s.at i .finished).callsAt .releasing = s.callsAt .releasing := callsAt_at_ne hi (by simp) (by simp)
    have hwait : (s.at i .finished).callsAt .waiting = s.callsAt .waiting := callsAt_at_ne hi (by simp) (by simp)
    have hne : s.refCount - 1 ≠ 0 := by omega
    have hremove : s.removeRef i = { s.at i .finished with refCount := s.refCount - 1 } := by
      simp [State.removeRef, State.at, hne]
    rw [hremove]
    constructor
    · exact fun h => hs.users (hwait ▸ h)
    · apply iff_of_true hb
      change 0 < (s.at i .finished).callsAt .holding
      omega
    · exact hs.cache
    · exact hs.unreferenced
    · change s.refCount - 1 = (s.at i .finished).callsAt .holding + s.unreferencedBuffer.toNat
      simp only [hun, Bool.toNat_false]
      omega
    · change s.cacheRefs = s.users + s.cache.toNat + (s.at i .finished).callsAt .releasing
      rw [hrel]
      exact hs.cacheRefs
    · exact hs.destroyed

theorem State.Counted.alive (hs : s.Counted) (h : 0 < s.cacheRefs) :
    s.destroyed = false ∧ (s.unreferencedBuffer = true ↔ s.buffer = false) := by
  constructor
  · cases hd : s.destroyed with
    | false => rfl
    | true => exact absurd (hs.destroyed.mp hd) (by omega)
  · simp [hs.unreferenced, h]

theorem State.Counted.step (hl : s.Locked) (hs : s.Counted) (h : step objectIsChanged s action = some t) : t.Counted := by
  cases action with
  | get =>
      obtain ⟨hm, hpos, rfl⟩ := step_get h
      exact hs.move (fun _ => hpos) (by simp [State.callsAt]) (by simp [State.callsAt]) ⟨rfl, rfl, rfl, rfl, rfl, rfl, rfl⟩
  | check i input =>
      obtain ⟨hi, checker', hcases⟩ := step_check h
      have hpos : 0 < s.users := hs.users (.inl (by simp [hl.owner i _ hi rfl]))
      rcases hcases with rfl | rfl | ⟨-, rfl⟩ | ⟨-, rfl⟩
      · exact hs.pass hpos hi (by simp) (q := .finished) (by simp) rfl ⟨rfl, rfl, rfl, rfl, rfl, rfl, rfl⟩
      · exact hs.pass hpos hi (by simp) (q := .sharing) (by simp) rfl ⟨rfl, rfl, rfl, rfl, rfl, rfl, rfl⟩
      · exact hs.pass hpos hi (by simp) (q := .waiting) (by simp) rfl ⟨rfl, rfl, rfl, rfl, rfl, rfl, rfl⟩
      · exact hs.pass hpos hi (by simp) (q := .updating) (by simp) rfl ⟨rfl, rfl, rfl, rfl, rfl, rfl, rfl⟩
  | wake i =>
      obtain ⟨hi, -, rfl⟩ := step_wake h
      have hpos : 0 < s.users := hs.users (.inr (callsAt_pos hi))
      refine hs.pass hpos hi (by simp) ?_ rfl ⟨rfl, rfl, rfl, rfl, rfl, rfl, rfl⟩
      cases s.buffer with
      | true => simp
      | false => simp
  | update i ok =>
      obtain ⟨hi, hcases⟩ := step_update h
      have hpos : 0 < s.users := hs.users (.inl (by simp [hl.owner i _ hi rfl]))
      rcases hcases with ⟨-, rfl⟩ | ⟨-, rfl⟩
      · exact hs.pass hpos hi (by simp) (q := .sharing) (by simp) rfl ⟨rfl, rfl, rfl, rfl, rfl, rfl, rfl⟩
      · exact hs.pass hpos hi (by simp) (q := .finished) (by simp) rfl ⟨rfl, rfl, rfl, rfl, rfl, rfl, rfl⟩
  | share i =>
      obtain ⟨hi, rfl⟩ := step_share h
      exact hs.share (hs.users (.inl (by simp [hl.owner i _ hi rfl]))) hi
  | copy i =>
      obtain ⟨hi, rfl⟩ := step_copy h
      have hb : s.buffer = true := hs.held.mpr (callsAt_pos hi)
      refine hs.addRef hb ?_ ?_ ?_ rfl ⟨rfl, rfl, rfl, rfl, rfl, rfl⟩
      · simpa [State.callsAt] using hs.users
      · simp [State.callsAt]
      · simp [State.callsAt]
  | release i =>
      obtain ⟨hi, -, rfl⟩ := step_release h
      exact hs.removeRef hi
  | releaseCache i =>
      obtain ⟨hi, -, rfl⟩ := step_releaseCache h
      have hheld : (s.at i .finished).callsAt .holding = s.callsAt .holding := callsAt_at_ne hi (by simp) (by simp)
      have hrel : (s.at i .finished).callsAt .releasing + 1 = s.callsAt .releasing := callsAt_at hi .finished .releasing
      have hwait : (s.at i .finished).callsAt .waiting = s.callsAt .waiting := callsAt_at_ne hi (by simp) (by simp)
      have hcr := hs.cacheRefs
      obtain ⟨hd, hun⟩ := hs.alive (by omega)
      refine .removeCacheRef (fun h => hs.users (hwait ▸ h)) (hheld ▸ hs.held) hs.cache hun (hheld ▸ hs.refCount) ?_ hd
      rw [← hrel] at hcr
      exact hcr
  | addUser =>
      obtain ⟨hpos, rfl⟩ := step_addUser h
      have hcr := hs.cacheRefs
      obtain ⟨hd, hun⟩ := hs.alive (by omega)
      constructor
      · exact fun _ => Nat.succ_pos _
      · exact hs.held
      · exact hs.cache
      · simpa using hun
      · exact hs.refCount
      · change s.cacheRefs + 1 = s.users + 1 + s.cache.toNat + s.callsAt .releasing
        omega
      · simp [hd]
  | dropUser =>
      obtain ⟨hpos, hquiet, rfl⟩ := step_dropUser h
      have hcr := hs.cacheRefs
      obtain ⟨hd, hun⟩ := hs.alive (by omega)
      refine .removeCacheRef ?_ hs.held hs.cache hun hs.refCount ?_ hd
      · intro hbusy
        by_cases hone : s.users = 1
        · obtain ⟨hm, hwait⟩ := hquiet hone
          rw [mem_of_callsAt] at hwait
          exact absurd hbusy (by simp [hm]; exact Nat.eq_zero_of_not_pos hwait)
        · exact Nat.sub_pos_of_lt (by omega)
      · change s.cacheRefs = s.users - 1 + s.cache.toNat + s.callsAt .releasing + 1
        omega

structure State.Inv (s : State σ) : Prop where
  locked : s.Locked
  counted : s.Counted

theorem State.Inv.init (checker : σ) : (State.init checker).Inv := ⟨.init checker, .init checker⟩

theorem State.Inv.step (hs : s.Inv) (h : FileCache.step objectIsChanged s action = some t) : t.Inv :=
  ⟨hs.locked.step h, hs.counted.step hs.locked h⟩

/-! ## 知らせ -/

theorem served_cons (log : List Event) (hne : e ≠ .changed i) : served (e :: log) i = true ↔
    e = .updated ∨ served log i = true := by
  have hne' : (e != .changed i) = true := bne_iff_ne.mpr hne
  simp only [served, List.takeWhile_cons, hne', if_true, List.contains_cons, Bool.or_eq_true, beq_iff_eq]
  exact or_congr_left eq_comm

theorem served_updated (log : List Event) : served (.updated :: log) i = true := by
  simp [served_cons]

theorem mem_of_served {before after : List Event}
    (h : served (after ++ .changed i :: before) i = true) : .updated ∈ after := by
  induction after with
  | nil => simp [served] at h
  | cons e after ih =>
      by_cases he : e = .changed i
      · simp [served, he] at h
      · rw [List.cons_append, served_cons _ he] at h
        rcases h with rfl | h
        · exact List.mem_cons_self
        · exact List.mem_cons_of_mem _ (ih h)

def State.Pending (s : State σ) (i : Nat) : Prop := s.calls[i]? = some .waiting ∨ s.calls[i]? = some .updating

def Event.Ends (e : Event) (i : Nat) : Prop := e = .returned i ∨ e = .threw i

structure State.Answered (s : State σ) : Prop where
  pending : ∀ g, .changed g ∈ s.log → served s.log g = true ∨ s.Pending g
  ended : ∀ g e l₁ l₂ l₃, s.log = l₃ ++ e :: (l₂ ++ .changed g :: l₁) → e.Ends g → .updated ∈ l₂

theorem State.Answered.init (checker : σ) : (State.init checker).Answered := ⟨by simp [State.init], by simp [State.init]⟩

theorem State.Answered.quiet (hs : s.Answered) (hlog : t.log = s.log)
    (hpending : ∀ g, s.Pending g → t.Pending g ∨ served s.log g = true) : t.Answered := by
  constructor
  · intro g hg
    rw [hlog] at hg ⊢
    rcases hs.pending g hg with hserved | hp
    · exact .inl hserved
    · exact (hpending g hp).symm
  · rw [hlog]
    exact hs.ended

theorem State.Answered.event (hs : s.Answered) (hlog : t.log = e :: s.log)
    (hpending : ∀ g, s.Pending g → t.Pending g ∨ served t.log g = true) (hnew : ∀ g, e = .changed g → t.Pending g)
    (hend : ∀ g, e.Ends g → .changed g ∈ s.log → served s.log g = true) : t.Answered := by
  constructor
  · intro g hg
    by_cases he : e = .changed g
    · exact .inr (hnew g he)
    · rw [hlog, List.mem_cons] at hg
      rcases hs.pending g (hg.resolve_left (Ne.symm he)) with hserved | hp
      · rw [hlog]
        exact .inl ((served_cons _ he).mpr (.inr hserved))
      · exact (hpending g hp).symm
  · intro g e' l₁ l₂ l₃ h he'
    rw [hlog] at h
    cases l₃ with
    | nil =>
        obtain ⟨rfl, htail⟩ := List.cons.inj h
        have hmem : .changed g ∈ s.log := by simp [htail]
        have hserved := hend g he' hmem
        rw [htail] at hserved
        exact mem_of_served hserved
    | cons e'' l₃ => exact hs.ended g e' l₁ l₂ l₃ (List.cons.inj h).2 he'

theorem pending_at {g : Nat} (hg : s.Pending g) : g = i ∨ (s.at i q).Pending g := by
  by_cases hgi : g = i
  · exact .inl hgi
  · have hget : (s.at i q).calls[g]? = s.calls[g]? := by
      simp only [State.at]
      rw [List.getElem?_set_ne (Ne.symm hgi)]
    rw [State.Pending, hget]
    exact .inr hg

theorem pending_append {g : Nat} (hg : s.Pending g) (hc : t.calls = s.calls ++ [p]) : t.Pending g := by
  have hget : ∀ q, s.calls[g]? = some q → t.calls[g]? = some q := by
    intro q hq
    rw [hc, List.getElem?_append_left (List.getElem?_eq_some_iff.mp hq).1]
    exact hq
  exact hg.imp (hget _) (hget _)

theorem State.Answered.served_of (hs : s.Answered) (hi : s.calls[i]? = some p) (hw : p ≠ .waiting)
    (hu : p ≠ .updating) (hg : .changed i ∈ s.log) : served s.log i = true := by
  apply (hs.pending i hg).resolve_right
  simp [State.Pending, hi, hw, hu]

theorem pending_at_self (hi : s.calls[i]? = some p) (hq : q = .waiting ∨ q = .updating) : (s.at i q).Pending i := by
  have hlt : i < s.calls.length := (List.getElem?_eq_some_iff.mp hi).1
  simpa [State.Pending, State.at, List.getElem?_set, hlt] using hq

theorem pending_at_of_ne {g : Nat} (hi : s.calls[i]? = some p) (hw : p ≠ .waiting)
    (hu : p ≠ .updating) (hg : s.Pending g) : (s.at i q).Pending g := by
  apply (pending_at hg).resolve_left
  rintro rfl
  simp [State.Pending, hi, hw, hu] at hg

theorem State.Answered.step (hs : s.Answered) (hok : dropped s action = false)
    (h : step objectIsChanged s action = some t) : t.Answered := by
  cases action with
  | get =>
      obtain ⟨-, -, rfl⟩ := step_get h
      exact hs.event rfl (fun g hg => .inl (pending_append hg rfl)) (by simp) (by simp [Event.Ends])
  | check i input =>
      obtain ⟨hi, checker', rfl | rfl | ⟨-, rfl⟩ | ⟨-, rfl⟩⟩ := step_check h
      · apply hs.event rfl
        · exact fun g hg => .inl (pending_at_of_ne (q := .finished) hi (by simp) (by simp) hg)
        · simp
        · rintro g hg hmem
          obtain rfl : i = g := by simpa [Event.Ends] using hg
          exact hs.served_of hi (by simp) (by simp) hmem
      · exact hs.quiet rfl (fun g hg => .inl (pending_at_of_ne (q := .sharing) hi (by simp) (by simp) hg))
      · apply hs.event rfl
        · exact fun g hg => .inl (pending_at_of_ne (q := .waiting) hi (by simp) (by simp) hg)
        · rintro g hg
          obtain rfl : i = g := by simpa using hg
          exact pending_at_self (q := .waiting) hi (.inl rfl)
        · simp [Event.Ends]
      · apply hs.event rfl
        · exact fun g hg => .inl (pending_at_of_ne (q := .updating) hi (by simp) (by simp) hg)
        · rintro g hg
          obtain rfl : i = g := by simpa using hg
          exact pending_at_self (q := .updating) hi (.inr rfl)
        · simp [Event.Ends]
  | wake i =>
      obtain ⟨hi, -, rfl⟩ := step_wake h
      refine hs.quiet rfl ?_
      intro g hg
      cases hb : s.buffer with
      | true =>
          rcases pending_at (i := i) (q := .sharing) hg with rfl | hg
          · exact .inr (by simpa [dropped, hb] using hok)
          · exact .inl hg
      | false =>
          rcases pending_at (i := i) (q := .updating) hg with rfl | hg
          · exact .inl (pending_at_self (q := .updating) hi (.inr rfl))
          · exact .inl hg
  | update i ok =>
      obtain ⟨hi, ⟨-, rfl⟩ | ⟨rfl, rfl⟩⟩ := step_update h
      · exact hs.event rfl (fun g _ => .inr (served_updated _)) (by simp) (by simp [Event.Ends])
      · have hserved : served s.log i = true := by
          simpa [dropped] using hok
        apply hs.event rfl
        · intro g hg
          rcases pending_at (i := i) (q := .finished) hg with rfl | hg
          · exact .inr ((served_cons _ (by simp)).mpr (.inr hserved))
          · exact .inl hg
        · simp
        · intro g hg _
          obtain rfl : i = g := by simpa [Event.Ends] using hg
          exact hserved
  | share i =>
      obtain ⟨hi, rfl⟩ := step_share h
      apply hs.event (e := .returned i) (by simp [State.note, State.at])
      · intro g hg
        have hp : (s.at i .holding).Pending g := pending_at_of_ne hi (by simp) (by simp) hg
        exact .inl (by simpa [State.Pending, State.note] using hp)
      · simp
      · intro g hg hmem
        obtain rfl : i = g := by simpa [Event.Ends] using hg
        exact hs.served_of hi (by simp) (by simp) hmem
  | copy i =>
      obtain ⟨-, rfl⟩ := step_copy h
      exact hs.quiet rfl (fun g hg => .inl (pending_append hg rfl))
  | release i =>
      obtain ⟨hi, -, rfl⟩ := step_release h
      obtain ⟨q, -, -, hc⟩ := @removeRef_calls σ s i
      apply hs.quiet removeRef_log
      intro g hg
      have hp : (s.at i q).Pending g := pending_at_of_ne hi (by simp) (by simp) hg
      exact .inl (by simpa [State.Pending, State.at, hc] using hp)
  | releaseCache i =>
      obtain ⟨hi, -, rfl⟩ := step_releaseCache h
      apply hs.quiet (by simp [State.at])
      intro g hg
      have hp : (s.at i .finished).Pending g := pending_at_of_ne hi (by simp) (by simp) hg
      exact .inl (by simpa [State.Pending] using hp)
  | addUser =>
      obtain ⟨-, rfl⟩ := step_addUser h
      exact hs.quiet rfl (fun g hg => .inl hg)
  | dropUser =>
      obtain ⟨-, -, rfl⟩ := step_dropUser h
      exact hs.quiet (by simp) (fun g hg => .inl (by simpa [State.Pending] using hg))

end UnixCommons.Generics.FileCache
