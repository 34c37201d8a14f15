import UnixCommons.Generics.Lemmas.BoundedMapEvict
import UnixCommons.Lib.Machine

/-!
# 上限のある連想配列の定理

どの呼び出しの列の後でも、`container_` と `queue_` は同じ鍵を一つずつ持ち、`size_` は項目の大きさの和であり、最後の `clear` から後に定められた最も大きい上限を超えない。
-/

namespace UnixCommons.Generics.BoundedMap

open Lib

variable {κ δ τ : Type} [DecidableEq κ] [Add τ] [LT τ] [DecidableLT τ]
variable {m : State κ δ τ} {bound : Nat} {ops : List (Op κ δ τ)} {seen : List Nat}

/-- 表と並びの整合。鍵は同じで重ならず、項目の `order` は自分の節を指し、`size_` は大きさの和である。 -/
structure State.Consistent (m : State κ δ τ) : Prop where
  container_keys : (m.container.map Prod.fst).Nodup
  queue_keys : (m.queue.map fun n => n.key).Nodup
  same_keys : ∀ key, key ∈ m.container.map Prod.fst ↔ key ∈ m.queue.map fun n => n.key
  nodes : (m.queue.map fun n => n.node).Nodup
  order : ∀ e ∈ m.container, ∃ n ∈ m.queue, n.node = e.2.order ∧ n.key = e.1
  size_eq : m.size = (m.container.map fun e => e.2.size).sum

/-- 列のどの呼び出しでも、大きさの和は `size_t` からあふれない。 -/
def State.NoWrapRun (m : State κ δ τ) : List (Op κ δ τ) → Prop
  | [] => True
  | op :: ops => m.NoWrap op ∧ ∀ m', m.step op = .ok m' → m'.NoWrapRun ops

/-- 最後の `clear` から後に定められていた上限。`seen` は、列の前に定められていた上限である。 -/
def boundsInForce : Nat → List Nat → List (Op κ δ τ) → List Nat
  | _, seen, [] => seen
  | bound, seen, op :: ops =>
      match op with
      | .bound newBound => boundsInForce newBound (newBound :: seen) ops
      | .clear => boundsInForce bound [bound] ops
      | _ => boundsInForce bound seen ops

omit [Add τ] [LT τ] [DecidableLT τ] in
theorem State.Inv.consistent (h : m.Inv) : m.Consistent where
  container_keys := h.linked.container_keys
  queue_keys := h.linked.keys
  same_keys _ := h.linked.keys_perm.mem_iff
  nodes := h.linked.nodes
  order := by
    rintro ⟨key, item⟩ he
    obtain ⟨n, hn, ho, hk⟩ := h.linked.node_of_lookup (lookup_of_mem h.linked.container_keys he)
    exact ⟨n, hn, ho, hk⟩
  size_eq := h.linked.total_eq

theorem State.run_spec (h : m.Inv) (hw : m.NoWrapRun ops) (hb : m.bound ∈ seen) (hs : ∃ b ∈ seen, m.size ≤ b) :
    ∃ m', m.run ops = .ok m' ∧ m'.Inv ∧ m'.bound ∈ boundsInForce m.bound seen ops ∧
      ∃ b ∈ boundsInForce m.bound seen ops, m'.size ≤ b := by
  induction ops generalizing m seen with
  | nil => exact ⟨m, rfl, h, hb, hs⟩
  | cons op ops ih =>
      obtain ⟨m₁, hstep, hinv, hbound, hsize, hclear⟩ := (State.step_spec h op hw.1).exists_ok
      have hrun : m.run (op :: ops) = m₁.run ops := by
        show (m.step op >>= fun m => m.run ops) = _
        rw [hstep]
        rfl
      have hw₁ := hw.2 m₁ hstep
      -- 上限を変えない呼び出しでは、`size_` は前の値か上限で抑えられる。
      have hkeep : m₁.bound = m.bound → ∃ m', m₁.run ops = .ok m' ∧ m'.Inv ∧ m'.bound ∈ boundsInForce m.bound seen ops ∧
          ∃ b ∈ boundsInForce m.bound seen ops, m'.size ≤ b := by
        intro he
        rw [← he]
        refine ih hinv hw₁ (he ▸ hb) ?_
        rcases hsize with hle | hle
        · obtain ⟨b, hmem, hbs⟩ := hs
          exact ⟨b, hmem, Nat.le_trans hle hbs⟩
        · exact ⟨m.bound, hb, hle⟩
      rw [hrun]
      cases op with
      | bound newBound =>
          have he : m₁.bound = newBound := hbound
          obtain ⟨b, hmem, hbs⟩ := hs
          have hle : m₁.size ≤ m.size ∨ m₁.size ≤ m.bound := hsize
          have hex : ∃ b ∈ newBound :: seen, m₁.size ≤ b := by
            rcases hle with hle | hle
            · exact ⟨b, List.mem_cons_of_mem _ hmem, Nat.le_trans hle hbs⟩
            · exact ⟨m.bound, List.mem_cons_of_mem _ hb, hle⟩
          have := ih hinv hw₁ (he ▸ List.mem_cons_self) hex
          rwa [he] at this
      | clear =>
          have he : m₁.bound = m.bound := hbound
          have hex : ∃ b ∈ [m.bound], m₁.size ≤ b :=
            ⟨m.bound, List.mem_cons_self, Nat.le_trans (Nat.le_of_eq (hclear rfl)) (Nat.zero_le _)⟩
          have := ih hinv hw₁ (he ▸ List.mem_cons_self) hex
          rwa [he] at this
      | insert key data now policy fails => exact hkeep hbound
      | insertOrUpdate key data now policy fails => exact hkeep hbound
      | find key now => exact hkeep hbound
      | update key now policy => exact hkeep hbound
      | erase key => exact hkeep hbound
      | timeout newTimeout => exact hkeep hbound

/-- どの呼び出しの列も `assert` で止まらず、終わった状態では、表と並びが整合し、`size_` は最後の `clear` から後の最も大きい上限を
超えない。上限が下げられていなければ、`size_` は今の上限を超えない。 -/
theorem bounded_map_consistent (bound : Nat) (timeout : τ) (ops : List (Op κ δ τ))
    (hw : (State.init bound timeout : State κ δ τ).NoWrapRun ops) :
    ∃ m, (State.init bound timeout).run ops = .ok m ∧ m.Consistent ∧
      (∃ b ∈ boundsInForce bound [bound] ops, m.size ≤ b) ∧
      ((∀ b ∈ boundsInForce bound [bound] ops, b ≤ m.bound) → m.size ≤ m.bound) := by
  have hinit : (State.init bound timeout : State κ δ τ).Inv :=
    ⟨⟨List.Perm.refl _, List.nodup_nil, List.nodup_nil, rfl⟩, fun n hn =>
      absurd hn List.not_mem_nil, Nat.two_pow_pos 64⟩
  obtain ⟨m, hrun, hinv, -, b, hb, hle⟩ :=
    State.run_spec hinit hw List.mem_cons_self ⟨bound, List.mem_cons_self, Nat.zero_le bound⟩
  exact ⟨m, hrun, hinv.consistent, ⟨b, hb, hle⟩, fun hall => Nat.le_trans hle (hall b hb)⟩

/-- 二つまでの表に、三つの鍵を入れ、上限を一つに下げる列。 -/
def exampleOps : List (Op Nat Nat Nat) :=
  [.insert 1 10 0 (fun _ _ => 1) false, .insertOrUpdate 2 20 1 (fun _ _ => 1) false, .find 1 2,
    .insert 3 30 9 (fun _ _ => 1) false, .bound 1]

theorem bounded_map_consistent_example :
    (State.init 2 5 : State Nat Nat Nat).NoWrapRun exampleOps ∧
    ∃ m, (State.init 2 5 : State Nat Nat Nat).run exampleOps = .ok m ∧ m.Consistent ∧
      ∃ b ∈ boundsInForce 2 [2] exampleOps, m.size ≤ b := by
  have hw : (State.init 2 5 : State Nat Nat Nat).NoWrapRun exampleOps := by
    refine ⟨show 0 + 1 < 2 ^ 64 by decide, fun m₁ h₁ => ?_⟩
    obtain rfl := Except.ok.inj h₁
    refine ⟨show 1 + 1 < 2 ^ 64 by decide, fun m₂ h₂ => ?_⟩
    obtain rfl := Except.ok.inj h₂
    refine ⟨trivial, fun m₃ h₃ => ?_⟩
    obtain rfl := Except.ok.inj h₃
    refine ⟨show 2 + 1 < 2 ^ 64 by decide, fun m₄ h₄ => ?_⟩
    obtain rfl := Except.ok.inj h₄
    exact ⟨trivial, fun m₅ h₅ => trivial⟩
  obtain ⟨m, hrun, hcons, hle, -⟩ := bounded_map_consistent 2 5 exampleOps hw
  exact ⟨hw, m, hrun, hcons, hle⟩

end UnixCommons.Generics.BoundedMap

/-!
## 古い項目を除くことの定理

入れることと更新することは、操作する項目の他には、使われた順の始めの、古い項目だけを、要るだけ除く。
-/

namespace UnixCommons.Generics.BoundedMap

open Lib

variable {κ δ τ : Type} [DecidableEq κ]
variable {m m' : State κ δ τ} {q out kept : List (Ordered κ τ)} {key : κ} {item : Item δ}
    {size : Nat} {now : τ} {b : Bool}

/-- `SizePolicy` の値は `size_t` である。 -/
def Op.Sized : Op κ δ τ → Prop
  | .insert _ _ _ policy _ => ∀ key data, policy key data < 2 ^ 64
  | .insertOrUpdate _ _ _ policy _ => ∀ key data, policy key data < 2 ^ 64
  | .update _ _ policy => ∀ key data, policy key data < 2 ^ 64
  | _ => True

structure Operation (κ τ : Type) where
  key : κ
  size : Nat
  now : τ
  queue : List (Ordered κ τ)

/-- 入れるか更新する呼び出しが操作する項目。`insert` と `insert_or_update` では、見つかった項目は、先に終わりへ移る。 -/
def Op.operation (m : State κ δ τ) : Op κ δ τ → Option (Operation κ τ)
  | .insert key data now policy _ => some ⟨key, policy key data, now, recency key now m.queue⟩
  | .insertOrUpdate key data now policy _ => some ⟨key, policy key data, now, recency key now m.queue⟩
  | .update key now policy => (lookup key m.container).map fun item => ⟨key, policy key item.data, now, m.queue⟩
  | _ => none

section Evicts

variable [Add τ] [LT τ] [DecidableLT τ]

/-- 操作する項目の他では、使われた順の始めの、古い項目 `out` だけが、要るだけ除かれる。 -/
def State.EvictsOthers (m m' : State κ δ τ) (o : Operation κ τ) : Prop :=
  ∃ out kept, Evicts m o.key o.size o.now o.queue out kept ∧
    ∀ key, key ≠ o.key → lookup key m'.container = if key ∈ out.map fun n => n.key then none else lookup key m.container

def State.Removes (m m' : State κ δ τ) (key : κ) : Prop := (lookup key m.container).isSome ∧
    lookup key m'.container = none

omit [Add τ] [LT τ] [DecidableLT τ] in
theorem lookup_without (key : κ) (c : List (κ × Item δ)) :
    lookup key (without out c) = if key ∈ out.map fun n => n.key then none else lookup key c := by
  split
  · exact lookup_without_of_mem ‹_›
  · exact lookup_without_of_not_mem ‹_›

omit [DecidableLT τ] in
theorem Evicts.key_not_mem (h : Evicts m key size now q out kept) : key ∉ out.map fun n => n.key := by
  intro hmem
  obtain ⟨n, hn, heq⟩ := List.mem_map.mp hmem
  have hfilter : n ∈ q.filter fun n => n.key ≠ key := h.split ▸ List.mem_append_left _ hn
  simpa [heq] using (List.mem_filter.mp hfilter).2

omit [DecidableLT τ] in
theorem State.EvictsOthers.of_same {o : Operation κ τ} (h : m'.container = m.container) : m.EvictsOthers m' o :=
  ⟨[], _, .none, fun key _ => by simp [h]⟩

omit [DecidableLT τ] in
theorem Inserted.evictsOthers {fails : Bool} (h : Inserted m key fails out m')
    (hevicts : Evicts m key size now q out kept) : m.EvictsOthers m' ⟨key, size, now, q⟩ := by
  refine ⟨out, kept, hevicts, fun key' hne => ?_⟩
  rw [← lookup_without]
  cases h with
  | inserted item container stat =>
      rw [container, lookup, lookup, List.find?_append]
      simp [Ne.symm hne]
  | rejected container stat stays => rw [container]
  | threw thrown container stat => rw [container]

theorem Updated.evictsOthers (h : Updated m key size now out m' b)
    (hevicts : Evicts m key size now q out kept) : m.EvictsOthers m' ⟨key, size, now, q⟩ := by
  refine ⟨out, kept, hevicts, fun key' hne => ?_⟩
  rw [← lookup_without]
  cases h with
  | updated item container stat => rw [container, lookup_setKey_of_ne hne]
  | removed none container stat unfit => rw [container, none, without_nil, lookup_eraseKey_of_ne hne]

theorem Updated.unfit (h : Updated m key size now out m' b)
    (hevicts : Evicts m key size now q out kept) (hremoves : m.Removes m' key) :
    Unfit m key size now m.queue := by
  cases h with
  | updated item container stat =>
      obtain ⟨item', hitem⟩ := Option.isSome_iff_exists.mp hremoves.1
      have hlookup : lookup key (without out m.container) = some item' := by
        rw [lookup_without_of_not_mem hevicts.key_not_mem, hitem]
      have hset : lookup key (setKey key item (without out m.container)) = some item := lookup_setKey hlookup
      rw [← container, hremoves.2] at hset
      cases hset
  | removed none container stat unfit => exact unfit

omit [Add τ] [LT τ] [DecidableLT τ] in
theorem eraseKey_setKey (c : List (κ × Item δ)) : eraseKey key (setKey key item c) = eraseKey key c := by
  induction c with
  | nil => rfl
  | cons e c ih =>
      simp only [eraseKey, setKey, List.map_cons, List.filter_cons] at ih ⊢
      by_cases he : e.1 = key
      · rw [if_pos he, ih]
        simp [he]
      · rw [if_neg he, ih]

omit [DecidableLT τ] in
theorem Evicts.of_assign {data : δ}
    (h : Evicts (m.assign key item data now) key size now q out kept) : Evicts m key size now q out kept := by
  refine ⟨h.split, h.expired, fun before n post heq => ?_⟩
  have hneed := h.needed before n post heq
  simp only [State.assign, eraseKey_setKey] at hneed
  exact hneed

theorem Unfit.of_assign {data : δ} (h : Unfit (m.assign key item data now) key size now q) :
    Unfit m key size now q := by
  simp only [Unfit, State.assign, eraseKey_setKey] at h
  exact h

omit [DecidableLT τ] in
theorem State.EvictsOthers.of_assign {data : δ} (h : (m.assign key item data now).EvictsOthers m' ⟨key, size, now, q⟩) :
    m.EvictsOthers m' ⟨key, size, now, q⟩ := by
  obtain ⟨out, kept, hevicts, hothers⟩ := h
  refine ⟨out, kept, hevicts.of_assign, fun key' hne => ?_⟩
  rw [hothers key' hne]
  simp only [State.assign, lookup_setKey_of_ne hne]

structure State.EvictsRight (m : State κ δ τ) (op : Op κ δ τ) (m' : State κ δ τ) : Prop where
  wraps : m'.Wraps
  others : ∀ o, op.operation m = some o → m.EvictsOthers m' o
  own : ∀ o, op.operation m = some o → m.Removes m' o.key → Unfit m o.key o.size o.now o.queue

theorem State.EvictsRight.of_none {op : Op κ δ τ} (hwraps : m'.Wraps)
    (hnone : op.operation m = none) : m.EvictsRight op m' := by
  refine ⟨hwraps, fun o ho => ?_, fun o ho => ?_⟩
  · rw [hnone] at ho
    cases ho
  · rw [hnone] at ho
    cases ho

theorem State.step_evicts (h : m.Wraps) (op : Op κ δ τ) (hsized : op.Sized) :
    ∃ m', m.step op = .ok m' ∧ m.EvictsRight op m' := by
  cases op with
  | insert key data now policy fails =>
      obtain ⟨m', r, hinsert, hwraps, ⟨item, hc, hsame, -⟩ | ⟨hc, out, kept, hevicts, -, hinserted⟩⟩ :=
        State.insert_result h key data now policy fails (hsized _ _)
      · refine ⟨m', by simp [State.step, hinsert, bind, Except.bind, pure, Except.pure], hwraps, ?_, ?_⟩
        · rintro o ho
          cases ho
          exact .of_same hsame
        · rintro o ho ⟨hsome, hnone⟩
          cases ho
          rw [hsame] at hnone
          rw [hnone] at hsome
          cases hsome
      · refine ⟨m', by simp [State.step, hinsert, bind, Except.bind, pure, Except.pure], hwraps, ?_, ?_⟩
        · rintro o ho
          cases ho
          rw [h.recency_of_none hc]
          exact hinserted.evictsOthers hevicts
        · rintro o ho ⟨hsome, -⟩
          cases ho
          rw [hc] at hsome
          cases hsome
  | insertOrUpdate key data now policy fails =>
      obtain ⟨m', hinsert, hwraps, ⟨item, m₂, replaced, out, kept, hc, hevicts, -, hupdated, rfl⟩ |
        ⟨hc, out, kept, hevicts, -, hinserted⟩⟩ :=
        State.insertOrUpdate_result h key data now policy fails (hsized _ _)
      · have hcontainer : (if replaced then { m₂ with stat :=
            { m₂.stat with replaced := m₂.stat.replaced + 1 } } else m₂).container = m₂.container := by
          split <;> rfl
        have hassigned : (lookup key (m.assign key item data now).container).isSome = true := by
          have hset : lookup key (setKey key { item with data := data } m.container) =
              some { item with data := data } := lookup_setKey hc
          simp only [State.assign, hset, Option.isSome_some]
        refine ⟨_, hinsert, hwraps, ?_, ?_⟩
        · rintro o ho
          cases ho
          obtain ⟨out', kept', hevicts', hothers⟩ := (hupdated.evictsOthers hevicts).of_assign
          exact ⟨out', kept', hevicts', fun key' hne => by rw [hcontainer]; exact hothers key' hne⟩
        · rintro o ho ⟨-, hnone⟩
          cases ho
          rw [hcontainer] at hnone
          exact (hupdated.unfit hevicts ⟨hassigned, hnone⟩).of_assign
      · refine ⟨m', hinsert, hwraps, ?_, ?_⟩
        · rintro o ho
          cases ho
          rw [h.recency_of_none hc]
          exact hinserted.evictsOthers hevicts
        · rintro o ho ⟨hsome, -⟩
          cases ho
          rw [hc] at hsome
          cases hsome
  | update key now policy =>
      obtain ⟨m', hupdate, hwraps, ⟨hc, rfl⟩ | ⟨item, replaced, out, kept, hc, hevicts, -, hupdated⟩⟩ :=
        State.update_result h key now policy hsized
      · exact ⟨m', hupdate, .of_none hwraps (by simp [Op.operation, hc])⟩
      · have hsome : (Op.update key now policy).operation m = some ⟨key, policy key item.data, now,
            m.queue⟩ := by simp [Op.operation, hc]
        refine ⟨m', hupdate, hwraps, fun o ho => ?_, fun o ho hremoves => ?_⟩
        · rw [hsome] at ho
          cases ho
          exact hupdated.evictsOthers hevicts
        · rw [hsome] at ho
          cases ho
          exact hupdated.unfit hevicts hremoves
  | find key now =>
      have hfind := State.findInner_result h key now
      have hstep : m.step (.find key now) = .ok { m with queue := recency key now m.queue } := by
        simp [State.step, State.find, hfind, bind, Except.bind, pure, Except.pure]
      exact ⟨_, hstep, .of_none (h.recency key now) rfl⟩
  | erase key =>
      obtain ⟨m', herase, hwraps, -, -⟩ := State.erase_result h key
      exact ⟨m', herase, .of_none hwraps rfl⟩
  | clear => exact ⟨_, rfl, .of_none ⟨⟨List.Perm.refl _, List.nodup_nil, List.nodup_nil, rfl⟩,
      by simp, rfl, by simp [SizesFit]⟩ rfl⟩
  | bound newBound => exact ⟨_, rfl, .of_none ⟨h.linked, h.fresh, h.size_eq, h.fits⟩ rfl⟩
  | timeout newTimeout => exact ⟨_, rfl, .of_none ⟨h.linked, h.fresh, h.size_eq, h.fits⟩ rfl⟩

omit [DecidableEq κ] [Add τ] [LT τ] [DecidableLT τ] in
theorem State.init_wraps (bound : Nat) (timeout : τ) : (State.init bound timeout : State κ δ τ).Wraps :=
  ⟨⟨List.Perm.refl _, List.nodup_nil, List.nodup_nil, rfl⟩, fun _ hn => absurd hn List.not_mem_nil,
    rfl, fun _ he => absurd he List.not_mem_nil⟩

theorem State.run_wraps (h : m.Wraps) {ops : List (Op κ δ τ)} (hsized : ∀ op ∈ ops, op.Sized) :
    ∃ m', m.run ops = .ok m' ∧ m'.Wraps := by
  induction ops generalizing m with
  | nil => exact ⟨m, rfl, h⟩
  | cons op ops ih =>
      rw [List.forall_mem_cons] at hsized
      obtain ⟨next, hstep, hright⟩ := State.step_evicts h op hsized.1
      obtain ⟨m', hrun, hwraps⟩ := ih hright.wraps hsized.2
      refine ⟨m', ?_, hwraps⟩
      simp only [State.run, hstep, bind, Except.bind]
      exact hrun

end Evicts

theorem takeWhile_eq_filter {α : Type} {p : α → Bool} {l : List α}
    (h : l.Pairwise fun a b => p b = true → p a = true) : l.takeWhile p = l.filter p := by
  induction l with
  | nil => rfl
  | cons a l ih =>
      obtain ⟨hhead, htail⟩ := List.pairwise_cons.mp h
      cases ha : p a with
      | true => rw [List.takeWhile_cons_of_pos ha, List.filter_cons_of_pos ha, ih htail]
      | false =>
          have hnone : l.filter p = [] := by
            rw [List.filter_eq_nil_iff]
            intro b hb hpb
            rw [hhead b hb hpb] at ha
            cases ha
          rw [List.takeWhile_cons_of_neg (by simp [ha]), List.filter_cons_of_neg (by simp [ha]), hnone]

/-- どの列の後でも、除かれるのは、使われた順の始めの、古い項目だけである。操作する項目が除かれる時、始めの古い項目では足りない。
期限が使われた順に並ぶならば、古い項目を全て除いても足りない。 -/
theorem evicts_expired_prefix [Add τ] [LinearOrder τ] (bound : Nat) (timeout : τ)
    (ops : List (Op κ δ τ)) (op : Op κ δ τ) (hsized : ∀ x ∈ op :: ops, x.Sized) :
    ∃ m m', (State.init bound timeout : State κ δ τ).run ops = .ok m ∧ m.step op = .ok m' ∧
      ∀ o, op.operation m = some o → m.EvictsOthers m' o ∧
        (m.Removes m' o.key → Unfit m o.key o.size o.now o.queue ∧
          (o.queue.Pairwise (fun a b => a.lastUsed + m.timeout ≤ b.lastUsed + m.timeout) → m.bound < o.size ∨
            m.bound < o.size + total
            (without (o.queue.filter fun n => ¬ n.lastUsed + m.timeout > o.now) (eraseKey o.key m.container)))) := by
  rw [List.forall_mem_cons] at hsized
  obtain ⟨m, hrun, hwraps⟩ := State.run_wraps (State.init_wraps bound timeout) hsized.2
  obtain ⟨m', hstep, hright⟩ := State.step_evicts hwraps op hsized.1
  refine ⟨m, m', hrun, hstep, fun o ho => ⟨hright.others o ho, fun hremoves => ?_⟩⟩
  have hunfit := hright.own o ho hremoves
  refine ⟨hunfit, fun hsorted => ?_⟩
  have hmono : o.queue.Pairwise fun a b =>
      decide (¬ b.lastUsed + m.timeout > o.now) = true → decide (¬ a.lastUsed + m.timeout > o.now) = true :=
    hsorted.imp fun {a b} hle hb => by
      rw [decide_eq_true_eq, gt_iff_lt, not_lt] at hb ⊢
      exact le_trans hle hb
  rwa [Unfit, takeWhile_eq_filter hmono] at hunfit

def fullOps : List (Op Nat Nat Nat) := [.insert 1 10 0 (fun _ _ => 1) false, .insert 2 20 1 (fun _ _ => 1) false]

theorem evicts_expired_prefix_full :
    ∃ m m', (State.init 2 5 : State Nat Nat Nat).run fullOps = .ok m ∧ m.step
      (.insert 3 30 9 (fun _ _ => 1) false) = .ok m' ∧
      m'.container.map Prod.fst = [2, 3] ∧ m.EvictsOthers m' ⟨3, 1, 9, m.queue⟩ := by
  have hsized : ∀ x ∈ Op.insert 3 30 9 (fun _ _ => 1) false :: fullOps, x.Sized := by
    simp [fullOps, Op.Sized]
  obtain ⟨m, m', hrun, hstep, hright⟩ := evicts_expired_prefix 2 5 fullOps (.insert 3 30 9 (fun _ _ => 1) false) hsized
  cases hrun
  cases hstep
  exact ⟨_, _, rfl, rfl, rfl, (hright _ rfl).1⟩

def backwardOps : List (Op Nat Nat Nat) :=
  [.insert 1 10 10 (fun _ _ => 1) false, .insert 2 20 5 (fun _ _ => 1) false, .insert 3 30 11 (fun _ _ => 1) false]

/-- 古い項目を除けば収まるのに、その前に古くない項目があるので、更新する項目そのものが除かれる。 -/
theorem update_removes_own_backward :
    ∃ m m', (State.init 3 3 : State Nat Nat Nat).run backwardOps = .ok m ∧ m.step
      (.update 3 12 fun _ _ => 2) = .ok m' ∧ m.Removes m' 3 ∧ 2 ≤ m.bound ∧
      2 + total (without (m.queue.filter fun n => ¬ n.lastUsed + m.timeout > 12)
      (eraseKey 3 m.container)) ≤ m.bound := by
  let queue : List (Ordered Nat Nat) := [⟨0, 1, 10⟩, ⟨1, 2, 5⟩, ⟨2, 3, 11⟩]
  let m : State Nat Nat Nat := ⟨3, 3, [(1, ⟨10, 1, 0⟩), (2, ⟨20, 1, 1⟩), (3, ⟨30, 1, 2⟩)], queue, 3,
      ⟨3, 0, 0, 0, 0, 0⟩, 3⟩
  have hrun : (State.init 3 3 : State Nat Nat Nat).run backwardOps = .ok m := rfl
  have hstep : m.step (.update 3 12 fun _ _ => 2) =
      .ok ⟨3, 3, [(1, ⟨10, 1, 0⟩), (2, ⟨20, 1, 1⟩)], [⟨0, 1, 10⟩, ⟨1, 2, 5⟩], 2, ⟨3, 0, 0, 1, 0, 0⟩, 3⟩ := by
    simp [State.step, State.update, State.updateInner, State.removeUpdated, m, queue, lookup,
      sizeAdd, sizeSub, scanLoop, eraseNode, eraseKey, bind, Except.bind, pure, Except.pure]
  exact ⟨m, _, hrun, hstep, ⟨rfl, rfl⟩, by decide, by decide⟩

end UnixCommons.Generics.BoundedMap

/-!
## 統計の定理

例外のない列では、入れる呼び出しは、どれも一つだけ数えられ、入れた項目は、今あるか、一度だけ除かれている。
-/

namespace UnixCommons.Generics.BoundedMap

open Lib

variable {κ δ τ : Type} [DecidableEq κ]
variable {m m' : State κ δ τ} {q out kept : List (Ordered κ τ)} {key : κ} {size : Nat} {now : τ} {b : Bool}

/-- 呼び出しの数。`attempted` は、`insert_or_update` が新しい項目を入れようとした数、`erased` は、`erase` と `clear` が除いた項目の数である。 -/
structure Tally where
  insertCalls : Nat
  attempted : Nat
  erased : Nat
  deriving DecidableEq, Repr

def Tally.next (m : State κ δ τ) (t : Tally) : Op κ δ τ → Tally
  | .insert _ _ _ _ _ => { t with insertCalls := t.insertCalls + 1 }
  | .insertOrUpdate key _ _ _ _ => if (lookup key m.container).isNone
      then { t with attempted := t.attempted + 1 } else t
  | .erase key => if (lookup key m.container).isSome then { t with erased := t.erased + 1 } else t
  | .clear => { t with erased := t.erased + m.container.length }
  | _ => t

/-- 新しい項目を入れようとして増やす数が、`int` からあふれない。 -/
def State.HasRoom (m : State κ δ τ) : Prop :=
  m.stat.insertedNew < Int32.maxValue ∧ m.stat.notInserted < Int32.maxValue

/-- 呼び出しは、項目を作る途中で例外を投げず、増やす数が `int` からあふれない。 -/
def Counts (s : State κ δ τ × Tally) : Op κ δ τ → Prop
  | .insert key _ _ _ fails =>
      fails = false ∧ if (lookup key s.1.container).isSome then s.1.stat.insertExisting <
        Int32.maxValue else s.1.HasRoom
  | .insertOrUpdate key _ _ _ fails => fails = false ∧ ((lookup key s.1.container).isNone → s.1.HasRoom)
  | _ => True

instance (m : State κ δ τ) : Decidable m.HasRoom := inferInstanceAs (Decidable (_ ∧ _))

instance (s : State κ δ τ × Tally) : (op : Op κ δ τ) → Decidable (Counts s op)
  | .insert _ _ _ _ _ => inferInstanceAs (Decidable (_ ∧ _))
  | .insertOrUpdate _ _ _ _ _ => inferInstanceAs (Decidable (_ ∧ _))
  | .find _ _ => isTrue trivial
  | .update _ _ _ => isTrue trivial
  | .erase _ => isTrue trivial
  | .clear => isTrue trivial
  | .bound _ => isTrue trivial
  | .timeout _ => isTrue trivial

structure State.Conserved (m : State κ δ τ) (t : Tally) : Prop where
  calls : (t.insertCalls + t.attempted : Int) =
    m.stat.insertedNew.toInt + m.stat.insertExisting.toInt + m.stat.notInserted.toInt
  elements : m.stat.insertedNew.toInt =
    m.container.length + m.stat.removedOutdated.toInt + m.stat.removedUpdated.toInt + t.erased
  strict : 0 < m.stat.insertedNew.toInt → m.stat.removedOutdated.toInt < m.stat.insertedNew.toInt

/-- 除いた数は負でない。入れた数より多く除かれることはないので、除いた数もあふれない。 -/
structure State.Counted (m : State κ δ τ) (t : Tally) : Prop extends m.Conserved t where
  outdated : 0 ≤ m.stat.removedOutdated.toInt
  updated : 0 ≤ m.stat.removedUpdated.toInt

theorem toInt_succ {n : Int32} (h : n < Int32.maxValue) : (n + 1).toInt = n.toInt + 1 := by
  have hlt : n.toInt < 2147483647 := Int32.lt_iff_toInt_lt.mp h
  have hle := n.le_toInt
  have hone : (1 : Int32).toInt = 1 := rfl
  rw [Int32.toInt_add, hone]
  exact Int.bmod_eq_of_le (by omega) (by omega)

theorem toInt_add_ofNat {n : Int32} {k : Nat} (hn : 0 ≤ n.toInt) (h : n.toInt + k < 2 ^ 31) :
    (n + .ofNat k).toInt = n.toInt + k := by
  have hsize : (Int32.size : Int) = 4294967296 := rfl
  rw [Int32.toInt_add, Int32.toInt_ofNat', Int.add_bmod_bmod]
  exact Int.bmod_eq_of_le (by omega) (by omega)

omit [DecidableEq κ] in
theorem State.Counted.toInt_outdated {t : Tally} (h : m.Counted t) {k : Nat} (hk : k ≤ m.container.length) :
    (m.stat.removedOutdated + .ofNat k).toInt = m.stat.removedOutdated.toInt + k := by
  have hlt := m.stat.insertedNew.toInt_lt
  have helements := h.elements
  have hupdated := h.updated
  exact toInt_add_ofNat h.outdated (by omega)

omit [DecidableEq κ] in
theorem State.Counted.toInt_updated {t : Tally} (h : m.Counted t) (hpos : 0 < m.container.length) :
    (m.stat.removedUpdated + 1).toInt = m.stat.removedUpdated.toInt + 1 := by
  have hlt := m.stat.insertedNew.toInt_lt
  have helements := h.elements
  have houtdated := h.outdated
  refine toInt_succ (Int32.lt_iff_toInt_lt.mpr (show m.stat.removedUpdated.toInt < 2147483647 from ?_))
  omega

section Step

variable {t : Tally} [Add τ] [LT τ] [DecidableLT τ]

def countStep (s : State κ δ τ × Tally) (op : Op κ δ τ) : Option (State κ δ τ × Tally) :=
  match s.1.step op with
  | .ok m => some (m, s.2.next s.1 op)
  | .error _ => none

omit [DecidableEq κ] [Add τ] [LT τ] [DecidableLT τ] in
theorem State.Counted.of_stat {stat : Stat} (hstat : m'.stat = stat) (h : ({ m' with stat := stat }).Counted t) :
    m'.Counted t := by
  rw [← hstat] at h
  exact h

omit [DecidableEq κ] [Add τ] [LT τ] [DecidableLT τ] in
theorem State.Counted.of_same (h : m.Counted t) (hcontainer : m'.container.length = m.container.length)
    (hstat : m'.stat = m.stat) : m'.Counted t := by
  refine .of_stat hstat ⟨⟨h.calls, ?_, h.strict⟩, h.outdated, h.updated⟩
  rw [hcontainer]
  exact h.elements

omit [Add τ] [LT τ] [DecidableLT τ] in
theorem Inserted.counted (h : Inserted m key false out m')
    (hlength : out.length + (without out m.container).length = m.container.length)
    (hm : m.Counted t) (hroom : m.HasRoom)
    (next : Tally) (hcalls : next.insertCalls + next.attempted = t.insertCalls + t.attempted + 1)
    (herased : next.erased = t.erased) : m'.Counted next := by
  have hout := hm.toInt_outdated (k := out.length) (by omega)
  obtain ⟨⟨calls, elements, strict⟩, outdated, updated⟩ := hm
  have hnext : (next.insertCalls + next.attempted : Int) = t.insertCalls + t.attempted + 1 := by omega
  cases h with
  | inserted item container stat =>
      have hlengthNew : m'.container.length = (without out m.container).length + 1 := by
        rw [container, List.length_append, List.length_singleton]
      have hnew := toInt_succ hroom.1
      refine .of_stat stat ⟨⟨?_, ?_, fun _ => ?_⟩, ?_, updated⟩
      · rw [hnext]
        simp only [hnew]
        omega
      · simp only [hlengthNew, herased, hnew, hout]
        omega
      · simp only [hnew, hout]
        omega
      · simp only [hout]
        omega
  | rejected container stat stays =>
      have hrejected := toInt_succ hroom.2
      refine .of_stat stat ⟨⟨?_, ?_, fun hpos => ?_⟩, ?_, updated⟩
      · rw [hnext]
        simp only [hrejected]
        omega
      · simp only [container, herased, hout]
        omega
      · simp only [hout]
        rcases stays with hnone | hstays
        · have hstrict := strict hpos
          rw [hnone, List.length_nil]
          omega
        · -- 全てを除いたならば、新しい項目は入っている。
          have hleft := List.length_pos_of_ne_nil hstays
          omega
      · simp only [hout]
        omega
  | threw thrown container stat => cases thrown

theorem Updated.counted (h : Updated m key size now out m' b)
    (hlength : out.length + (without out m.container).length = m.container.length)
    (hmem : (lookup key m.container).isSome) (hevicts : Evicts m key size now q out kept)
    (hkeys : (m.container.map Prod.fst).Nodup) (hm : m.Counted t) : m'.Counted t := by
  have hout := hm.toInt_outdated (k := out.length) (by omega)
  have hremoved := hm.toInt_updated
  obtain ⟨⟨calls, elements, strict⟩, outdated, updated⟩ := hm
  obtain ⟨item', hitem⟩ := Option.isSome_iff_exists.mp hmem
  cases h with
  | updated item container stat =>
      have hlookup : lookup key (without out m.container) = some item' := by
        rw [lookup_without_of_not_mem hevicts.key_not_mem, hitem]
      have hset : m'.container.length = (without out m.container).length := by rw [container, setKey, List.length_map]
      have hleft : 0 < (without out m.container).length := List.length_pos_of_mem (mem_of_lookup hlookup)
      refine .of_stat stat ⟨⟨calls, ?_, fun _ => ?_⟩, ?_, updated⟩
      · simp only [hset, hout]
        omega
      · simp only [hout]
        omega
      · simp only [hout]
        omega
  | removed none container stat unfit =>
      have hperm := (perm_eraseKey hkeys hitem).length_eq
      rw [List.length_cons] at hperm
      have hremoved := hremoved (by omega)
      refine .of_stat stat ⟨⟨calls, ?_, strict⟩, outdated, ?_⟩
      · simp only [container, hremoved]
        omega
      · simp only [hremoved]
        omega

theorem State.Counted.step (h : m.Counted t) (hwraps : m.Wraps) (op : Op κ δ τ) (hsized : op.Sized)
    (hcounts : Counts (m, t) op) : ∃ m', m.step op = .ok m' ∧ m'.Wraps ∧ m'.Counted (t.next m op) := by
  obtain ⟨⟨calls, elements, strict⟩, outdated, updated⟩ := id h
  cases op with
  | insert key data now policy fails =>
      obtain ⟨rfl, hroom⟩ := hcounts
      obtain ⟨m', r, hinsert, hwraps', ⟨item, hc, hsame, hstat⟩ | ⟨hc, out, kept, -, hlength, hinserted⟩⟩ :=
        State.insert_result hwraps key data now policy false (hsized _ _)
      · rw [if_pos (by simp [hc])] at hroom
        have hexisting := toInt_succ hroom
        have hnext : ((t.next m (.insert key data now policy false)).insertCalls + t.attempted : Int) =
            t.insertCalls + t.attempted + 1 := by
          simp only [Tally.next]
          omega
        refine ⟨m', by simp [State.step, hinsert, bind, Except.bind, pure, Except.pure], hwraps',
          .of_stat hstat ⟨⟨?_, ?_, strict⟩, outdated, updated⟩⟩
        · simp only [hexisting]
          exact hnext.trans (by omega)
        · simp only [hsame]
          exact elements
      · rw [if_neg (by simp [hc])] at hroom
        refine ⟨m', by simp [State.step, hinsert, bind, Except.bind, pure, Except.pure], hwraps', ?_⟩
        exact hinserted.counted hlength h hroom _ (by simp only [Tally.next]; omega) rfl
  | insertOrUpdate key data now policy fails =>
      obtain ⟨rfl, hroom⟩ := hcounts
      obtain ⟨m', hinsert, hwraps', ⟨item, m₂, replaced, out, kept, hc, hevicts, hlength, hupdated,
        rfl⟩ | ⟨hc, out, kept, -, hlength, hinserted⟩⟩ :=
        State.insertOrUpdate_result hwraps key data now policy false (hsized _ _)
      · have hassigned : (lookup key (m.assign key item data now).container).isSome = true := by
          have hset : lookup key (setKey key { item with data := data } m.container) =
              some { item with data := data } :=
            lookup_setKey hc
          simp only [State.assign, hset, Option.isSome_some]
        have hassign : (m.assign key item data now).Counted t := h.of_same (by simp [State.assign, setKey]) rfl
        have hcounted := hupdated.counted hlength hassigned hevicts
            (hwraps.assign hc data now).linked.container_keys hassign
        have hnext : t.next m (.insertOrUpdate key data now policy false) = t := by simp [Tally.next, hc]
        refine ⟨_, hinsert, hwraps', ?_⟩
        rw [hnext]
        cases replaced with
        | false => exact hcounted
        | true => exact ⟨⟨hcounted.calls, hcounted.elements, hcounted.strict⟩, hcounted.outdated, hcounted.updated⟩
      · have hnext : t.next m (.insertOrUpdate key data now policy false) =
            { t with attempted := t.attempted + 1 } := by
          simp [Tally.next, hc]
        refine ⟨m', hinsert, hwraps', ?_⟩
        rw [hnext]
        exact hinserted.counted hlength h (hroom (by simp [hc])) _ (by simp only; omega) rfl
  | update key now policy =>
      obtain ⟨m', hupdate, hwraps', ⟨-, rfl⟩ | ⟨item, replaced, out, kept, hc, hevicts, hlength, hupdated⟩⟩ :=
        State.update_result hwraps key now policy hsized
      · exact ⟨m', hupdate, hwraps', h⟩
      · exact ⟨m', hupdate, hwraps', hupdated.counted hlength (by simp [hc]) hevicts hwraps.linked.container_keys h⟩
  | find key now =>
      have hfind := State.findInner_result hwraps key now
      have hstep : m.step (.find key now) = .ok { m with queue := recency key now m.queue } := by
        simp [State.step, State.find, hfind, bind, Except.bind, pure, Except.pure]
      exact ⟨_, hstep, hwraps.recency key now, ⟨calls, elements, strict⟩, outdated, updated⟩
  | erase key =>
      obtain ⟨m', herase, hwraps', hstat, ⟨hc, rfl⟩ | ⟨item, hc, hcontainer⟩⟩ := State.erase_result hwraps key
      · have hnext : t.next m' (.erase key) = t := by simp [Tally.next, hc]
        rw [hnext]
        exact ⟨m', herase, hwraps', h⟩
      · have hnext : t.next m (.erase key) = { t with erased := t.erased + 1 } := by simp [Tally.next, hc]
        have hperm := (perm_eraseKey hwraps.linked.container_keys hc).length_eq
        rw [List.length_cons] at hperm
        rw [hnext]
        refine ⟨m', herase, hwraps', .of_stat hstat ⟨⟨calls, ?_, strict⟩, outdated, updated⟩⟩
        simp only [hcontainer]
        omega
  | clear =>
      have hlinked : Linked ([] : List (κ × Item δ)) ([] : List (Ordered κ τ)) (total ([] : List (κ × Item δ))) :=
        ⟨List.Perm.refl _, List.nodup_nil, List.nodup_nil, rfl⟩
      refine ⟨_, rfl, ⟨hlinked, by simp, rfl, by simp [SizesFit]⟩, ⟨calls, ?_, strict⟩, outdated, updated⟩
      simp only [Tally.next, List.length_nil]
      omega
  | bound newBound =>
      exact ⟨_, rfl, ⟨hwraps.linked, hwraps.fresh, hwraps.size_eq, hwraps.fits⟩,
        ⟨calls, elements, strict⟩, outdated, updated⟩
  | timeout newTimeout =>
      exact ⟨_, rfl, ⟨hwraps.linked, hwraps.fresh, hwraps.size_eq, hwraps.fits⟩,
        ⟨calls, elements, strict⟩, outdated, updated⟩

theorem State.Counted.run {ops : List (Op κ δ τ)} (h : m.Counted t) (hwraps : m.Wraps) (hsized : ∀ op ∈ ops, op.Sized)
    (hcounts : Along countStep Counts (m, t) ops) : ∃ s, execute countStep (m, t) ops = some s ∧ s.1.Counted s.2 := by
  induction ops generalizing m t with
  | nil => exact ⟨(m, t), rfl, h⟩
  | cons op ops ih =>
      rw [List.forall_mem_cons] at hsized
      rw [Along] at hcounts
      obtain ⟨next, hstep, hwraps', hnext⟩ := h.step hwraps op hsized.1 hcounts.1
      have hcount : countStep (m, t) op = some (next, t.next m op) := by simp [countStep, hstep]
      rw [hcount] at hcounts
      obtain ⟨s, hrun, hs⟩ := ih hnext hwraps' hsized.2 hcounts.2
      exact ⟨s, execute_cons.mpr ⟨_, hcount, hrun⟩, hs⟩

/-- 空の表から始まる列で、どの呼び出しも例外を投げず、増やす数が `int` からあふれなければ、統計は呼び出しの数と合う。 -/
theorem bounded_map_stat_conserved (bound : Nat) (timeout : τ) (ops : List (Op κ δ τ)) (hsized : ∀ op ∈ ops, op.Sized)
    (hcounts : Along countStep Counts (State.init bound timeout, ⟨0, 0, 0⟩) ops) :
    ∃ s, execute countStep (State.init bound timeout, ⟨0, 0, 0⟩) ops = some s ∧ s.1.Conserved s.2 := by
  have hzero : (0 : Int32).toInt = 0 := rfl
  have hinit : (State.init bound timeout : State κ δ τ).Counted ⟨0, 0, 0⟩ :=
    ⟨⟨rfl, rfl, fun hpos => absurd hpos (by simp [State.init])⟩, Int.le_of_eq hzero.symm, Int.le_of_eq hzero.symm⟩
  obtain ⟨s, hrun, hs⟩ := hinit.run (State.init_wraps bound timeout) hsized hcounts
  exact ⟨s, hrun, hs.toConserved⟩

end Step

theorem bounded_map_stat_conserved_example :
    ∃ s : State Nat Nat Nat × Tally, execute countStep (State.init 2 5, ⟨0, 0, 0⟩) exampleOps = some s ∧
      s.1.stat.removedOutdated = 1 ∧ s.1.Conserved s.2 := by
  have hsized : ∀ op ∈ exampleOps, op.Sized := by simp [exampleOps, Op.Sized]
  have hcounts : Along countStep Counts ((State.init 2 5 : State Nat Nat Nat), ⟨0, 0, 0⟩) exampleOps := by decide
  obtain ⟨s, hrun, hs⟩ := bounded_map_stat_conserved 2 5 exampleOps hsized hcounts
  refine ⟨s, hrun, ?_, hs⟩
  cases hrun
  rfl

/-- 一つまでの表に一つの鍵を入れ、二つ目を入れる途中で、例外が投げられる列。 -/
def thrownOps : List (Op Nat Nat Nat) := [.insert 1 10 0 (fun _ _ => 1) false, .insert 2 20 1 (fun _ _ => 1) true]

/-- 古い物として除いた数が、入れた数と等しく、二つ目の呼び出しは数えられない。 -/
theorem thrown_insert_not_counted :
    ∃ s : State Nat Nat Nat × Tally, execute countStep (State.init 1 0, ⟨0, 0, 0⟩) thrownOps = some s ∧
      s.1.stat.removedOutdated = s.1.stat.insertedNew ∧ s.2.insertCalls = 2 ∧ ¬ s.1.Conserved s.2 := by
  refine ⟨_, rfl, rfl, rfl, fun h => ?_⟩
  exact absurd h.calls (by decide)

end UnixCommons.Generics.BoundedMap
