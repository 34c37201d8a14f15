import UnixCommons.Generics.BoundedMap
import UnixCommons.Lib.Spec

/-!
# 上限のある連想配列の補題

`container_` の項目と `queue_` の節は、鍵と番号の組で一対一に対応する。
-/

namespace UnixCommons.Generics.BoundedMap

open Lib

variable {κ δ τ : Type}
variable {c : List (κ × Item δ)} {q q' : List (Ordered κ τ)} {n : Ordered κ τ} {key : κ} {item item' : Item δ}
variable {total size bound newSize : Nat} {m : State κ δ τ} {now : τ}

structure Linked (c : List (κ × Item δ)) (q : List (Ordered κ τ)) (total : Nat) : Prop where
  perm : (c.map fun e => (e.1, e.2.order)).Perm (q.map fun n => (n.key, n.node))
  keys : (q.map fun n => n.key).Nodup
  nodes : (q.map fun n => n.node).Nodup
  total_eq : total = (c.map fun e => e.2.size).sum

/-! ## 対応 -/

theorem Linked.keys_perm (h : Linked c q total) : (c.map Prod.fst).Perm (q.map fun n => n.key) := by
  have := h.perm.map Prod.fst
  rwa [List.map_map, List.map_map] at this

theorem Linked.container_keys (h : Linked c q total) : (c.map Prod.fst).Nodup := h.keys_perm.nodup_iff.mpr h.keys

theorem node_unique {n' : Ordered κ τ} (h : (q.map fun n => n.node).Nodup) (hn : n ∈ q)
    (hn' : n' ∈ q) (he : n.node = n'.node) : n = n' := List.inj_on_of_nodup_map h hn hn' he

theorem Linked.reorder (h : Linked c q total)
    (hq : (q.map fun n => (n.key, n.node)).Perm (q'.map fun n => (n.key, n.node))) : Linked c q' total := by
  refine ⟨h.perm.trans hq, ?_, ?_, h.total_eq⟩
  · have := hq.map Prod.fst
    rw [List.map_map, List.map_map] at this
    exact this.nodup_iff.mp h.keys
  · have := hq.map Prod.snd
    rw [List.map_map, List.map_map] at this
    exact this.nodup_iff.mp h.nodes

variable [DecidableEq κ]

theorem Linked.lookup_node (h : Linked c q total) (hn : n ∈ q) :
    ∃ item, lookup n.key c = some item ∧ item.order = n.node := by
  have hmem : (n.key, n.node) ∈ c.map fun e => (e.1, e.2.order) :=
    h.perm.mem_iff.mpr (List.mem_map.mpr ⟨n, hn, rfl⟩)
  obtain ⟨⟨k, item⟩, he, heq⟩ := List.mem_map.mp hmem
  obtain ⟨rfl, ho⟩ := Prod.mk.inj heq
  exact ⟨item, lookup_of_mem h.container_keys he, ho⟩

theorem Linked.node_of_lookup (h : Linked c q total) (hc : lookup key c = some item) :
    ∃ n ∈ q, n.node = item.order ∧ n.key = key := by
  have hmem : (key, item.order) ∈ q.map fun n => (n.key, n.node) :=
    h.perm.mem_iff.mp (List.mem_map.mpr ⟨(key, item), mem_of_lookup hc, rfl⟩)
  obtain ⟨n, hn, heq⟩ := List.mem_map.mp hmem
  obtain ⟨hk, ho⟩ := Prod.mk.inj heq
  exact ⟨n, hn, ho, hk⟩

theorem Linked.remove (h : Linked c q total) (hq : q.Perm (n :: q')) (hc : lookup n.key c = some item) :
    Linked (eraseKey n.key c) q' (total - item.size) ∧ item.size ≤ total := by
  have hn : n ∈ q := hq.mem_iff.mpr List.mem_cons_self
  have hcperm := perm_eraseKey h.container_keys hc
  have horder : item.order = n.node := by
    obtain ⟨item', hc', ho⟩ := h.lookup_node hn
    rw [hc] at hc'
    rw [Option.some.inj hc', ho]
  have htotal : total = item.size + ((eraseKey n.key c).map fun e => e.2.size).sum := by
    rw [h.total_eq, (hcperm.map _).sum_eq, List.map_cons, List.sum_cons]
  refine ⟨⟨?_, ?_, ?_, by omega⟩, by omega⟩
  · have h1 := (hcperm.map fun e => (e.1, e.2.order)).symm.trans (h.perm.trans (hq.map fun n => (n.key, n.node)))
    rw [List.map_cons, List.map_cons, horder] at h1
    exact h1.cons_inv
  · have := (hq.map fun n => n.key).nodup_iff.mp h.keys
    exact (List.nodup_cons.mp this).2
  · have := (hq.map fun n => n.node).nodup_iff.mp h.nodes
    exact (List.nodup_cons.mp this).2

theorem Linked.eraseNode (h : Linked c q total) (hc : lookup key c = some item) :
    ∃ q', BoundedMap.eraseNode item.order q = .ok q' ∧ Linked (eraseKey key c) q'
      (total - item.size) ∧ item.size ≤ total ∧ ∀ n ∈ q', n ∈ q := by
  obtain ⟨n, hn, ho, rfl⟩ := h.node_of_lookup hc
  have hany : (q.any fun n => n.node = item.order) = true := List.any_eq_true.mpr ⟨n, hn, decide_eq_true ho⟩
  have hperm : q.Perm (n :: q.filter fun x => x.node ≠ item.order) := by
    rw [← ho]
    exact perm_cons_filter h.nodes hn
  obtain ⟨h1, h2⟩ := h.remove hperm hc
  refine ⟨_, ?_, h1, h2, fun n hn => (List.mem_filter.mp hn).1⟩
  unfold BoundedMap.eraseNode
  rw [if_pos hany]
  rfl

theorem Linked.set (h : Linked c q total) (item' : Item δ) (hc : lookup key c = some item) (ho : item'.order = item.order) :
    Linked (setKey key item' c) q (total - item.size + item'.size) ∧ item.size ≤ total := by
  have hset : (setKey key item' c).Perm ((key, item') :: eraseKey key c) := perm_setKey h.container_keys hc
  have hold := perm_eraseKey h.container_keys hc
  have htotal : total = item.size + ((eraseKey key c).map fun e => e.2.size).sum := by
    rw [h.total_eq, (hold.map _).sum_eq, List.map_cons, List.sum_cons]
  refine ⟨⟨?_, h.keys, h.nodes, ?_⟩, by omega⟩
  · refine (hset.map _).trans (List.Perm.trans ?_ h.perm)
    refine List.Perm.trans ?_ (hold.map _).symm
    rw [List.map_cons, List.map_cons, ho]
  · rw [(hset.map _).sum_eq, List.map_cons, List.sum_cons]
    dsimp only
    omega

theorem Linked.add (h : Linked c q total) (n : Ordered κ τ) (item : Item δ)
    (hk : lookup n.key c = none) (hnode : ∀ x ∈ q, x.node ≠ n.node)
    (ho : item.order = n.node) : Linked (c ++ [(n.key, item)]) (q ++ [n]) (total + item.size) := by
  have hkey : n.key ∉ q.map fun n => n.key := fun hmem =>
    lookup_eq_none_iff.mp hk (h.keys_perm.mem_iff.mpr hmem)
  refine ⟨?_, ?_, ?_, ?_⟩
  · rw [List.map_append, List.map_append]
    refine h.perm.append ?_
    rw [List.map_singleton, List.map_singleton, ho]
  · rw [List.map_append, List.map_singleton, List.nodup_append_comm, List.singleton_append, List.nodup_cons]
    exact ⟨hkey, h.keys⟩
  · rw [List.map_append, List.map_singleton, List.nodup_append_comm, List.singleton_append, List.nodup_cons]
    refine ⟨fun hmem => ?_, h.nodes⟩
    obtain ⟨x, hx, he⟩ := List.mem_map.mp hmem
    exact hnode x hx he
  · rw [List.map_append, List.map_singleton, List.sum_append, List.sum_singleton, h.total_eq]

/-! ## 操作 -/

structure State.Inv (m : State κ δ τ) : Prop where
  linked : Linked m.container m.queue m.size
  fresh : ∀ n ∈ m.queue, n.node < m.nextNode
  size_lt : m.size < 2 ^ 64

theorem sizeAdd_of_lt {x y : Nat} (h : x + y < 2 ^ 64) : sizeAdd x y = x + y := Nat.mod_eq_of_lt h

theorem sizeSub_of_le {x y : Nat} (h : y ≤ x) (hx : x < 2 ^ 64) : sizeSub x y = x - y := by
  unfold sizeSub
  omega

structure State.Keeps (m m' : State κ δ τ) : Prop where
  inv : m'.Inv
  bound_eq : m'.bound = m.bound
  size_le : m'.size ≤ m.size ∨ m'.size ≤ m.bound

theorem State.findInner_spec (h : m.Inv) (key : κ) (now : τ) :
    Returns (m.findInner key now)
      (fun r => r.1.Inv ∧ r.1.size = m.size ∧ r.1.bound = m.bound ∧ r.1.container = m.container ∧
        r.2 = lookup key m.container) fun _ => False := by
  unfold State.findInner
  cases hc : lookup key m.container with
  | none => exact Returns.pure ⟨h, rfl, rfl, rfl, rfl⟩
  | some item =>
      dsimp only
      obtain ⟨n, hn, ho, -⟩ := h.linked.node_of_lookup hc
      have hfind : (m.queue.find? fun n => n.node = item.order) = some n := by
        cases hf : m.queue.find? fun n => n.node = item.order with
        | none => exact absurd ho (by simpa using List.find?_eq_none.mp hf n hn)
        | some n' =>
            have hn' := List.mem_of_find?_eq_some hf
            have ho' : n'.node = item.order := by simpa using List.find?_some hf
            rw [node_unique h.linked.nodes hn' hn (ho'.trans ho.symm)]
      rw [hfind]
      have hperm : m.queue.Perm (n :: m.queue.filter fun x => x.node ≠ item.order) := by
        rw [← ho]
        exact perm_cons_filter h.linked.nodes hn
      refine Returns.pure ⟨⟨h.linked.reorder ?_, fun x hx => ?_, h.size_lt⟩, rfl, rfl, rfl, rfl⟩
      · refine (hperm.map _).trans ?_
        rw [List.map_cons, List.map_append, List.map_singleton]
        exact (List.perm_append_singleton _ _).symm
      · rcases List.mem_append.mp hx with hx | hx
        · exact h.fresh x (List.mem_filter.mp hx).1
        · rw [List.mem_singleton.mp hx]
          exact h.fresh n hn

omit [DecidableEq κ] in
theorem eraseNode_append {node : Nat} (hfresh : ∀ x ∈ q, x.node < node) :
    eraseNode node (q ++ [⟨node, key, now⟩]) = .ok q := by
  have hany : ((q ++ [Ordered.mk node key now]).any fun x => x.node = node) = true := by simp
  have hfilter : (q ++ [Ordered.mk node key now]).filter (fun x => x.node ≠ node) = q := by
    rw [List.filter_append, List.filter_eq_self.mpr]
    · simp
    · exact fun x hx => decide_eq_true (Nat.ne_of_lt (hfresh x hx))
  unfold eraseNode
  rw [if_pos hany, hfilter]
  rfl

variable [Add τ] [LT τ] [DecidableLT τ]

theorem evictLoop_spec {timeout : τ} {removed : Int32} (h : Linked c q total)
    (hw : total + size < 2 ^ 64) : Returns (evictLoop bound size timeout now q c total removed)
      (fun r => Linked r.2.2.1 r.2.1 r.2.2.2.1 ∧ r.2.2.2.1 ≤ total ∧ (∀ n ∈ r.2.1, n ∈ q) ∧ (∀ e ∈ r.2.2.1, e ∈ c) ∧
        (r.1 = true → r.2.2.2.1 + size ≤ bound)) fun _ => False := by
  induction q generalizing c total removed with
  | nil =>
      refine Returns.pure ⟨h, Nat.le_refl _, fun n hn => hn, fun e he => he, fun hroom => ?_⟩
      rw [sizeAdd_of_lt hw, decide_eq_true_eq] at hroom
      exact Nat.not_lt.mp hroom
  | cons n q ih =>
      unfold evictLoop
      rw [sizeAdd_of_lt hw]
      refine Returns.ite (fun hbig => Returns.ite (fun _ => Returns.pure ?_) (fun _ => ?_)) (fun hsmall => Returns.pure ?_)
      · exact ⟨h, Nat.le_refl _, fun n hn => hn, fun e he => he, fun hroom => by cases hroom⟩
      · obtain ⟨item, hc, -⟩ := h.lookup_node List.mem_cons_self
        rw [hc]
        obtain ⟨hlinked, hle⟩ := h.remove (List.Perm.refl _) hc
        dsimp only
        rw [sizeSub_of_le hle (by omega)]
        refine (ih hlinked (by omega)).mono ?_ fun _ hF => hF
        rintro r ⟨h1, h2, h3, h4, h5⟩
        exact ⟨h1, by omega, fun n hn => List.mem_cons_of_mem _ (h3 n hn), fun e he => (List.mem_filter.mp (h4 e he)).1, h5⟩
      · exact ⟨h, Nat.le_refl _, fun n hn => hn, fun e he => he, fun _ => Nat.not_lt.mp hsmall⟩

theorem State.insertInner_spec {data : δ} {policy : κ → δ → Nat} (fails : Bool) (h : m.Inv)
    (hk : lookup key m.container = none) (hw : m.size + policy key data < 2 ^ 64) :
    Returns (m.insertInner key data now policy fails) (fun r => m.Keeps r.1) fun _ => False := by
  unfold State.insertInner
  refine Returns.ite (fun _ => Returns.pure ?_) (fun _ => ?_)
  · exact ⟨⟨h.linked, h.fresh, h.size_lt⟩, rfl, Or.inl (Nat.le_refl _)⟩
  · refine Returns.bind ((evictLoop_spec h.linked hw).mono ?_ fun _ hF => hF)
    rintro ⟨room, queue, container, total, removed⟩ ⟨hlinked, hle, hqueue, hcontainer, hroom⟩
    dsimp only at hlinked hle hqueue hcontainer hroom ⊢
    have hlt := h.size_lt
    have hfresh : ∀ n ∈ queue, n.node < m.nextNode := fun n hn => h.fresh n (hqueue n hn)
    have hnone : lookup key container = none := by
      rw [lookup_eq_none_iff] at hk ⊢
      intro hmem
      obtain ⟨e, he, rfl⟩ := List.mem_map.mp hmem
      exact hk (List.mem_map_of_mem (hcontainer e he))
    refine Returns.ite (fun hr => Returns.ite (fun _ => ?_) (fun _ => ?_)) (fun hr => Returns.pure ?_)
    · rw [eraseNode_append hfresh]
      exact ⟨⟨hlinked, fun n hn => Nat.lt_succ_of_lt (hfresh n hn), Nat.lt_of_le_of_lt hle hlt⟩, rfl, Or.inl hle⟩
    · rw [hnone]
      refine Returns.pure ?_
      have hfit := hroom hr
      have hadd : Linked (container ++ [(key, ⟨data, policy key data, m.nextNode⟩)])
          (queue ++ [⟨m.nextNode, key, now⟩]) (total + policy key data) :=
        hlinked.add ⟨m.nextNode, key, now⟩ ⟨data, policy key data, m.nextNode⟩ hnone
          (fun x hx => Nat.ne_of_lt (hfresh x hx)) rfl
      refine ⟨⟨?_, fun n hn => ?_, ?_⟩, rfl, Or.inr ?_⟩
      · dsimp only
        rw [sizeAdd_of_lt (by omega)]
        exact hadd
      · rcases List.mem_append.mp hn with hn | hn
        · exact Nat.lt_succ_of_lt (hfresh n hn)
        · rw [List.mem_singleton.mp hn]
          exact Nat.lt_succ_self _
      · exact Nat.mod_lt _ (by decide)
      · dsimp only
        rw [sizeAdd_of_lt (by omega)]
        exact hfit
    · exact ⟨⟨hlinked, hfresh, Nat.lt_of_le_of_lt hle hlt⟩, rfl, Or.inl hle⟩

/-! ## 更新 -/

theorem scan_remove_spec {c₀ : List (κ × Item δ)} {pre : List (Ordered κ τ)} {timeout : τ} (removed : Int32)
    (h : Linked c (pre ++ q) total) (hsame : ∀ n ∈ q, lookup n.key c = lookup n.key c₀)
    (hc : lookup key c = some item) (hnew : newSize + item.size = total + size)
    (hw : total + size < 2 ^ 64) : Returns (scanLoop bound timeout now c₀ item.order q newSize)
      (fun r => ∀ newSize' order, r = some (newSize', order) →
        (order = none ∨ ∃ n ∈ q, order = some n.node) ∧ newSize' ≤ bound ∧
        ∃ total' ≤ total, Linked (removeLoop item.order order q c removed).2.1
        (pre ++ (removeLoop item.order order q c removed).1) total' ∧
          lookup key (removeLoop item.order order q c removed).2.1 = some item ∧ newSize' + item.size = total' + size ∧
          ∀ n ∈ (removeLoop item.order order q c removed).1, n ∈ q) fun _ => False := by
  induction q generalizing c pre total newSize removed with
  | nil =>
      unfold scanLoop
      refine Returns.ite (fun _ => Returns.pure fun _ _ hr => by cases hr) (fun hle => Returns.pure fun _ _ hr => ?_)
      cases hr
      exact ⟨Or.inl rfl, Nat.not_lt.mp hle, total, Nat.le_refl _, h, hc, hnew, fun n hn => hn⟩
  | cons n q ih =>
      have hnodes := h.nodes
      have hkeys := h.keys
      rw [List.map_append, List.map_cons] at hnodes hkeys
      have hnode : ∀ n' ∈ q, n.node ≠ n'.node := fun n' hn' he =>
        (List.nodup_cons.mp (List.nodup_append.mp hnodes).2.1).1 (List.mem_map.mpr ⟨n', hn', he.symm⟩)
      have hkey : ∀ n' ∈ q, n'.key ≠ n.key := fun n' hn' he =>
        (List.nodup_cons.mp (List.nodup_append.mp hkeys).2.1).1 (List.mem_map.mpr ⟨n', hn', he⟩)
      have hpass : ∀ order, (order = none ∨ ∃ n ∈ q, order = some n.node) → some n.node ≠ order := by
        rintro order (rfl | ⟨n', hn', rfl⟩) he
        · cases he
        · exact hnode n' hn' (Option.some.inj he)
      have hmore : ∀ order, (order = none ∨ ∃ n ∈ q, order = some n.node) → order = none ∨
          ∃ x ∈ n :: q, order = some x.node := by
        rintro order (rfl | ⟨n', hn', rfl⟩)
        · exact Or.inl rfl
        · exact Or.inr ⟨n', List.mem_cons_of_mem _ hn', rfl⟩
      unfold scanLoop
      refine Returns.ite (fun hbig => Returns.ite (fun _ => Returns.pure fun _ _ hr => by cases hr)
        (fun _ => Returns.ite (fun hother => ?_) (fun hown => ?_))) (fun hle => Returns.pure fun _ _ hr => ?_)
      · -- 他の項目の節。大きさを引いて先へ進み、後でその項目を除く。
        obtain ⟨it, hit, horder⟩ := h.lookup_node (List.mem_append_right _ List.mem_cons_self)
        rw [← hsame n List.mem_cons_self, hit]
        obtain ⟨hlinked, hle⟩ := h.remove List.perm_middle hit
        have hne : key ≠ n.key := fun he => by
          rw [he, hit] at hc
          rw [← Option.some.inj hc] at hother
          exact hother horder.symm
        have hc' : lookup key (eraseKey n.key c) = some item := by
          rw [lookup_eraseKey_of_ne hne]
          exact hc
        have hsize := (hlinked.set item hc' rfl).2
        dsimp only
        rw [sizeSub_of_le (by omega) (by omega)]
        refine (ih (removed + 1) hlinked (fun n' hn' => ?_) hc' (by omega) (by omega)).mono ?_ fun _ hF => hF
        · rw [lookup_eraseKey_of_ne (hkey n' hn')]
          exact hsame n' (List.mem_cons_of_mem _ hn')
        · intro r hr newSize' order heq
          obtain ⟨ho, hb, total', h0, h1, h2, h3, h4⟩ := hr newSize' order heq
          have hremove : removeLoop item.order order (n :: q) c removed =
              removeLoop item.order order q (eraseKey n.key c) (removed + 1) := by
            rw [removeLoop, if_neg (hpass order ho), if_pos hother]
          rw [hremove]
          exact ⟨hmore order ho, hb, total', by omega, h1, h2, h3, fun x hx => List.mem_cons_of_mem _ (h4 x hx)⟩
      · -- 更新する項目自身の節は残す。
        have hlinked : Linked c ((pre ++ [n]) ++ q) total := by
          rw [List.append_assoc]
          exact h
        refine (ih removed hlinked (fun n' hn' => hsame n' (List.mem_cons_of_mem _ hn')) hc
          hnew hw).mono ?_ fun _ hF => hF
        intro r hr newSize' order heq
        obtain ⟨ho, hb, total', h0, h1, h2, h3, h4⟩ := hr newSize' order heq
        have hremove : removeLoop item.order order (n :: q) c removed =
            (n :: (removeLoop item.order order q c removed).1, (removeLoop item.order order q c removed).2) := by
          rw [removeLoop, if_neg (hpass order ho), if_neg hown]
        rw [hremove]
        rw [List.append_assoc] at h1
        refine ⟨hmore order ho, hb, total', h0, h1, h2, h3, fun x hx => ?_⟩
        rcases List.mem_cons.mp hx with rfl | hx
        · exact List.mem_cons_self
        · exact List.mem_cons_of_mem _ (h4 x hx)
      · cases hr
        have hremove : removeLoop item.order (some n.node) (n :: q) c removed = (n :: q, c, removed) := by
          rw [removeLoop, if_pos rfl]
        rw [hremove]
        exact ⟨Or.inr ⟨n, List.mem_cons_self, rfl⟩, Nat.not_lt.mp hle, total, Nat.le_refl _, h, hc, hnew, fun x hx => hx⟩

omit [Add τ] [LT τ] [DecidableLT τ] in
theorem State.Inv.eraseNode (h : m.Inv) (hc : lookup key m.container = some item) (stat : Stat) :
    ∃ q', BoundedMap.eraseNode item.order m.queue = .ok q' ∧
      m.Keeps { m with
        container := eraseKey key m.container, queue := q', size := sizeSub m.size item.size, stat := stat } := by
  obtain ⟨q', herase, hlinked, hle, hsub⟩ := h.linked.eraseNode hc
  rw [sizeSub_of_le hle h.size_lt]
  exact ⟨q', herase, ⟨hlinked, fun n hn => h.fresh n (hsub n hn), Nat.lt_of_le_of_lt
    (Nat.sub_le _ _) h.size_lt⟩, rfl, Or.inl (Nat.sub_le _ _)⟩

omit [Add τ] [LT τ] [DecidableLT τ] in
theorem State.removeUpdated_spec (h : m.Inv) (hc : lookup key m.container = some item) :
    Returns (m.removeUpdated key item) (fun r => m.Keeps r.1) fun _ => False := by
  obtain ⟨q', herase, hkeeps⟩ := h.eraseNode hc { m.stat with removedUpdated := m.stat.removedUpdated + 1 }
  unfold State.removeUpdated
  rw [herase]
  exact Returns.pure hkeeps

theorem State.updateInner_spec {policy : κ → δ → Nat} (h : m.Inv)
    (hc : lookup key m.container = some item) (hw : m.size + policy key item.data < 2 ^ 64) :
    Returns (m.updateInner key item now policy) (fun r => m.Keeps r.1) fun _ => False := by
  have hlt := h.size_lt
  obtain ⟨hset, hle⟩ := h.linked.set { item with size := policy key item.data } hc rfl
  have hnew : sizeSub (sizeAdd m.size (policy key item.data)) item.size = m.size + policy key item.data - item.size := by
    rw [sizeAdd_of_lt hw, sizeSub_of_le (by omega) hw]
  unfold State.updateInner
  dsimp only
  rw [hnew]
  refine Returns.ite (fun hfit => Returns.pure ?_)
    (fun hbig => Returns.ite (fun _ => State.removeUpdated_spec h hc) (fun _ => Returns.bind ?_))
  · refine ⟨⟨?_, h.fresh, show m.size + policy key item.data - item.size < 2 ^ 64 by omega⟩, rfl, Or.inr hfit⟩
    dsimp only at hset ⊢
    rw [show m.size + policy key item.data - item.size = m.size - item.size + policy key item.data by omega]
    exact hset
  · have hlinked₀ : Linked m.container ([] ++ m.queue) m.size := h.linked
    have htotal : m.size + policy key item.data - item.size + item.size = m.size + policy key item.data := by omega
    refine (scan_remove_spec m.stat.removedOutdated hlinked₀ (fun n _ => rfl) hc htotal hw).mono ?_ fun _ hF => hF
    intro r hr
    cases r with
    | none => exact State.removeUpdated_spec h hc
    | some p =>
        obtain ⟨newSize', order⟩ := p
        obtain ⟨-, hb, total', hless, hlinked, hc', htotal', hsub⟩ := hr newSize' order rfl
        rw [List.nil_append] at hlinked
        obtain ⟨hset', hle'⟩ := hlinked.set { item with size := policy key item.data } hc' rfl
        have hsize : total' - item.size + policy key item.data = newSize' := by omega
        dsimp only
        generalize removeLoop item.order order m.queue m.container m.stat.removedOutdated = s at hset' hsub
        obtain ⟨queue, container, removed⟩ := s
        dsimp only at hset' hsub ⊢
        rw [hsize] at hset'
        exact Returns.pure ⟨⟨hset', fun n hn => h.fresh n (hsub n hn), show newSize' < 2 ^ 64 by omega⟩, rfl, Or.inr hb⟩

/-! ## 呼び出し -/

/-- 呼び出しで求める大きさを足しても、`size_t` からあふれない。 -/
def State.NoWrap (m : State κ δ τ) : Op κ δ τ → Prop
  | .insert key data _ policy _ => m.size + policy key data < 2 ^ 64
  | .insertOrUpdate key data _ policy _ => m.size + policy key data < 2 ^ 64
  | .update key _ policy => ∀ item, lookup key m.container = some item → m.size + policy key item.data < 2 ^ 64
  | _ => True

def nextBound (bound : Nat) : Op κ δ τ → Nat
  | .bound newBound => newBound
  | _ => bound

omit [DecidableEq κ] [Add τ] [LT τ] [DecidableLT τ] in
theorem State.Keeps.of_eq {m₁ m' : State κ δ τ} (h : m₁.Keeps m') (hs : m₁.size = m.size) (hb : m₁.bound = m.bound) :
    m.Keeps m' := ⟨h.inv, h.bound_eq.trans hb, by rw [← hs, ← hb]; exact h.size_le⟩

theorem State.insert_spec {data : δ} {policy : κ → δ → Nat} (fails : Bool) (h : m.Inv)
    (hw : m.size + policy key data < 2 ^ 64) :
    Returns (m.insert key data now policy fails) (fun r => m.Keeps r.1) fun _ => False := by
  unfold State.insert
  refine Returns.bind ((State.findInner_spec h key now).mono ?_ fun _ hF => hF)
  rintro ⟨m₁, found⟩ ⟨hinv, hs, hb, hc, hf⟩
  dsimp only at hinv hs hb hc hf ⊢
  cases found with
  | some item => exact Returns.pure ⟨⟨hinv.linked, hinv.fresh, hinv.size_lt⟩, hb, Or.inl (Nat.le_of_eq hs)⟩
  | none =>
      refine (State.insertInner_spec fails hinv ?_ ?_).mono (fun r hr => hr.of_eq hs hb) fun _ hF => hF
      · rw [hc, ← hf]
      · rw [hs]
        exact hw

theorem State.insertOrUpdate_spec {data : δ} {policy : κ → δ → Nat} (fails : Bool) (h : m.Inv)
    (hw : m.size + policy key data < 2 ^ 64) :
    Returns (m.insertOrUpdate key data now policy fails) (fun m' => m.Keeps m') fun _ => False := by
  unfold State.insertOrUpdate
  refine Returns.bind ((State.findInner_spec h key now).mono ?_ fun _ hF => hF)
  rintro ⟨m₁, found⟩ ⟨hinv, hs, hb, hc, hf⟩
  dsimp only at hinv hs hb hc hf ⊢
  cases found with
  | some item =>
      have hfound : lookup key m₁.container = some item := by rw [hc, ← hf]
      -- 値だけを取り替えた状態でも、不変条件は成り立つ。
      obtain ⟨hset, hle⟩ := hinv.linked.set { item with data := data } hfound rfl
      dsimp only at hset
      rw [Nat.sub_add_cancel hle] at hset
      have hinv₂ : State.Inv { m₁ with container := setKey key { item with data := data } m₁.container } :=
        ⟨hset, hinv.fresh, hinv.size_lt⟩
      refine Returns.bind ((State.updateInner_spec hinv₂ (lookup_setKey hfound) ?_).mono ?_ fun _ hF => hF)
      · dsimp only
        rw [hs]
        exact hw
      · rintro ⟨m₂, replaced⟩ hkeep
        dsimp only at hkeep ⊢
        have hkeep' : m.Keeps m₂ := hkeep.of_eq hs hb
        cases replaced with
        | true => exact ⟨⟨hkeep'.inv.linked, hkeep'.inv.fresh, hkeep'.inv.size_lt⟩, hkeep'.bound_eq, hkeep'.size_le⟩
        | false => exact hkeep'
  | none =>
      refine Returns.bind ((State.insertInner_spec fails hinv ?_ ?_).mono (fun r hr => hr.of_eq hs hb) fun _ hF => hF)
      · rw [hc, ← hf]
      · rw [hs]
        exact hw

theorem State.update_spec {policy : κ → δ → Nat} (h : m.Inv)
    (hw : ∀ item, lookup key m.container = some item → m.size + policy key item.data < 2 ^ 64) :
    Returns (m.update key now policy) (fun m' => m.Keeps m') fun _ => False := by
  unfold State.update
  cases hc : lookup key m.container with
  | none => exact Returns.pure ⟨h, rfl, Or.inl (Nat.le_refl _)⟩
  | some item => exact Returns.bind (State.updateInner_spec h hc (hw item hc))

omit [Add τ] [LT τ] [DecidableLT τ] in
theorem State.erase_spec (h : m.Inv) (key : κ) : Returns (m.erase key) (fun m' => m.Keeps m') fun _ => False := by
  unfold State.erase
  cases hc : lookup key m.container with
  | none => exact Returns.pure ⟨h, rfl, Or.inl (Nat.le_refl _)⟩
  | some item =>
      obtain ⟨q', herase, hkeeps⟩ := h.eraseNode hc m.stat
      dsimp only
      rw [herase]
      exact Returns.pure hkeeps

theorem State.step_spec (h : m.Inv) (op : Op κ δ τ) (hw : m.NoWrap op) :
    Returns (m.step op)
      (fun m' => m'.Inv ∧ m'.bound = nextBound m.bound op ∧ (m'.size ≤ m.size ∨ m'.size ≤ m.bound) ∧
        (op = .clear → m'.size = 0)) fun _ => False := by
  have hkeeps : ∀ {m' : State κ δ τ} {op : Op κ δ τ}, m.Keeps m' → nextBound m.bound op = m.bound → op ≠ .clear →
      m'.Inv ∧ m'.bound = nextBound m.bound op ∧ (m'.size ≤ m.size ∨ m'.size ≤ m.bound) ∧ (op = .clear → m'.size = 0) :=
    fun hk hn hne => ⟨hk.inv, hk.bound_eq.trans hn.symm, hk.size_le, fun he => absurd he hne⟩
  cases op with
  | insert key data now policy fails =>
      exact Returns.bind ((State.insert_spec fails h hw).mono (fun r hr => hkeeps hr rfl (by simp)) fun _ hF => hF)
  | insertOrUpdate key data now policy fails =>
      exact (State.insertOrUpdate_spec fails h hw).mono (fun m' hr => hkeeps hr rfl (by simp)) fun _ hF => hF
  | find key now =>
      refine Returns.bind (Returns.bind ((State.findInner_spec h key now).mono ?_ fun _ hF => hF))
      rintro ⟨m₁, found⟩ ⟨hinv, hs, hb, -, -⟩
      exact ⟨hinv, hb, Or.inl (Nat.le_of_eq hs), by simp⟩
  | update key now policy =>
      exact (State.update_spec h hw).mono (fun m' hr => hkeeps hr rfl (by simp)) fun _ hF => hF
  | erase key => exact (State.erase_spec h key).mono (fun m' hr => hkeeps hr rfl (by simp)) fun _ hF => hF
  | clear =>
      refine Returns.pure ⟨⟨⟨List.Perm.refl _, List.nodup_nil, List.nodup_nil, rfl⟩, fun n hn =>
        ?_, ?_⟩, rfl, Or.inl (Nat.zero_le _), fun _ => rfl⟩
      · cases hn
      · exact Nat.two_pow_pos 64
  | bound newBound =>
      exact Returns.pure ⟨⟨h.linked, h.fresh, h.size_lt⟩, rfl, Or.inl (Nat.le_refl _), by simp⟩
  | timeout newTimeout =>
      exact Returns.pure ⟨⟨h.linked, h.fresh, h.size_lt⟩, rfl, Or.inl (Nat.le_refl _), by simp⟩

end UnixCommons.Generics.BoundedMap
