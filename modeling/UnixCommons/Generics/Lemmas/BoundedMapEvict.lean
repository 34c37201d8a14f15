import UnixCommons.Generics.Lemmas.BoundedMap

/-! # 古い項目を除くことの補題 -/

namespace UnixCommons.Generics.BoundedMap

open Lib

variable {κ δ τ : Type}
variable {c : List (κ × Item δ)} {q out kept pre : List (Ordered κ τ)} {n : Ordered κ τ} {key : κ} {item : Item δ}
variable {size bound own : Nat} {m : State κ δ τ} {now timeout : τ}

def total (c : List (κ × Item δ)) : Nat := (c.map fun e => e.2.size).sum

def SizesFit (c : List (κ × Item δ)) : Prop := ∀ e ∈ c, e.2.size < 2 ^ 64

theorem sizeAdd_mod {x y : Nat} : sizeAdd (x % 2 ^ 64) y = (x + y) % 2 ^ 64 := by
  simp [sizeAdd]

theorem sizeSub_mod {x y : Nat} (hle : y ≤ x) (hy : y < 2 ^ 64) : sizeSub (x % 2 ^ 64) y = (x - y) % 2 ^ 64 := by
  unfold sizeSub
  omega

variable [DecidableEq κ]

def without (out : List (Ordered κ τ)) (c : List (κ × Item δ)) : List (κ × Item δ) :=
  c.filter fun e => e.1 ∉ out.map fun n => n.key

@[simp] theorem without_nil : without ([] : List (Ordered κ τ)) c = c := by
  simp [without]

theorem without_append : without (pre ++ out) c = without out (without pre c) := by
  simp only [without, List.filter_filter]
  refine List.filter_congr fun e _ => ?_
  simp only [List.map_append, List.mem_append, not_or, Bool.decide_and, Bool.and_comm]

theorem without_singleton : without [n] c = eraseKey n.key c := by
  simp [without, eraseKey]

theorem without_cons : without (n :: out) c = without out (eraseKey n.key c) := by
  rw [← List.singleton_append, without_append, without_singleton]

theorem eraseKey_without : eraseKey key (without out c) = without out (eraseKey key c) := by
  simp only [without, eraseKey, List.filter_filter]
  refine List.filter_congr fun e _ => ?_
  rw [Bool.and_comm]

theorem eraseKey_eraseKey : eraseKey key (eraseKey key c) = eraseKey key c := by
  simp [eraseKey, List.filter_filter]

theorem lookup_without_of_mem (h : key ∈ out.map fun n => n.key) : lookup key (without out c) = none := by
  rw [lookup_eq_none_iff]
  intro hmem
  obtain ⟨e, he, rfl⟩ := List.mem_map.mp hmem
  have hnot := (List.mem_filter.mp he).2
  rw [decide_eq_true_eq] at hnot
  exact hnot h

theorem lookup_without_of_not_mem (h : key ∉ out.map fun n => n.key) : lookup key (without out c) = lookup key c := by
  induction out generalizing c with
  | nil => rw [without_nil]
  | cons n out ih =>
      rw [List.map_cons, List.mem_cons, not_or] at h
      rw [without_cons, ih h.2, lookup_eraseKey_of_ne h.1]

theorem lookup_setKey_of_ne {key' : κ} (h : key' ≠ key) : lookup key' (setKey key item c) = lookup key' c := by
  induction c with
  | nil => rfl
  | cons e c ih =>
      unfold lookup setKey at ih ⊢
      by_cases he : e.1 = key
      · have hne : e.1 ≠ key' := fun heq => h (heq.symm.trans he)
        simpa [he, Ne.symm h, hne] using ih
      · rw [List.map_cons, if_neg he, List.find?_cons, List.find?_cons]
        split
        · rfl
        · exact ih

theorem nodup_without (h : (c.map Prod.fst).Nodup) : ((without out c).map Prod.fst).Nodup :=
  h.sublist (List.filter_sublist.map _)

theorem nodup_eraseKey (h : (c.map Prod.fst).Nodup) : ((eraseKey key c).map Prod.fst).Nodup :=
  h.sublist (List.filter_sublist.map _)

theorem SizesFit.without (h : SizesFit c) : SizesFit (without out c) := fun e he => h e (List.mem_filter.mp he).1

theorem SizesFit.eraseKey (h : SizesFit c) : SizesFit (eraseKey key c) := fun e he => h e (List.mem_filter.mp he).1

theorem total_eraseKey (hk : (c.map Prod.fst).Nodup) (hc : lookup key c = some item) :
    total c = item.size + total (eraseKey key c) := by
  have hperm := (perm_eraseKey hk hc).map fun e => e.2.size
  rw [total, hperm.sum_eq, List.map_cons, List.sum_cons, total]

theorem total_setKey (item' : Item δ) (hk : (c.map Prod.fst).Nodup) (hc : lookup key c = some item) :
    total (setKey key item' c) = item'.size + total (eraseKey key c) := by
  have hset : (setKey key item' c).Perm ((key, item') :: eraseKey key c) := perm_setKey hk hc
  have hperm := hset.map fun e => e.2.size
  rw [total, hperm.sum_eq, List.map_cons, List.sum_cons, total]

def Expired [Add τ] [LT τ] (timeout now : τ) (n : Ordered κ τ) : Prop := ¬ n.lastUsed + timeout > now

theorem add_ofNat_succ (removed : Int32) (n : Nat) : removed + 1 + .ofNat n = removed + .ofNat (n + 1) := by
  rw [Int32.ofNat_add, Int32.add_assoc, Int32.add_comm 1]
  rfl

variable [Add τ] [LT τ] [DecidableLT τ]

theorem evictLoop_result (h : Linked c q (total c)) (hs : SizesFit c) (bound size : Nat)
    (timeout now : τ) (removed : Int32) : ∃ room out kept,
      evictLoop bound size timeout now q c (total c % 2 ^ 64) removed =
        .ok (room, kept, without out c, total (without out c) % 2 ^ 64, removed + .ofNat out.length) ∧
      q = out ++ kept ∧ Linked (without out c) kept (total (without out c)) ∧
      (∀ n ∈ out, Expired timeout now n) ∧ (∀ pre n post, out = pre ++ n :: post →
      bound < size + total (without pre c)) ∧ (room = false → kept = [] → bound < size) := by
  induction q generalizing c removed with
  | nil =>
      refine ⟨decide (¬ sizeAdd (total c % 2 ^ 64) size > bound), [], [], ?_, rfl, by simpa using h, by simp, by simp, ?_⟩
      · rw [evictLoop, without_nil]
        simp [pure, Except.pure]
      · intro hroom _
        have hempty : c = [] := by simpa using h.perm
        simp only [hempty, total, List.map_nil, List.sum_nil, sizeAdd_mod, decide_eq_false_iff_not, not_not] at hroom
        have hle := Nat.mod_le (0 + size) (2 ^ 64)
        omega
  | cons n q ih =>
      rw [evictLoop, sizeAdd_mod]
      split
      · rename_i hbig
        have hneed : bound < size + total c := by
          have hle := Nat.mod_le (total c + size) (2 ^ 64)
          omega
        split
        · exact ⟨false, [], n :: q, by simp [pure, Except.pure], rfl, by simpa using h, by simp, by simp, by simp⟩
        · rename_i hold
          obtain ⟨item, hc, -⟩ := h.lookup_node List.mem_cons_self
          have htotal := total_eraseKey h.container_keys hc
          have hsize : item.size < 2 ^ 64 := hs _ (mem_of_lookup hc)
          have hsub : sizeSub (total c % 2 ^ 64) item.size = total (eraseKey n.key c) % 2 ^ 64 := by
            rw [sizeSub_mod (by omega) hsize, htotal, Nat.add_sub_cancel_left]
          have hlinked : Linked (eraseKey n.key c) q (total (eraseKey n.key c)) := by
            have hrest := (h.remove (List.Perm.refl _) hc).1
            rwa [htotal, Nat.add_sub_cancel_left] at hrest
          obtain ⟨room, out, kept, hloop, hq, hout, hexpired, hneeded, hroom⟩ := ih hlinked hs.eraseKey (removed + 1)
          refine ⟨room, n :: out, kept, ?_, by rw [hq, List.cons_append], by rwa [without_cons], ?_, ?_, hroom⟩
          · simp only [hc, hsub, hloop, without_cons, List.length_cons, add_ofNat_succ]
          · exact List.forall_mem_cons.mpr ⟨hold, hexpired⟩
          · intro pre x post heq
            cases pre with
            | nil => rwa [without_nil]
            | cons y pre =>
                rw [List.cons_append, List.cons.injEq] at heq
                rw [← heq.1, without_cons]
                exact hneeded pre x post heq.2
      · exact ⟨true, [], n :: q, by simp [pure, Except.pure], rfl, by simpa using h, by simp, by simp, by simp⟩

/-! ## `update_` のループ -/

omit [Add τ] [LT τ] [DecidableLT τ] in
theorem total_without_append {rest : List (κ × Item δ)} (hk : (rest.map Prod.fst).Nodup)
    (hn : n.key ∉ pre.map fun n => n.key)
    (hc : lookup n.key rest = some item) : total (without pre rest) = item.size + total (without (pre ++ [n]) rest) := by
  have hlookup : lookup n.key (without pre rest) = some item := by rw [lookup_without_of_not_mem hn, hc]
  rw [without_append, without_singleton]
  exact total_eraseKey (nodup_without hk) hlookup

structure Scans (bound size : Nat) (timeout now : τ) (rest : List (κ × Item δ))
    (pre out kept : List (Ordered κ τ)) (x : Except Fault (Option (Nat × Option Nat))) : Prop where
  expired : ∀ n ∈ out, Expired timeout now n
  needed : ∀ before n post, out = before ++ n :: post → bound < size + total (without (pre ++ before) rest)
  answer :
    (x = .ok (some ((size + total (without (pre ++ out) rest)) % 2 ^ 64, kept.head?.map fun n => n.node)) ∧
        (size + total (without (pre ++ out) rest)) % 2 ^ 64 ≤ bound) ∨
      (x = .ok none ∧ bound < size + total (without (pre ++ out) rest) ∧ ∀ n, kept.head? = some n → ¬ Expired timeout now n)

omit [DecidableLT τ] in
theorem Scans.cons {rest : List (κ × Item δ)} {x : Except Fault (Option (Nat × Option Nat))}
    (h : Scans bound size timeout now rest (pre ++ [n]) out kept x)
    (hold : Expired timeout now n) (hneed : bound < size + total (without pre rest)) :
    Scans bound size timeout now rest pre (n :: out) kept x := by
  refine ⟨List.forall_mem_cons.mpr ⟨hold, h.expired⟩, ?_, ?_⟩
  · intro before x post heq
    cases before with
    | nil => simpa using hneed
    | cons y before =>
        rw [List.cons_append, List.cons.injEq] at heq
        have hrest := h.needed before x post heq.2
        rwa [List.append_assoc, List.singleton_append, heq.1] at hrest
  · have hanswer := h.answer
    rwa [List.append_assoc, List.singleton_append] at hanswer

theorem scanLoop_result (h : Linked c (pre ++ q) (total c)) (hs : SizesFit c)
    (hc : lookup key c = some item) (bound size : Nat) (timeout now : τ) :
    ∃ out kept, q = out ++ kept ∧ Scans bound size timeout now (eraseKey key c) pre out kept
      (scanLoop bound timeout now c item.order q ((size + total (without pre (eraseKey key c))) % 2 ^ 64)) := by
  induction q generalizing pre with
  | nil =>
      refine ⟨[], [], rfl, by simp, by simp, ?_⟩
      rw [scanLoop, List.append_nil]
      split
      · rename_i hbig
        exact .inr ⟨rfl, Nat.lt_of_lt_of_le hbig (Nat.mod_le _ _), by simp⟩
      · rename_i hfit
        exact .inl ⟨rfl, Nat.not_lt.mp hfit⟩
  | cons n q ih =>
      rw [scanLoop]
      split
      · rename_i hbig
        have hneed : bound < size + total (without pre (eraseKey key c)) := Nat.lt_of_lt_of_le hbig (Nat.mod_le _ _)
        split
        · rename_i hnew
          exact ⟨[], n :: q, rfl, by simp, by simp, .inr ⟨rfl, by simpa using hneed, by simpa [Expired] using hnew⟩⟩
        · rename_i hold
          have hlinked : Linked c ((pre ++ [n]) ++ q) (total c) := by simpa using h
          obtain ⟨it, hit, horder⟩ := h.lookup_node (n := n) (by simp)
          obtain ⟨out, kept, hq, hscans⟩ := ih hlinked
          refine ⟨n :: out, kept, by rw [hq, List.cons_append], ?_⟩
          split
          · -- 他の項目の節。その大きさを引く。
            rename_i hother
            have hne : n.key ≠ key := fun heq => by
              rw [heq, hc] at hit
              cases hit
              exact hother horder.symm
            have hpre : n.key ∉ pre.map fun n => n.key := by
              have hkeys := h.keys
              rw [List.map_append, List.map_cons, List.nodup_append] at hkeys
              intro hmem
              exact hkeys.2.2 _ hmem _ List.mem_cons_self rfl
            have hrest : lookup n.key (eraseKey key c) = some it := by rw [lookup_eraseKey_of_ne hne, hit]
            have htotal := total_without_append (nodup_eraseKey h.container_keys) hpre hrest
            have hsize : it.size < 2 ^ 64 := hs _ (mem_of_lookup hit)
            have hsub : sizeSub ((size + total (without pre (eraseKey key c))) % 2 ^ 64) it.size =
                (size + total (without (pre ++ [n]) (eraseKey key c))) % 2 ^ 64 := by
              rw [sizeSub_mod (by omega) hsize, htotal, Nat.add_comm it.size, ← Nat.add_assoc, Nat.add_sub_cancel_right]
            simp only [hit, hsub]
            exact hscans.cons hold hneed
          · -- 更新する項目の節は、和を変えない。
            rename_i hown
            have hkey : n.key = key := by
              obtain ⟨n', hn', hnode, hkey'⟩ := h.node_of_lookup hc
              rw [not_not] at hown
              have hmem : n ∈ pre ++ n :: q := by simp
              rw [node_unique h.nodes hmem hn' (hown.trans hnode.symm), hkey']
            have hsame : without (pre ++ [n]) (eraseKey key c) = without pre (eraseKey key c) := by
              rw [without_append, without_singleton, hkey, eraseKey_without, eraseKey_eraseKey]
            rw [hsame] at hscans
            exact hscans.cons hold hneed
      · rename_i hfit
        exact ⟨[], n :: q, rfl, by simp, by simp, .inl ⟨by simp [pure, Except.pure], by simpa using Nat.not_lt.mp hfit⟩⟩

omit [Add τ] [LT τ] [DecidableLT τ] in
theorem removeLoop_result (hnodes : ((out ++ kept).map fun n => n.node).Nodup) (own : Nat)
    (c : List (κ × Item δ)) (removed : Int32) :
    removeLoop own (kept.head?.map fun n => n.node) (out ++ kept) c removed =
      (out.filter (fun n => n.node = own) ++ kept, without (out.filter fun n => n.node ≠ own) c,
        removed + .ofNat (out.filter fun n => n.node ≠ own).length) := by
  induction out generalizing c removed with
  | nil =>
      cases kept with
      | nil => simp [removeLoop]
      | cons n kept => simp [removeLoop]
  | cons n out ih =>
      rw [List.cons_append, List.map_cons, List.nodup_cons] at hnodes
      have hpass : some n.node ≠ kept.head?.map fun n => n.node := by
        intro heq
        obtain ⟨x, hx, hnode⟩ := Option.map_eq_some_iff.mp heq.symm
        refine hnodes.1 (List.mem_map.mpr ⟨x, ?_, hnode⟩)
        exact List.mem_append_right _ (List.mem_of_head? hx)
      rw [List.cons_append, removeLoop, if_neg hpass]
      by_cases hown : n.node = own
      · rw [if_neg (not_not.mpr hown), ih hnodes.2]
        simp [hown]
      · rw [if_pos hown, ih hnodes.2]
        simp [hown, without_cons, add_ofNat_succ]

end UnixCommons.Generics.BoundedMap

/-! ## 上限のある連想配列の変化 -/

namespace UnixCommons.Generics.BoundedMap

open Lib

variable {κ δ τ : Type} [DecidableEq κ]
variable {c : List (κ × Item δ)} {q q' out kept : List (Ordered κ τ)} {key : κ} {item : Item δ} {sum : Nat}
variable {m : State κ δ τ} {now : τ}

omit [DecidableEq κ] in
theorem Linked.length_eq (h : Linked c q sum) : c.length = q.length := by
  simpa using h.perm.length_eq

theorem Linked.without (h : Linked c q (total c)) (hq : q.Perm (out ++ q')) :
    Linked (without out c) q' (total (without out c)) := by
  induction out generalizing c q with
  | nil =>
      rw [without_nil]
      exact h.reorder (hq.map _)
  | cons n out ih =>
      obtain ⟨item, hc, -⟩ := h.lookup_node (hq.mem_iff.mpr List.mem_cons_self)
      have hrest := (h.remove hq hc).1
      rw [total_eraseKey h.container_keys hc, Nat.add_sub_cancel_left] at hrest
      rw [without_cons]
      exact ih hrest (List.Perm.refl _)

theorem Linked.node_iff (h : Linked c q sum) (hc : lookup key c = some item) {n : Ordered κ τ}
    (hn : n ∈ q) : n.node = item.order ↔ n.key = key := by
  obtain ⟨x, hx, hnode, hkey⟩ := h.node_of_lookup hc
  constructor
  · intro heq
    rw [node_unique h.nodes hn hx (heq.trans hnode.symm), hkey]
  · intro heq
    rw [List.inj_on_of_nodup_map h.keys hn hx (heq.trans hkey.symm), hnode]

theorem without_filter : without (out.filter fun n => n.key ≠ key) (eraseKey key c) = without out (eraseKey key c) := by
  unfold BoundedMap.without
  refine List.filter_congr fun e he => ?_
  have hne : e.1 ≠ key := by simpa using (List.mem_filter.mp he).2
  have hiff : e.1 ∈ (out.filter fun n => n.key ≠ key).map (fun n => n.key) ↔ e.1 ∈ out.map fun n => n.key := by
    simp only [List.mem_map, List.mem_filter, decide_eq_true_eq]
    constructor
    · rintro ⟨n, ⟨hn, -⟩, heq⟩
      exact ⟨n, hn, heq⟩
    · rintro ⟨n, hn, heq⟩
      exact ⟨n, ⟨hn, heq ▸ hne⟩, heq⟩
  simp only [hiff]

/-- 表と並びは対応し、`size_` は、大きさの和を `2 ^ 64` で切った値である。 -/
structure State.Wraps (m : State κ δ τ) : Prop where
  linked : Linked m.container m.queue (total m.container)
  fresh : ∀ n ∈ m.queue, n.node < m.nextNode
  size_eq : m.size = total m.container % 2 ^ 64
  fits : SizesFit m.container

def recency (key : κ) (now : τ) (queue : List (Ordered κ τ)) : List (Ordered κ τ) :=
  (queue.filter fun n => n.key ≠ key) ++ (queue.filter fun n => n.key = key).map fun n => { n with lastUsed := now }

theorem recency_perm : ((recency key now q).map fun n => (n.key, n.node)).Perm (q.map fun n => (n.key, n.node)) := by
  have hsplit := (List.filter_append_perm (fun n : Ordered κ τ => decide (n.key = key)) q).symm.map fun n => (n.key, n.node)
  rw [List.map_append] at hsplit
  simp only [recency, List.map_append, List.map_map]
  refine (List.perm_append_comm.trans ?_).trans hsplit.symm
  simp [Function.comp_def]

theorem State.Wraps.recency (h : m.Wraps) (key : κ) (now : τ) : State.Wraps { m with queue := recency key now m.queue } := by
  refine ⟨h.linked.reorder recency_perm.symm, fun n hn => ?_, h.size_eq, h.fits⟩
  have hmem : (n.key, n.node) ∈ (BoundedMap.recency key now m.queue).map fun n => (n.key, n.node) := List.mem_map_of_mem hn
  obtain ⟨x, hx, heq⟩ := List.mem_map.mp (recency_perm.mem_iff.mp hmem)
  rw [Prod.mk.injEq] at heq
  rw [← heq.2]
  exact h.fresh x hx

theorem filter_key_eq (h : (q.map fun n => n.key).Nodup) {n : Ordered κ τ} (hn : n ∈ q) :
    (q.filter fun x => x.key = n.key) = [n] := by
  induction q with
  | nil => cases hn
  | cons x q ih =>
      rw [List.map_cons, List.nodup_cons] at h
      rcases List.mem_cons.mp hn with rfl | hmem
      · have hnone : q.filter (fun x => x.key = n.key) = [] := by
          rw [List.filter_eq_nil_iff]
          intro y hy heq
          rw [decide_eq_true_eq] at heq
          exact h.1 (heq ▸ List.mem_map_of_mem hy)
        rw [List.filter_cons_of_pos (by simp), hnone]
      · have hne : x.key ≠ n.key := fun heq => h.1 (heq ▸ List.mem_map_of_mem hmem)
        rw [List.filter_cons_of_neg (by simpa using hne)]
        exact ih h.2 hmem

theorem State.Wraps.key_ne (h : m.Wraps) (hc : lookup key m.container = none) {n : Ordered κ τ}
    (hn : n ∈ m.queue) : n.key ≠ key := by
  intro heq
  obtain ⟨item, hitem, -⟩ := h.linked.lookup_node hn
  rw [heq, hc] at hitem
  cases hitem

theorem State.Wraps.recency_of_none (h : m.Wraps) (hc : lookup key m.container = none) :
    BoundedMap.recency key now m.queue = m.queue := by
  have hall : m.queue.filter (fun n => n.key ≠ key) = m.queue :=
    List.filter_eq_self.mpr fun n hn => decide_eq_true (h.key_ne hc hn)
  have hempty : m.queue.filter (fun n => n.key = key) = [] := List.filter_eq_nil_iff.mpr fun n hn =>
      by simpa using h.key_ne hc hn
  rw [BoundedMap.recency, hall, hempty, List.map_nil, List.append_nil]

theorem State.findInner_result (h : m.Wraps) (key : κ) (now : τ) :
    m.findInner key now = .ok ({ m with queue := BoundedMap.recency key now m.queue }, lookup key m.container) := by
  unfold State.findInner
  cases hc : lookup key m.container with
  | none =>
      rw [h.recency_of_none hc]
      rfl
  | some item =>
      obtain ⟨n, hn, hnode, hkey⟩ := h.linked.node_of_lookup hc
      have hfind : (m.queue.find? fun n => n.node = item.order) = some n := by
        cases hf : m.queue.find? fun n => n.node = item.order with
        | none => exact absurd hnode (by simpa using List.find?_eq_none.mp hf n hn)
        | some x =>
            have hx : x.node = item.order := by simpa using List.find?_some hf
            rw [node_unique h.linked.nodes (List.mem_of_find?_eq_some hf) hn (hx.trans hnode.symm)]
      have hfilter : m.queue.filter (fun n => n.node ≠ item.order) = m.queue.filter fun n => n.key ≠ key :=
        List.filter_congr fun x hx => by simp only [ne_eq, h.linked.node_iff hc hx]
      have hone : m.queue.filter (fun x => x.key = key) = [n] := hkey ▸ filter_key_eq h.linked.keys hn
      simp only [hfind, hfilter, BoundedMap.recency, hone, List.map_cons, List.map_nil]
      rfl

variable [Add τ] [LT τ] [DecidableLT τ]

/-- 並び `queue` の、操作する項目の他の節の始めの、古い節 `out` を、要るだけ除く。 -/
structure Evicts (m : State κ δ τ) (key : κ) (size : Nat) (now : τ) (queue out kept : List (Ordered κ τ)) : Prop where
  split : queue.filter (fun n => n.key ≠ key) = out ++ kept
  expired : ∀ n ∈ out, Expired m.timeout now n
  needed : ∀ before n post, out = before ++ n :: post → m.bound < size + total (without before (eraseKey key m.container))

omit [DecidableLT τ] in
theorem Evicts.none {size : Nat} {queue : List (Ordered κ τ)} : Evicts m key size now queue []
    (queue.filter fun n => n.key ≠ key) :=
  ⟨rfl, by simp, by simp⟩

inductive Inserted (m : State κ δ τ) (key : κ) (fails : Bool) (out : List (Ordered κ τ)) (m' : State κ δ τ) : Prop
  | inserted (item : Item δ) (container : m'.container = BoundedMap.without out m.container ++
      [(key, item)]) (stat : m'.stat =
        { m.stat with removedOutdated := m.stat.removedOutdated + .ofNat out.length, insertedNew := m.stat.insertedNew + 1 })
  | rejected (container : m'.container = BoundedMap.without out m.container)
      (stat : m'.stat =
        { m.stat with removedOutdated := m.stat.removedOutdated + .ofNat out.length, notInserted := m.stat.notInserted + 1 })
      (stays : out = [] ∨ BoundedMap.without out m.container ≠ [])
  | threw (thrown : fails = true) (container : m'.container = BoundedMap.without out m.container)
      (stat : m'.stat = { m.stat with removedOutdated := m.stat.removedOutdated + .ofNat out.length })

theorem State.insertInner_result (h : m.Wraps) (hk : lookup key m.container = none) (data : δ)
    (policy : κ → δ → Nat) (hsize : policy key data < 2 ^ 64) (fails : Bool) (now : τ) :
    ∃ m' r out kept, m.insertInner key data now policy fails = .ok (m', r) ∧ m'.Wraps ∧
      Evicts m key (policy key data) now m.queue out kept ∧
      out.length + (BoundedMap.without out m.container).length = m.container.length ∧
      Inserted m key fails out m' := by
  have hothers : m.queue.filter (fun n => n.key ≠ key) = m.queue :=
    List.filter_eq_self.mpr fun n hn => decide_eq_true (h.key_ne hk hn)
  unfold State.insertInner
  dsimp only
  split
  · exact ⟨_, _, [], m.queue, rfl, ⟨h.linked, h.fresh, h.size_eq, h.fits⟩,
      ⟨hothers, by simp, by simp⟩, by simp, .rejected (by simp) (by simp) (.inl rfl)⟩
  · rename_i hfit
    obtain ⟨room, out, kept, hloop, hq, hlinked, hexpired, hneeded, hroom⟩ :=
      evictLoop_result h.linked h.fits m.bound (policy key data) m.timeout now m.stat.removedOutdated
    have herase : eraseKey key m.container = m.container := List.filter_eq_self.mpr fun e he => decide_eq_true fun heq =>
      lookup_eq_none_iff.mp hk (heq ▸ List.mem_map_of_mem he)
    have hevicts : Evicts m key (policy key data) now m.queue out kept := by
      refine ⟨hothers.trans hq, hexpired, fun before n post heq => ?_⟩
      rw [herase]
      exact hneeded before n post heq
    have hlength : out.length + (BoundedMap.without out m.container).length = m.container.length := by
      rw [hlinked.length_eq, h.linked.length_eq, hq, List.length_append]
    have hfresh : ∀ n ∈ kept, n.node < m.nextNode := fun n hn => h.fresh n (hq ▸ List.mem_append_right _ hn)
    have hnone : lookup key (BoundedMap.without out m.container) = none := by
      rw [lookup_eq_none_iff] at hk ⊢
      intro hmem
      obtain ⟨e, he, rfl⟩ := List.mem_map.mp hmem
      exact hk (List.mem_map_of_mem (List.mem_filter.mp he).1)
    rw [h.size_eq, hloop]
    cases room with
    | false =>
        refine ⟨_, _, out, kept, rfl, ⟨hlinked, hfresh, rfl, h.fits.without⟩, hevicts, hlength,
          .rejected rfl rfl (.inr fun hempty => ?_)⟩
        have hkept : kept = [] := by
          rw [hempty] at hlinked
          exact List.length_eq_zero_iff.mp hlinked.length_eq.symm
        exact hfit (hroom rfl hkept)
    | true =>
        cases fails with
        | true =>
            have heraseNode : BoundedMap.eraseNode m.nextNode (kept ++ [⟨m.nextNode, key, now⟩]) =
                .ok kept := eraseNode_append hfresh
            let stat : Stat := { m.stat with removedOutdated := m.stat.removedOutdated + .ofNat out.length }
            let m₁ : State κ δ τ := ⟨m.bound, m.timeout, BoundedMap.without out m.container, kept,
                total (BoundedMap.without out m.container) % 2 ^ 64,
              stat, m.nextNode + 1⟩
            refine ⟨m₁, none, out, kept, ?_, ⟨hlinked, fun n hn => Nat.lt_succ_of_lt (hfresh n hn),
              rfl, h.fits.without⟩, hevicts, hlength, .threw rfl rfl rfl⟩
            · simp only [bind, Except.bind, if_true, heraseNode]
              rfl
        | false =>
            have hadd := hlinked.add ⟨m.nextNode, key, now⟩ ⟨data, policy key data, m.nextNode⟩
                hnone (fun x hx => Nat.ne_of_lt (hfresh x hx)) rfl
            let container := BoundedMap.without out m.container ++ [(key, Item.mk data (policy key data) m.nextNode)]
            have htotal : total container = total (BoundedMap.without out m.container) + policy key
                data := by simp [container, total]
            let stat : Stat :=
              { m.stat with removedOutdated :=
                m.stat.removedOutdated + .ofNat out.length, insertedNew := m.stat.insertedNew + 1 }
            let m₁ : State κ δ τ := ⟨m.bound, m.timeout, container, kept ++ [⟨m.nextNode, key, now⟩],
              sizeAdd (total (BoundedMap.without out m.container) % 2 ^ 64) (policy key data), stat, m.nextNode + 1⟩
            refine ⟨m₁, some (some (key, data), true), out, kept, ?_,
              ⟨?_, fun n hn => ?_, ?_, fun e he => ?_⟩, hevicts, hlength, .inserted _ rfl rfl⟩
            · simp only [bind, Except.bind, if_true, hnone]
              rfl
            · change Linked container _ (total container)
              rwa [htotal]
            · rcases List.mem_append.mp hn with hn | hn
              · exact Nat.lt_succ_of_lt (hfresh n hn)
              · cases List.mem_singleton.mp hn
                exact Nat.lt_succ_self _
            · change sizeAdd _ _ = total container % 2 ^ 64
              rw [htotal, sizeAdd_mod]
            · rcases List.mem_append.mp he with he | he
              · exact h.fits.without e he
              · cases List.mem_singleton.mp he
                exact hsize

omit [Add τ] [LT τ] [DecidableLT τ] in
theorem State.removeUpdated_result (h : m.Wraps) (hc : lookup key m.container = some item) :
    ∃ m', m.removeUpdated key item = .ok (m', false) ∧ m'.Wraps ∧ m'.container = eraseKey key m.container ∧
      m'.stat = { m.stat with removedUpdated := m.stat.removedUpdated + 1 } := by
  obtain ⟨queue, herase, hlinked, hle, hsub⟩ := h.linked.eraseNode hc
  have htotal := total_eraseKey h.linked.container_keys hc
  have hfits : item.size < 2 ^ 64 := h.fits _ (mem_of_lookup hc)
  rw [htotal, Nat.add_sub_cancel_left] at hlinked
  unfold State.removeUpdated
  rw [herase]
  refine ⟨_, rfl, ⟨hlinked, fun n hn => h.fresh n (hsub n hn), ?_, h.fits.eraseKey⟩, rfl, rfl⟩
  change sizeSub m.size item.size = total (eraseKey key m.container) % 2 ^ 64
  rw [h.size_eq, sizeSub_mod hle hfits, htotal, Nat.add_sub_cancel_left]

omit [Add τ] [LT τ] [DecidableLT τ] in
theorem Linked.replace (h : Linked c q (total c)) (hc : lookup key c = some item)
    (out : List (Ordered κ τ)) (hq : q.Perm (out ++ q')) (hout : key ∉ out.map fun n => n.key)
    (item' : Item δ) (ho : item'.order = item.order) :
    Linked (setKey key item' (BoundedMap.without out c)) q' (total (setKey key item' (BoundedMap.without out c))) ∧
      total (setKey key item' (BoundedMap.without out c)) = item'.size + total
      (BoundedMap.without out (eraseKey key c)) := by
  have hlinked := h.without hq
  have hlookup : lookup key (BoundedMap.without out c) = some item := by rw [lookup_without_of_not_mem hout, hc]
  have htotal := total_setKey item' hlinked.container_keys hlookup
  have hold := total_eraseKey hlinked.container_keys hlookup
  obtain ⟨hset, -⟩ := hlinked.set item' hlookup ho
  refine ⟨?_, by rw [htotal, eraseKey_without]⟩
  rw [htotal, Nat.add_comm]
  rwa [hold, Nat.add_sub_cancel_left] at hset

theorem SizesFit.setKey {item' : Item δ} (h : SizesFit c) (hsize : item'.size < 2 ^ 64) : SizesFit (setKey key item' c) := by
  intro e he
  obtain ⟨x, hx, rfl⟩ := List.mem_map.mp he
  split
  · exact hsize
  · exact h x hx

/-- 項目そのものの新しい大きさ `size` が上限を超えるか、並び `queue` の始めの古い項目を除いても、上限に収まらない。 -/
def Unfit (m : State κ δ τ) (key : κ) (size : Nat) (now : τ) (queue : List (Ordered κ τ)) : Prop :=
  m.bound < size ∨
    m.bound < size + total (BoundedMap.without (queue.takeWhile fun n => ¬ n.lastUsed + m.timeout >
    now) (eraseKey key m.container))

inductive Updated (m : State κ δ τ) (key : κ) (size : Nat) (now : τ) (out : List (Ordered κ τ))
    (m' : State κ δ τ) : Bool → Prop
  | updated (item : Item δ) (container : m'.container = Lib.setKey key item (BoundedMap.without out m.container))
      (stat : m'.stat = { m.stat with removedOutdated := m.stat.removedOutdated + .ofNat out.length
      }) : Updated m key size now out m' true
  | removed (none : out = []) (container : m'.container = eraseKey key m.container)
      (stat : m'.stat = { m.stat with removedUpdated := m.stat.removedUpdated + 1 })
      (unfit : Unfit m key size now m.queue) : Updated m key size now out m' false

theorem State.updateInner_result (h : m.Wraps) (hc : lookup key m.container = some item) (now : τ)
    (policy : κ → δ → Nat) (hsize : policy key item.data < 2 ^ 64) :
    ∃ m' b out kept, m.updateInner key item now policy = .ok (m', b) ∧ m'.Wraps ∧ Evicts m key
      (policy key item.data) now m.queue out kept ∧
      out.length + (BoundedMap.without out m.container).length = m.container.length ∧
      Updated m key (policy key item.data) now out m' b := by
  have htotal := total_eraseKey h.linked.container_keys hc
  have hfits : item.size < 2 ^ 64 := h.fits _ (mem_of_lookup hc)
  have hnew : sizeSub (sizeAdd m.size (policy key item.data)) item.size =
      (policy key item.data + total (eraseKey key m.container)) % 2 ^ 64 := by
    rw [h.size_eq, sizeAdd_mod, sizeSub_mod (by omega) hfits, htotal, Nat.add_assoc, Nat.add_sub_cancel_left, Nat.add_comm]
  obtain ⟨removed, hremove, hwraps, hcontainer, hstat⟩ := State.removeUpdated_result h hc
  have hnone : ([] : List (Ordered κ τ)).length + (BoundedMap.without ([] : List (Ordered κ τ))
      m.container).length = m.container.length := by
    simp
  unfold State.updateInner
  simp only [hnew]
  split
  · obtain ⟨hlinked, hset⟩ := h.linked.replace hc [] (List.Perm.refl _) (by simp)
      { item with size := policy key item.data } rfl
    rw [without_nil] at hlinked
    rw [without_nil, without_nil] at hset
    refine ⟨_, true, [], _, rfl, ⟨hlinked, h.fresh, ?_, h.fits.setKey hsize⟩, .none, hnone,
      .updated { item with size := policy key item.data } (by rw [without_nil]) (by simp)⟩
    exact (congrArg (· % 2 ^ 64) hset).symm
  · split
    · rename_i hbig
      exact ⟨removed, false, [], _, hremove, hwraps, .none, hnone, .removed rfl hcontainer hstat (.inl hbig)⟩
    · have hlinked₀ : Linked m.container ([] ++ m.queue) (total m.container) := h.linked
      obtain ⟨old, kept, hq, hscans⟩ := scanLoop_result hlinked₀ h.fits hc m.bound (policy key item.data) m.timeout now
      rw [without_nil] at hscans
      have hown : ∀ n ∈ old, n.node = item.order ↔ n.key = key :=
        fun n hn => h.linked.node_iff hc (hq ▸ List.mem_append_left _ hn)
      have hfilter : old.filter (fun n => n.node ≠ item.order) = old.filter fun n => n.key ≠ key :=
        List.filter_congr fun n hn => by simp only [ne_eq, hown n hn]
      rcases hscans.answer with ⟨hscan, hfit⟩ | ⟨hscan, hneed, hnew'⟩
      · rw [hscan]
        have hperm : m.queue.Perm (old.filter (fun n => n.key ≠ key) ++
            (old.filter (fun n => n.node = item.order) ++ kept)) := by
          rw [hq, ← hfilter, ← List.append_assoc]
          refine List.Perm.append_right _ ?_
          refine (List.filter_append_perm (fun n : Ordered κ τ => decide (n.node = item.order)) old).symm.trans ?_
          refine List.perm_append_comm.trans (List.Perm.of_eq ?_)
          simp
        have hout : key ∉ (old.filter fun n => n.key ≠ key).map fun n => n.key := by
          intro hmem
          obtain ⟨n, hn, heq⟩ := List.mem_map.mp hmem
          simpa [heq] using (List.mem_filter.mp hn).2
        obtain ⟨hlinked, hset⟩ := h.linked.replace hc _ hperm hout { item with size := policy key item.data } rfl
        rw [without_filter] at hset
        have hnodes : ((old ++ kept).map fun n => n.node).Nodup := hq ▸ h.linked.nodes
        have hloop := removeLoop_result hnodes item.order m.container m.stat.removedOutdated
        rw [hfilter, ← hq] at hloop
        simp only [bind, Except.bind, List.nil_append, hloop]
        refine ⟨_, true, old.filter (fun n => n.key ≠ key), kept.filter (fun n => n.key ≠ key), rfl,
          ⟨hlinked, fun n hn => ?_, ?_, ?_⟩,
          ⟨by rw [hq, List.filter_append], fun n hn => hscans.expired n (List.mem_filter.mp hn).1,
          ?_⟩, ?_, .updated _ rfl rfl⟩
        · exact h.fresh n (hperm.mem_iff.mpr (List.mem_append_right _ hn))
        · exact (congrArg (· % 2 ^ 64) hset).symm
        · exact h.fits.without.setKey hsize
        · intro before n post heq
          obtain ⟨first, second, rfl, hfirst, hsecond⟩ := List.filter_eq_append_iff.mp heq
          obtain ⟨skipped, rest, rfl, hskipped, -, -⟩ := List.filter_eq_cons_iff.mp hsecond
          have hneed := hscans.needed (first ++ skipped) n rest (by simp)
          have hbefore : (first ++ skipped).filter (fun n => n.key ≠ key) = before := by
            have hempty : skipped.filter (fun n => n.key ≠ key) = [] := List.filter_eq_nil_iff.mpr hskipped
            rw [List.filter_append, hfirst, hempty, List.append_nil]
          rwa [List.nil_append, ← without_filter, hbefore] at hneed
        · have hlinked' := h.linked.without hperm
          rw [hlinked'.length_eq, h.linked.length_eq, hperm.length_eq]
          exact List.length_append.symm
      · rw [hscan]
        refine ⟨removed, false, [], _, hremove, hwraps, .none, hnone, .removed rfl hcontainer hstat (.inr ?_)⟩
        have htake : m.queue.takeWhile (fun n => ¬ n.lastUsed + m.timeout > now) = old := by
          have hall : ∀ n ∈ old, decide (¬ n.lastUsed + m.timeout > now) = true :=
            fun n hn => decide_eq_true (hscans.expired n hn)
          rw [hq, List.takeWhile_append_of_pos hall]
          cases kept with
          | nil => simp
          | cons n kept =>
              have hstop := hnew' n rfl
              rw [List.takeWhile_cons_of_neg (by simpa [Expired] using hstop), List.append_nil]
        rwa [htake]

theorem State.insert_result (h : m.Wraps) (key : κ) (data : δ) (now : τ) (policy : κ → δ → Nat)
    (fails : Bool) (hsize : policy key data < 2 ^ 64) :
    ∃ m' r, m.insert key data now policy fails = .ok (m', r) ∧ m'.Wraps ∧
      ((∃ item, lookup key m.container = some item ∧ m'.container = m.container ∧
          m'.stat = { m.stat with insertExisting := m.stat.insertExisting + 1 }) ∨
        (lookup key m.container = none ∧ ∃ out kept, Evicts m key (policy key data) now m.queue out kept ∧
          out.length + (BoundedMap.without out m.container).length = m.container.length ∧ Inserted m key fails out m')) := by
  unfold State.insert
  rw [State.findInner_result h]
  cases hc : lookup key m.container with
  | some item =>
      have hwraps := h.recency key now
      exact ⟨_, _, rfl, ⟨hwraps.linked, hwraps.fresh, hwraps.size_eq, hwraps.fits⟩, .inl ⟨item, rfl, rfl, rfl⟩⟩
  | none =>
      obtain ⟨m', r, out, kept, hinsert, hwraps, hevicts, hlength, hinserted⟩ :=
        State.insertInner_result h hc data policy hsize fails now
      rw [h.recency_of_none hc]
      exact ⟨m', r, hinsert, hwraps, .inr ⟨rfl, out, kept, hevicts, hlength, hinserted⟩⟩

/-- `insert_or_update` の、値を取り替えた状態。 -/
def State.assign (key : κ) (item : Item δ) (data : δ) (now : τ) (m : State κ δ τ) : State κ δ τ :=
  { m with queue := BoundedMap.recency key now m.queue, container := Lib.setKey key { item with data := data } m.container }

omit [Add τ] [LT τ] [DecidableLT τ] in
theorem State.Wraps.assign (h : m.Wraps) (hc : lookup key m.container = some item)
    (data : δ) (now : τ) : (m.assign key item data now).Wraps := by
  have hrecency := h.recency key now
  obtain ⟨hlinked, htotal⟩ := hrecency.linked.replace hc [] (List.Perm.refl _) (by simp) { item with data := data } rfl
  rw [without_nil] at hlinked
  rw [without_nil, without_nil] at htotal
  have hsame : total (m.assign key item data now).container = total m.container :=
    htotal.trans (total_eraseKey h.linked.container_keys hc).symm
  refine ⟨hlinked, hrecency.fresh, ?_, ?_⟩
  · rw [hsame]
    exact h.size_eq
  · exact h.fits.setKey (h.fits _ (mem_of_lookup hc))

theorem State.insertOrUpdate_result (h : m.Wraps) (key : κ) (data : δ) (now : τ)
    (policy : κ → δ → Nat) (fails : Bool) (hsize : policy key data < 2 ^ 64) :
    ∃ m', m.insertOrUpdate key data now policy fails = .ok m' ∧ m'.Wraps ∧
      ((∃ item m₂ replaced out kept, lookup key m.container = some item ∧
          Evicts (m.assign key item data now) key (policy key data) now (BoundedMap.recency key now m.queue) out kept ∧
          out.length + (BoundedMap.without out (m.assign key item data now).container).length =
          (m.assign key item data now).container.length ∧
          Updated (m.assign key item data now) key (policy key data) now out m₂ replaced ∧
          m' = if replaced then { m₂ with stat := { m₂.stat with replaced := m₂.stat.replaced + 1 } } else m₂) ∨
        (lookup key m.container = none ∧ ∃ out kept, Evicts m key (policy key data) now m.queue out kept ∧
          out.length + (BoundedMap.without out m.container).length = m.container.length ∧ Inserted m key fails out m')) := by
  unfold State.insertOrUpdate
  rw [State.findInner_result h]
  cases hc : lookup key m.container with
  | some item =>
      have hlookup : lookup key (m.assign key item data now).container = some { item with data := data } := lookup_setKey hc
      obtain ⟨m₂, replaced, out, kept, hupdate, hwraps, hevicts, hlength, hupdated⟩ :=
        State.updateInner_result (h.assign hc data now) hlookup now policy hsize
      refine ⟨_, ?_, ?_, .inl ⟨item, m₂, replaced, out, kept, rfl, hevicts, hlength, hupdated, rfl⟩⟩
      · simp only [State.assign] at hupdate
        simp only [bind, Except.bind, hupdate]
        rfl
      · cases replaced with
        | false => exact hwraps
        | true => exact ⟨hwraps.linked, hwraps.fresh, hwraps.size_eq, hwraps.fits⟩
  | none =>
      obtain ⟨m', r, out, kept, hinsert, hwraps, hevicts, hlength, hinserted⟩ :=
        State.insertInner_result h hc data policy hsize fails now
      rw [h.recency_of_none hc]
      refine ⟨m', ?_, hwraps, .inr ⟨rfl, out, kept, hevicts, hlength, hinserted⟩⟩
      simp only [bind, Except.bind, hinsert]
      rfl

theorem State.update_result (h : m.Wraps) (key : κ) (now : τ) (policy : κ → δ → Nat)
    (hsize : ∀ key data, policy key data < 2 ^ 64) :
    ∃ m', m.update key now policy = .ok m' ∧ m'.Wraps ∧
      ((lookup key m.container = none ∧ m' = m) ∨
        ∃ item replaced out kept, lookup key m.container = some item ∧
        Evicts m key (policy key item.data) now m.queue out kept ∧
          out.length + (BoundedMap.without out m.container).length = m.container.length ∧
          Updated m key (policy key item.data) now out m' replaced) := by
  unfold State.update
  cases hc : lookup key m.container with
  | none => exact ⟨m, rfl, h, .inl ⟨rfl, rfl⟩⟩
  | some item =>
      obtain ⟨m', replaced, out, kept, hupdate, hwraps, hevicts, hlength, hupdated⟩ :=
        State.updateInner_result h hc now policy (hsize _ _)
      refine ⟨m', ?_, hwraps, .inr ⟨item, replaced, out, kept, rfl, hevicts, hlength, hupdated⟩⟩
      simp only [bind, Except.bind, hupdate]
      rfl

omit [Add τ] [LT τ] [DecidableLT τ] in
theorem State.erase_result (h : m.Wraps) (key : κ) :
    ∃ m', m.erase key = .ok m' ∧ m'.Wraps ∧ m'.stat = m.stat ∧
      ((lookup key m.container = none ∧ m' = m) ∨
        ∃ item, lookup key m.container = some item ∧ m'.container = eraseKey key m.container) := by
  unfold State.erase
  cases hc : lookup key m.container with
  | none => exact ⟨m, rfl, h, rfl, .inl ⟨rfl, rfl⟩⟩
  | some item =>
      obtain ⟨m', hremove, hwraps, hcontainer, -⟩ := State.removeUpdated_result h hc
      unfold State.removeUpdated at hremove
      obtain ⟨queue, herase, -, -, -⟩ := h.linked.eraseNode hc
      rw [herase] at hremove
      cases hremove
      dsimp only
      rw [herase]
      exact ⟨_, rfl, ⟨hwraps.linked, hwraps.fresh, hwraps.size_eq, hwraps.fits⟩, rfl, .inr ⟨item, rfl, rfl⟩⟩

end UnixCommons.Generics.BoundedMap
