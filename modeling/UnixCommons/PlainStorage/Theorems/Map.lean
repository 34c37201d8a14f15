import Mathlib.Order.Fin.Basic
import UnixCommons.PlainStorage.Lemmas.MapContent
import UnixCommons.PlainStorage.Theorems.SyncIndex

/-!
# `Map` の操作の列

新しいファイルから始めた操作の列で着く状態 `m` と、キーからバイトの並びへの抽象の写像 `σ` を並べて進める。
-/

namespace UnixCommons.PlainStorage

open Lib

section Runs

variable {κ : Type} [LinearOrder κ]

def MapOp.apply : MapOp κ → (κ → Option Bytes) → κ → Option Bytes
  | .insert k, σ => if σ k = none then Function.update σ k (some []) else σ
  | .write k buf, σ => Function.update σ k (some buf)
  | .erase k, σ => Function.update σ k none
  | .clear, _ => fun _ => none
  | .reload, σ => σ
  | .reopen, σ => σ

/-- 条件 `allowed` を満たす操作を続けて、状態 `m` に着く。 -/
inductive MapRun (acc : KeyAccessor κ) (g : Geometry) (allowed : MapOp κ → Map κ → Prop) :
    Map κ → (κ → Option Bytes) → Prop
  | load {m f} : (Map.load acc g [] 0).run ⟨[]⟩ = .ok m f → MapRun acc g allowed m fun _ => none
  | step {m σ op m'} : MapRun acc g allowed m σ → allowed op m → (Map.exec acc g op).run m =
      .ok .unit m' → MapRun acc g allowed m' (op.apply σ)

/-- 生きているキーは `σ` のキーであり、その `size` と `read` は `σ` のバイトの並びを与える。 -/
structure Durable (m : Map κ) (σ : κ → Option Bytes) : Prop where
  present : ∀ k, (m.container.find k).isSome ↔ (σ k).isSome
  size : ∀ k bytes, σ k = some bytes → m.size k = some bytes.length
  read : ∀ k bytes n, σ k = some bytes → bytes.length ≤ n →
    Spec (Map.read k n) m (fun r m' => r = (bytes.length, bytes) ∧ m' = m) (fun _ _ => False)

def FullyAccounted (m : Map κ) : Prop :=
  ∃ (keys free : List Nat) (dc : κ → List Nat), Chain m.file.nextOf m.index.firstKeysBlock keys ∧
    Chain m.file.nextOf m.index.allocator.firstFreeBlock free ∧
    (∀ e ∈ m.container, Chain m.file.nextOf e.2.1.firstBlockIndex (dc e.1)) ∧
    ([0, m.index.allocator.description, m.index.descrBlock] ++ keys ++ dataBlocks dc m.container ++ free).Perm
      (List.range m.file.count)

def MapOp.Valid (acc : KeyAccessor κ) (g : Geometry) : MapOp κ → Prop
  | .insert k => acc.size k + keyHeaderSize ≤ g.availableSize
  | .write k buf => acc.size k + keyHeaderSize ≤ g.availableSize ∧ buf.length < 2 ^ 32
  | .erase _ | .clear | .reload | .reopen => True

/-- 新しいキーを入れるとき、空きの先頭のブロックの `size` は零である。同じ `Map` を開き直すのは、要素のないときだけである。 -/
def MapOp.Safe (m : Map κ) : MapOp κ → Prop
  | .insert k => m.container.find k = none →
      m.index.allocator.firstFreeBlock = 0 ∨ (m.file.block m.index.allocator.firstFreeBlock).size = 0
  | .reload => m.container = []
  | .write _ _ | .erase _ | .clear | .reopen => True

/-- 新しいキーはブロックに入り、生きているキーは消されず、書き込みは今の `Map` の作った `PlainWriter` で行われる。 -/
def MapOp.Keeps (acc : KeyAccessor κ) (g : Geometry) (m : Map κ) : MapOp κ → Prop
  | .insert k => m.container.find k = none → acc.size k + keyHeaderSize ≤ g.availableSize
  | .write k buf => buf.length < 2 ^ 32 ∧
      (m.container.find k = none → acc.size k + keyHeaderSize ≤ g.availableSize) ∧
      ∀ v, m.container.find k = some v → v.1.session = m.session
  | .erase k => m.container.find k = none
  | .clear => m.container = []
  | .reload | .reopen => True

instance (acc : KeyAccessor κ) (g : Geometry) : (op : MapOp κ) → Decidable (op.Valid acc g)
  | .insert k => inferInstanceAs (Decidable (acc.size k + keyHeaderSize ≤ g.availableSize))
  | .write k buf => inferInstanceAs (Decidable (acc.size k + keyHeaderSize ≤ g.availableSize ∧ buf.length < 2 ^ 32))
  | .erase _ | .clear | .reload | .reopen => isTrue trivial

instance (m : Map κ) : (op : MapOp κ) → Decidable (op.Safe m)
  | .insert k => inferInstanceAs (Decidable (m.container.find k = none →
      m.index.allocator.firstFreeBlock = 0 ∨ (m.file.block m.index.allocator.firstFreeBlock).size = 0))
  | .reload => decidable_of_iff (m.container.isEmpty = true) List.isEmpty_iff
  | .write _ _ | .erase _ | .clear | .reopen => isTrue trivial

instance (acc : KeyAccessor κ) (g : Geometry) (m : Map κ) : (op : MapOp κ) → Decidable (op.Keeps acc g m)
  | .insert k => inferInstanceAs (Decidable (m.container.find k = none → acc.size k + keyHeaderSize ≤ g.availableSize))
  | .write k buf => inferInstanceAs (Decidable (buf.length < 2 ^ 32 ∧
      (m.container.find k = none → acc.size k + keyHeaderSize ≤ g.availableSize) ∧
      ∀ v ∈ m.container.find k, v.1.session = m.session))
  | .erase k => inferInstanceAs (Decidable (m.container.find k = none))
  | .clear => decidable_of_iff (m.container.isEmpty = true) List.isEmpty_iff
  | .reload | .reopen => isTrue trivial

def execAll (acc : KeyAccessor κ) (g : Geometry) (allowed : MapOp κ → Map κ → Prop)
    [∀ op m, Decidable (allowed op m)] : List (MapOp κ) → Map κ → Option (Map κ)
  | [], m => some m
  | op :: ops, m =>
      if allowed op m then
        match (Map.exec acc g op).run m with
        | .ok _ m' => execAll acc g allowed ops m'
        | .error _ _ => none
      else none

def runAll (acc : KeyAccessor κ) (g : Geometry) (allowed : MapOp κ → Map κ → Prop)
    [∀ op m, Decidable (allowed op m)] (ops : List (MapOp κ)) : Option (Map κ) :=
  match (Map.load acc g [] 0).run ⟨[]⟩ with
  | .ok m _ => execAll acc g allowed ops m
  | .error _ _ => none

end Runs

def byteAccessor : KeyAccessor (Fin 256) :=
  ⟨fun _ => 1, fun k => [UInt8.ofNat k], fun l => Fin.ofNat 256 (l.headD 0).toNat, fun _ => rfl, fun k => by
    apply Fin.ext
    simp⟩

variable {κ : Type} [LinearOrder κ] {acc : KeyAccessor κ} {g : Geometry} {m m' : Map κ} {free leaked : List Nat}
  {kbs : List (Nat × List (Record κ))} {dc : κ → List Nat} {k : κ} {σ : κ → Option Bytes}
  {op : MapOp κ} {v : PlainWriter × KeyAddition} {buf : Bytes}

/-! ## 一つの操作 -/

/-- 新しいキーを取り、すぐに書く。 -/
theorem write_new_spec (h : MapInv acc g m free kbs dc leaked)
    (hfit : acc.size k + keyHeaderSize ≤ g.availableSize) (hnew : m.container.find k = none) :
    Spec (Map.write acc g k buf) m
      (fun _ m' => ∃ b ka free₁ kbs' m₁ free' c', MapInserted acc g m dc leaked k m₁ b ka free₁ kbs' ∧
        MapWritten acc g m₁ kbs' (Function.update dc k [b]) leaked k ⟨b, 0, m.session⟩ buf m' free' c')
      (fun e _ => e.isResize) := by
  unfold Map.write
  refine Spec.bind ((insert_new_spec h hfit hnew).mono ?_ (fun _ _ h => h))
  rintro _ m₁ ⟨b, ka, free₁, kbs', hi⟩
  have hpos : 0 < g.availableSize := by
    have : 0 < keyHeaderSize := by decide
    omega
  refine (writeFound_spec hi.inv hpos (hi.inv.sorted.find (hi.mem hnew)) hi.session.symm).mono ?_ (fun _ _ h => h)
  rintro _ m' ⟨free', c', hw⟩
  exact ⟨b, ka, free₁, kbs', m₁, free', c', hi, hw⟩

theorem write_old_spec (h : MapInv acc g m free kbs dc leaked) (hf : m.container.find k = some v)
    (hs : v.1.session = m.session) :
    Spec (Map.write acc g k buf) m
      (fun _ m' => ∃ free' c', MapWritten acc g m kbs dc leaked k v.1 buf m' free' c')
      (fun e _ => e.isResize) := by
  unfold Map.write
  refine Spec.bind ((insert_old_spec hf).mono ?_ (fun _ _ h => h.elim))
  rintro _ _ rfl
  have hfit := h.index.fits (h.mem_calls (Container.mem_of_find hf))
  have hpos : 0 < g.availableSize := by
    have : 0 < keyHeaderSize := by decide
    omega
  exact writeFound_spec h hpos hf hs

theorem erase_dead_spec (hf : m.container.find k = none) :
    Spec (Map.erase g k) m (fun _ m' => m' = m) (fun _ _ => False) := by
  unfold Map.erase
  refine Spec.bind (Spec.get ?_)
  rw [hf]
  exact Spec.pure rfl

theorem MapRun.mono {allowed allowed' : MapOp κ → Map κ → Prop} (h : MapRun acc g allowed m σ)
    (ha : ∀ op m, allowed op m → allowed' op m) : MapRun acc g allowed' m σ := by
  induction h with
  | load hr => exact .load hr
  | step _ hop hr ih => exact .step ih (ha _ _ hop) hr

theorem MapRun.execAll {allowed : MapOp κ → Map κ → Prop} [∀ op m, Decidable (allowed op m)] {ops : List (MapOp κ)}
    (h : MapRun acc g allowed m σ) (he : execAll acc g allowed ops m = some m') :
    MapRun acc g allowed m' (ops.foldl (fun σ op => op.apply σ) σ) := by
  induction ops generalizing m σ with
  | nil =>
      cases he
      exact h
  | cons op ops ih =>
      unfold PlainStorage.execAll at he
      split at he
      · split at he
        · exact ih (.step h ‹_› ‹_›) he
        · cases he
      · cases he

theorem MapRun.of_runAll {allowed : MapOp κ → Map κ → Prop} [∀ op m, Decidable (allowed op m)]
    {ops : List (MapOp κ)} (h : runAll acc g allowed ops = some m) :
    MapRun acc g allowed m (ops.foldl (fun σ op => op.apply σ) fun _ => none) := by
  unfold runAll at h
  split at h
  · exact MapRun.execAll (.load ‹_›) h
  · cases h

/-! ## 内容を保つ列 -/

def MapState (acc : KeyAccessor κ) (g : Geometry) (m : Map κ) (σ : κ → Option Bytes) : Prop :=
  ∃ free kbs dc leaked, MapInv acc g m free kbs dc leaked ∧ MapContent m dc σ

theorem MapState.insert (h : MapState acc g m σ)
    (hfit : acc.size k + keyHeaderSize ≤ g.availableSize) (hsafe : MapOp.Safe m (.insert k)) :
    Spec (Map.insert acc g k) m (fun _ m' => MapState acc g m' ((MapOp.insert k).apply σ)) (fun e _ => e.isResize) := by
  obtain ⟨free, kbs, dc, leaked, hi, hc⟩ := h
  cases hf : m.container.find k with
  | none =>
      refine (insert_new_spec hi hfit hf).mono ?_ (fun _ _ h => h)
      rintro _ m' ⟨b, ka, free', kbs', hm⟩
      simp only [MapOp.apply, if_pos (hc.none_iff.mpr hf)]
      exact ⟨free', kbs', _, leaked, hm.inv, hm.content hf (hm.size_zero hf (hsafe hf)) hc⟩
  | some v =>
      refine (insert_old_spec hf).mono ?_ (fun _ _ h => h.elim)
      rintro _ _ rfl
      have hσ : σ k ≠ none := fun hn => by simp [hc.none_iff.mp hn] at hf
      simp only [MapOp.apply, if_neg hσ]
      exact ⟨free, kbs, dc, leaked, hi, hc⟩

theorem MapState.write (h : MapState acc g m σ) (hfit : acc.size k + keyHeaderSize ≤ g.availableSize) :
    Spec (Map.write acc g k buf) m (fun _ m' => MapState acc g m' ((MapOp.write k buf).apply σ))
      (fun e _ => e.isResize) := by
  obtain ⟨free, kbs, dc, leaked, hi, hc⟩ := h
  cases hf : m.container.find k with
  | none =>
      refine (write_new_spec hi hfit hf).mono ?_ (fun _ _ h => h)
      rintro _ m' ⟨b, ka, free₁, kbs', m₁, free', c', hm, hw⟩
      refine ⟨free', kbs', _, leaked, hw.inv, hw.content hm.session.symm ((hm.present hf k).mpr (Or.inl rfl)) ?_ ?_⟩
      · intro j hj
        rw [hm.present hf, hc.present]
        simp [hj]
      · exact hm.others hc.holds fun _ _ => rfl
  | some v =>
      have hmem := Container.mem_of_find hf
      refine (write_old_spec hi hf (hc.holds _ hmem).session).mono ?_ (fun _ _ h => h)
      rintro _ m' ⟨free', c', hw⟩
      exact ⟨free', kbs, _, leaked, hw.inv, hw.content (hc.holds _ hmem).session
        (List.mem_map_of_mem hmem) (fun j _ => hc.present j) fun e he _ => hc.holds e he⟩

theorem MapState.erase (h : MapState acc g m σ) :
    Spec (Map.erase g k) m (fun _ m' => MapState acc g m' ((MapOp.erase k).apply σ)) (fun _ _ => False) := by
  obtain ⟨free, kbs, dc, leaked, hi, hc⟩ := h
  cases hf : m.container.find k with
  | none =>
      refine (erase_dead_spec hf).mono ?_ (fun _ _ h => h)
      rintro _ _ rfl
      have hσ : Function.update σ k none = σ := by
        rw [← hc.none_iff.mpr hf]
        exact Function.update_eq_self k σ
      simp only [MapOp.apply, hσ]
      exact ⟨free, kbs, dc, leaked, hi, hc⟩
  | some v =>
      refine (erase_live_spec hi hf).mono ?_ (fun _ _ h => h)
      rintro _ m' ⟨kbs', hi', hcont, hs, hfr⟩
      exact ⟨free, kbs', dc, _, hi', hc.erase hcont hs hfr⟩

theorem MapState.reopen (h : MapState acc g m σ) :
    Spec (Map.reopen acc g) m (fun _ m' => MapState acc g m' σ) (fun _ _ => False) := by
  obtain ⟨free, kbs, dc, leaked, hi, hc⟩ := h
  refine (reopen_spec hi).mono ?_ (fun _ _ h => h)
  rintro _ m' ⟨hi', -, he, hfr, hp⟩
  have hpresent : ∀ j, j ∈ m'.container.map Prod.fst ↔ (σ j).isSome := by
    intro j
    rw [← Container.isSome_find, hp, Container.isSome_find, hc.present]
  refine ⟨free, kbs, dc, leaked, hi', hpresent, fun e hem => ?_⟩
  have hkey : e.1 ∈ m.container.map Prod.fst := by
    rw [← Container.isSome_find, ← hp, Container.isSome_find]
    exact List.mem_map_of_mem hem
  obtain ⟨e₀, he₀, hek⟩ := List.mem_map.mp hkey
  have hbytes := flatMap_blockBytes_congr fun i hi => hfr i (hi'.accounted.of_data (mem_dataBlocks hem hi)).2.1
  refine ⟨?_, ?_, (he e hem).2⟩
  · rw [hbytes, ← hek]
    exact (hc.holds e₀ he₀).bytes
  · rw [hbytes]
    exact (he e hem).1

theorem MapState.exec (h : MapState acc g m σ) (hv : op.Valid acc g) (hs : op.Safe m) :
    Spec (Map.exec acc g op) m (fun _ m' => MapState acc g m' (op.apply σ)) (fun e _ => e.isResize) := by
  cases op with
  | insert k => exact h.insert hv hs
  | write k buf => exact h.write hv.1
  | erase k => exact h.erase.mono (fun _ _ h => h) (fun _ _ h => h.elim)
  | clear =>
      obtain ⟨free, kbs, dc, leaked, hi, hc⟩ := h
      refine (clear_spec hi).mono ?_ (fun _ _ h => h.elim)
      rintro _ m' ⟨kbs', hi', hcont⟩
      exact ⟨free, kbs', dc, _, hi', .empty hcont⟩
  | reload =>
      obtain ⟨free, kbs, dc, leaked, hi, hc⟩ := h
      refine (reload_spec hi).mono ?_ (fun _ _ h => h.elim)
      rintro _ m' ⟨hi', hcont⟩
      have hnil : m.container = [] := hs
      refine ⟨free, kbs, dc, leaked, hi', fun k => ?_, fun e he => ?_⟩
      · rw [hcont]
        exact hc.present k
      · rw [hcont, hnil] at he
        exact absurd he (by simp)
  | reopen => exact h.reopen.mono (fun _ _ h => h) (fun _ _ h => h.elim)

theorem MapRun.state (h : MapRun acc g (fun op m => op.Valid acc g ∧ op.Safe m) m σ) : MapState acc g m σ := by
  induction h with
  | load hr =>
      obtain ⟨hcont, -, b, free, hi⟩ := (load_new_spec acc 0).ok hr
      exact ⟨free, _, _, _, hi, .empty hcont⟩
  | step _ ha hr ih => exact (ih.exec ha.1 ha.2).ok hr

theorem MapState.durable (h : MapState acc g m σ) : Durable m σ := by
  obtain ⟨free, kbs, dc, leaked, hi, hc⟩ := h
  have hfind : ∀ k bytes, σ k = some bytes → ∃ v, m.container.find k = some v ∧
      bytes = (dc k).flatMap m.file.blockBytes ∧ EntryHolds m dc σ (k, v) := by
    intro k bytes hσ
    have hsome : (m.container.find k).isSome := by
      rw [Container.isSome_find, hc.present, hσ]
      rfl
    obtain ⟨v, hv⟩ := Option.isSome_iff_exists.mp hsome
    have he := hc.holds _ (Container.mem_of_find hv)
    have hb := he.bytes
    rw [hσ, Option.some.injEq] at hb
    exact ⟨v, hv, hb, he⟩
  refine ⟨fun k => ?_, fun k bytes hσ => ?_, fun k bytes n hσ hn => ?_⟩
  · rw [Container.isSome_find]
    exact hc.present k
  · obtain ⟨v, hv, hb, he⟩ := hfind k bytes hσ
    rw [Map.size, hv, Option.map_some, he.size, hb]
  · obtain ⟨v, hv, hb, he⟩ := hfind k bytes hσ
    have hmem := Container.mem_of_find hv
    have hheld := hi.held hmem
    unfold Map.read
    refine Spec.bind ((writer_spec hv he.session).mono ?_ (fun _ _ h => h))
    rintro _ _ ⟨rfl, rfl⟩
    have hsize := he.size
    dsimp only at hsize
    refine Spec.observe ((readI_spec hheld.chain (hi.nonempty _ hmem) hheld.lt hsize ?_).mono ?_ (fun _ _ h => h))
    · rw [hsize, ← hb]
      exact hn
    · rintro _ _ ⟨-, rfl⟩
      refine ⟨?_, rfl⟩
      rw [hsize, hb]
      rfl

/-- 丈夫な写像。新しいキーの取るブロックの `size` が零であり、要素の残る `Map` を開き直さない限り、どの操作の列の後でも、
生きているキーの `size` と `read` は最後に書いたバイトの並びを与え、次の操作は、ファイルを伸ばせないときのほかは失敗しない。 -/
theorem map_durable_run (h : MapRun acc g (fun op m => op.Valid acc g ∧ op.Safe m) m σ) :
    Durable m σ ∧ ∀ op : MapOp κ, op.Valid acc g → op.Safe m →
      Spec (Map.exec acc g op) m (fun _ m' => Durable m' (op.apply σ)) (fun e _ => e.isResize) :=
  ⟨h.state.durable, fun _ hv hs => (h.state.exec hv hs).mono (fun _ _ h => h.durable) (fun _ _ h => h)⟩

def rewriteOps : List (MapOp (Fin 256)) :=
  [.write 0 (List.replicate 14 7), .write 1 [9], .write 0 [8], .erase 1, .reopen, .write 0 (List.replicate 20 5)]

theorem map_durable_run_rewrite : ∃ (m : Map (Fin 256)) (σ : Fin 256 → Option Bytes),
    MapRun byteAccessor narrowGeometry (fun op m => op.Valid byteAccessor narrowGeometry ∧ op.Safe m) m σ ∧
    σ 0 = some (List.replicate 20 5) ∧ σ 1 = none ∧ Durable m σ := by
  obtain ⟨m, hm⟩ := Option.isSome_iff_exists.mp (show (runAll byteAccessor narrowGeometry
    (fun op m => op.Valid byteAccessor narrowGeometry ∧ op.Safe m) rewriteOps).isSome by decide +kernel)
  exact ⟨m, _, .of_runAll hm, by decide, by decide, (map_durable_run (.of_runAll hm)).1⟩

/-- 縮めて書いたときに返したブロックを取る新しいキーは、書いていない内容を持つ。 -/
theorem map_insert_reads_stale_block : ∃ (m : Map (Fin 256)) (σ : Fin 256 → Option Bytes),
    MapRun byteAccessor narrowGeometry (fun op _ => op.Valid byteAccessor narrowGeometry) m σ ∧ ¬ Durable m σ := by
  obtain ⟨m, hm, hr⟩ := (Option.any_eq_true _ _).mp (show (runAll byteAccessor narrowGeometry
    (fun op _ => op.Valid byteAccessor narrowGeometry)
    [.write 0 (List.replicate 14 7), .write 0 [7], .insert 1]).any
      (fun m => raises ((Map.read 1 0).run m) (.readFailed .bufferExhausted)) = true by decide +kernel)
  obtain ⟨m', hr⟩ := exists_of_raises hr
  exact ⟨m, _, .of_runAll hm, fun hd => (hd.read 1 [] 0 rfl (Nat.le_refl 0)).error hr⟩

/-! ## すべてのブロックの持ち主を保つ列 -/

def NoLeak (acc : KeyAccessor κ) (g : Geometry) (m : Map κ) : Prop := ∃ free kbs dc, MapInv acc g m free kbs dc []

theorem NoLeak.exec (h : NoLeak acc g m) (hk : op.Keeps acc g m) :
    Spec (Map.exec acc g op) m (fun _ m' => NoLeak acc g m') (fun e _ => e.isResize) := by
  obtain ⟨free, kbs, dc, hi⟩ := h
  cases op with
  | insert k =>
      cases hf : m.container.find k with
      | none =>
          refine (insert_new_spec hi (hk hf) hf).mono ?_ (fun _ _ h => h)
          rintro _ m' ⟨b, ka, free', kbs', hm⟩
          exact ⟨free', kbs', _, hm.inv⟩
      | some v =>
          refine (insert_old_spec hf).mono ?_ (fun _ _ h => h.elim)
          rintro _ _ rfl
          exact ⟨free, kbs, dc, hi⟩
  | write k buf =>
      cases hf : m.container.find k with
      | none =>
          refine (write_new_spec hi (hk.2.1 hf) hf).mono ?_ (fun _ _ h => h)
          rintro _ m' ⟨b, ka, free₁, kbs', m₁, free', c', -, hw⟩
          exact ⟨free', kbs', _, hw.inv⟩
      | some v =>
          refine (write_old_spec hi hf (hk.2.2 v hf)).mono ?_ (fun _ _ h => h)
          rintro _ m' ⟨free', c', hw⟩
          exact ⟨free', kbs, _, hw.inv⟩
  | erase k =>
      refine (erase_dead_spec hk).mono ?_ (fun _ _ h => h.elim)
      rintro _ _ rfl
      exact ⟨free, kbs, dc, hi⟩
  | clear =>
      have hnil : m.container = [] := hk
      refine (clear_spec hi).mono ?_ (fun _ _ h => h.elim)
      rintro _ m' ⟨kbs', hi', -⟩
      rw [hnil] at hi'
      exact ⟨free, kbs', dc, hi'⟩
  | reload =>
      refine (reload_spec hi).mono ?_ (fun _ _ h => h.elim)
      rintro _ m' ⟨hi', -⟩
      exact ⟨free, kbs, dc, hi'⟩
  | reopen =>
      refine (reopen_spec hi).mono ?_ (fun _ _ h => h.elim)
      rintro _ m' ⟨hi', -⟩
      exact ⟨free, kbs, dc, hi'⟩

theorem MapRun.noLeak (h : MapRun acc g (fun op m => op.Keeps acc g m) m σ) : NoLeak acc g m := by
  induction h with
  | load hr =>
      obtain ⟨-, -, b, free, hi⟩ := (load_new_spec acc 0).ok hr
      exact ⟨free, _, _, hi⟩
  | step _ ha hr ih => exact (ih.exec ha).ok hr

theorem NoLeak.fullyAccounted (h : NoLeak acc g m) : FullyAccounted m := by
  obtain ⟨free, kbs, dc, hi⟩ := h
  refine ⟨kbs.map Prod.fst, free, dc, hi.index.keys.chain, hi.index.ready.chain, hi.chains, ?_⟩
  rw [hi.description, hi.descrBlock]
  have := hi.accounted
  unfold Accounted at this
  rwa [List.append_nil] at this

/-- 生きているキーを消さず、新しいキーがブロックに入り、今の `Map` の `PlainWriter` で書く限り、どの操作の列の後でも、
すべてのブロックがちょうど一つの持ち主を持つ。 -/
theorem blocks_accounted_run (h : MapRun acc g (fun op m => op.Keeps acc g m) m σ) :
    FullyAccounted m ∧ ∀ op : MapOp κ, op.Keeps acc g m →
      Spec (Map.exec acc g op) m (fun _ m' => FullyAccounted m') (fun e _ => e.isResize) :=
  ⟨h.noLeak.fullyAccounted, fun _ hk => (h.noLeak.exec hk).mono (fun _ _ h => h.fullyAccounted) (fun _ _ h => h)⟩

theorem MapInv.not_fullyAccounted (h : MapInv acc g m free kbs dc leaked) (hl : leaked ≠ []) : ¬ FullyAccounted m := by
  rintro ⟨keys, free', dc', hkeys, hfree, hdata, hp⟩
  obtain rfl := hkeys.unique h.index.keys.chain
  obtain rfl := hfree.unique h.index.ready.chain
  have hdc : dataBlocks dc' m.container = dataBlocks dc m.container :=
    dataBlocks_congr fun e he => (hdata e he).unique (h.chains e he)
  have h1 := hp.length_eq
  have h2 := h.accounted.length_eq
  have h3 := List.length_pos_iff.mpr hl
  simp only [hdc, List.length_append, List.length_cons] at h1 h2
  omega

def growOps : List (MapOp (Fin 256)) :=
  [.write 0 (List.replicate 14 7), .write 1 [9], .write 0 [8], .erase 2, .reopen, .write 1 (List.replicate 20 5)]

theorem blocks_accounted_run_rewrite : ∃ (m : Map (Fin 256)) (σ : Fin 256 → Option Bytes),
    MapRun byteAccessor narrowGeometry (fun op m => op.Keeps byteAccessor narrowGeometry m) m σ ∧
    σ 0 = some [8] ∧ σ 1 = some (List.replicate 20 5) ∧ FullyAccounted m := by
  obtain ⟨m, hm⟩ := Option.isSome_iff_exists.mp (show (runAll byteAccessor narrowGeometry
    (fun op m => op.Keeps byteAccessor narrowGeometry m) growOps).isSome by decide +kernel)
  exact ⟨m, _, .of_runAll hm, by decide, by decide, (blocks_accounted_run (.of_runAll hm)).1⟩

/-- 消したキーのデータの鎖は、どこにも属さない。 -/
theorem erase_leaks_data_blocks : ∃ (m : Map (Fin 256)) (σ : Fin 256 → Option Bytes),
    MapRun byteAccessor narrowGeometry (fun op _ => op.Valid byteAccessor narrowGeometry) m σ ∧ ¬ FullyAccounted m := by
  obtain ⟨m, hm, hr⟩ := (Option.any_eq_true _ _).mp (show (runAll byteAccessor narrowGeometry
    (fun op m => op.Valid byteAccessor narrowGeometry ∧ op.Safe m) [.insert 0]).any
      (fun m => (m.container.find 0).isSome) = true by decide +kernel)
  obtain ⟨v, hv⟩ := Option.isSome_iff_exists.mp hr
  have hrun := MapRun.of_runAll hm
  obtain ⟨free, kbs, dc, leaked, hi, -⟩ := hrun.state
  obtain ⟨_, m', he, kbs', hi', -⟩ := (erase_live_spec hi hv).exists_ok
  have hmem := Container.mem_of_find hv
  obtain ⟨rest, hrest⟩ := (hi.chains _ hmem).cons_of_ne_zero (hi.nonempty _ hmem)
  have hrun' : MapRun byteAccessor narrowGeometry (fun op _ => op.Valid byteAccessor narrowGeometry)
      m' ((MapOp.erase 0).apply _) := .step (hrun.mono fun _ _ h => h.1) trivial he
  refine ⟨m', _, hrun', hi'.not_fullyAccounted ?_⟩
  dsimp only at hrest
  simp [hrest]

end UnixCommons.PlainStorage
