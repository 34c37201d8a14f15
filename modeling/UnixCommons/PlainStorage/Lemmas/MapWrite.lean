import UnixCommons.PlainStorage.Lemmas.Map

/-! # 書き込みと削除の補題 -/

namespace UnixCommons.PlainStorage

open Lib

/-! ## `Map::insert` の補題

新しいキーは、空きの先頭のブロックをデータの鎖とする。そのブロックの `size` は、前に使われたときのまま残る。
-/

section

variable {κ : Type} [LinearOrder κ] {acc : KeyAccessor κ} {g : Geometry} {m m' : Map κ}
  {free free₁ free' leaked : List Nat} {kbs kbs' : List (Nat × List (Record κ))}
  {dc : κ → List Nat} {k : κ} {ka : KeyAddition} {i b : Nat} {a' : Allocator} {s' : Index}

omit [LinearOrder κ] in
theorem IndexInv.allocated {s : Index} (h : IndexInv acc g s free kbs) (ha : Allocated g s.allocator free b a' free') :
    IndexInv acc g (s.setAllocator a') free' kbs ∧ b ∉ kbs.map Prod.fst := by
  have hkeys : ∀ p ∈ kbs, p.1 ∉ b :: free' := fun p hp => ha.taken.not_mem (h.keys_free p hp) (h.keys.lt p hp)
  have hd := ha.taken.not_mem h.descr_free h.descr_lt
  refine ⟨h.setAllocator ha.ready ha.description (fun p hp => ha.frame p.1 (h.keys_ne p hp).1 (hkeys p hp))
    ha.taken.lt.2 (fun p hp hm => hkeys p hp (by simp [hm])) (fun hm => hd (by simp [hm])), fun hm => ?_⟩
  obtain ⟨p, hp, rfl⟩ := List.mem_map.mp hm
  exact hkeys p hp (by simp)

omit [LinearOrder κ] in
theorem Inserted.block_eq {s : Index} {x : Call κ} (h : Inserted acc g s free kbs x s' free' kbs') (hi : i < s.file.count)
    (hd : i ≠ s.allocator.description) (hd' : i ≠ s.descrBlock) (hk : i ∉ kbs.map Prod.fst)
    (hf : i ∉ free) : s'.file.block i = s.file.block i ∧ i ∉ kbs'.map Prod.fst ∧ i ∉ free' := by
  have hout : i ∉ kbs'.map Prod.fst ∧ i ∉ free' := by
    rcases h.owned with ⟨rfl, hkeys, -⟩ | ⟨nb, ht, hkeys⟩
    · rw [hkeys]
      exact ⟨hk, hf⟩
    · have := ht.not_mem hf hi
      simp only [List.mem_cons, not_or] at this
      rw [hkeys]
      exact ⟨by simp [this.1, hk], this.2⟩
  exact ⟨h.keeps.frame i hd hd' hout.1 hout.2, hout⟩

structure MapInserted (acc : KeyAccessor κ) (g : Geometry) (m : Map κ) (dc : κ → List Nat) (leaked : List Nat) (k : κ)
    (m' : Map κ) (b : Nat) (ka : KeyAddition) (free' : List Nat) (kbs' : List (Nat × List (Record κ))) : Prop where
  inv : MapInv acc g m' free' kbs' (Function.update dc k [b]) leaked
  container : m'.container = m.container.insert k (⟨b, 0, m.session⟩, ka)
  session : m'.session = m.session
  frame : ∀ i ∈ dataBlocks dc m.container, m'.file.block i = m.file.block i
  size : (m'.file.block b).size = (m.file.block b).size
  source : b = m.index.allocator.firstFreeBlock ∨ m.file.count ≤ b

theorem MapInv.inserted (h : MapInv acc g m free kbs dc leaked) (hnew : ∀ e ∈ m.container, e.1 ≠ k)
    (ha : Allocated g m.index.allocator free b a' free₁)
    (hi : Inserted acc g (m.index.setAllocator a') free₁ kbs ⟨k, b, ka⟩ s' free' kbs') :
    MapInserted acc g m dc leaked k
      ⟨s', m.container.insert k (⟨b, 0, m.session⟩, ka), m.session⟩ b ka free' kbs' := by
  obtain ⟨hinv₁, hbk⟩ := h.index.allocated ha
  have hb0 := ha.ne_zero h.index.ready
  have hdesc₁ : a'.description = 1 := ha.description.trans h.description
  have hbd : b ∉ [1, 2] := by
    have h1 := ha.taken.not_mem h.index.ready.description_free h.index.ready.description_lt
    have h2 := ha.taken.not_mem h.index.descr_free h.index.descr_lt
    rw [h.description] at h1
    rw [h.descrBlock] at h2
    simp only [List.mem_cons, not_or] at h1 h2
    simp [Ne.symm h1.1, Ne.symm h2.1]
  simp only [List.mem_cons, not_or, List.not_mem_nil, not_false_eq_true, and_true] at hbd
  -- 新しいデータのブロックは、索引の挿入では変わらない。
  have hblk := hi.block_eq (i := b) ha.taken.lt.1 (fun e => hbd.1 (e.trans hdesc₁))
    (fun e => hbd.2 (e.trans h.descrBlock)) hbk (ha.taken.nodup h.index.ready.chain.nodup)
  have hfr : ∀ i, i < m.file.count → i ≠ 1 → i ≠ 2 → i ∉ kbs.map Prod.fst → i ∉ free →
      s'.file.block i = m.file.block i := by
    intro i hic h1 h2 hk hf
    have hnot := ha.taken.not_mem hf hic
    have := (hi.block_eq (Nat.lt_of_lt_of_le hic ha.taken.lt.2)
      (fun e => h1 (e.trans hdesc₁)) (fun e => h2 (e.trans h.descrBlock)) hk (fun hm => hnot (by simp [hm]))).1
    rw [this]
    exact ha.frame i (by rw [h.description]; exact h1) hnot
  have hdata : ∀ i ∈ dataBlocks dc m.container, s'.file.block i = m.file.block i := by
    intro i hid
    have hd := h.accounted.of_data hid
    exact hfr i (h.accounted.lt (Or.inl hid)) hd.2.1 hd.2.2.1 hd.2.2.2.1 hd.2.2.2.2.2
  have hzero : s'.file.block 0 = m.file.block 0 := by
    refine hfr 0 h.index.ready.pos (by simp) (by simp) (fun hm => h.index.keys.chain.ne_zero 0 hm rfl)
      (fun hm => h.index.ready.chain.ne_zero 0 hm rfl)
  have hperm := Container.insert_perm (v := (⟨b, 0, m.session⟩, ka)) hnew
  have hbdata : (dataBlocks (Function.update dc k [b])
      (m.container.insert k (⟨b, 0, m.session⟩, ka))).Perm (b :: dataBlocks dc m.container) := by
    refine (dataBlocks_perm (hperm.map Prod.fst)).trans ?_
    have : dataBlocks (Function.update dc k [b]) m.container = dataBlocks dc m.container :=
      dataBlocks_congr fun e he => Function.update_of_ne (hnew e he) _ _
    simp only [dataBlocks, List.map_cons, List.flatMap_cons, Function.update_self] at this ⊢
    rw [this]
    exact List.Perm.refl _
  obtain ⟨X, Y, hX, hY⟩ := hi.calls
  refine ⟨⟨hi.inv, ?_, hi.keeps.description.trans hdesc₁, hi.keeps.descrBlock.trans h.descrBlock,
    ?_, h.sorted.insert, ?_, ?_, ?_, ?_⟩, rfl, rfl, hdata, ?_, ?_⟩
  · have hd := ha.taken.not_mem h.index.descr_free h.index.descr_lt
    exact hi.stored (h.stored.setAllocator (ha.frame _ h.index.descr_ne hd))
  · exact h.header.congr hzero
  · rw [hY]
    have hc := h.calls
    rw [hX] at hc
    exact List.perm_middle.trans ((hc.cons _).trans (hperm.map Entry.call).symm)
  · intro e he
    rcases List.mem_cons.mp (hperm.mem_iff.mp he) with rfl | he
    · rw [Function.update_self]
      refine ⟨rfl, hb0, ?_⟩
      show (s'.file.block b).nextIndex = 0
      rw [hblk.1]
      exact congrArg Block.nextIndex ha.block
    · rw [Function.update_of_ne (hnew e he)]
      exact (h.chains e he).congr fun i hi => congrArg Block.nextIndex (hdata i (mem_dataBlocks he hi))
  · intro e he
    rcases List.mem_cons.mp (hperm.mem_iff.mp he) with rfl | he
    · exact hb0
    · exact h.nonempty e he
  · have ht := h.accounted.take ha.taken
    show Accounted s'.file.count _ _ _ _
    rcases hi.owned with ⟨rfl, hkeys, hc⟩ | ⟨nb, ht', hkeys⟩
    · rw [hc, hkeys]
      refine ht.perm ?_
      refine (((hbdata.append_left _).append_right _).append_right _).trans ?_
      simp only [List.append_assoc]
      refine List.Perm.append_left _ ?_
      simpa using (@List.perm_middle _ b (dataBlocks dc m.container) (leaked ++ free')).symm
    · rw [hkeys]
      refine (ht.take ht').perm ?_
      refine (((hbdata.append_left _).append_right _).append_right _).trans ?_
      refine List.perm_iff_count.mpr fun j => ?_
      simp only [List.count_append, List.count_cons]
      omega
  · rw [show Map.file ⟨s', _, _⟩ = s'.file from rfl, hblk.1]
    exact ha.size b
  · rcases ha.taken with ⟨hf, -⟩ | ⟨-, hr, -⟩
    · have := h.index.ready.chain
      rw [hf] at this
      exact Or.inl this.head.symm
    · have : b ∈ List.range' m.index.allocator.file.count 11 := hr ▸ List.mem_cons_self
      exact Or.inr (List.mem_range'_1.mp this).1

theorem insert_new_spec (h : MapInv acc g m free kbs dc leaked)
    (hfit : acc.size k + keyHeaderSize ≤ g.availableSize) (hnew : m.container.find k = none) :
    Spec (Map.insert acc g k) m
      (fun _ m' => ∃ b ka free' kbs', MapInserted acc g m dc leaked k m' b ka free' kbs')
      (fun e _ => e.isResize) := by
  unfold Map.insert
  refine Spec.bind (Spec.get ?_)
  rw [hnew]
  refine Spec.bind (Spec.zoom (Spec.zoom ((allocate_spec h.index.ready).mono ?_ (fun _ _ h => h.1))))
  rintro b a' ⟨free₁, ha⟩
  have hb0 := ha.ne_zero h.index.ready
  have hb32 : b < 2 ^ 32 := by
    have h1 := ha.taken.lt.1
    have h2 := ha.ready.count_le
    have h3 := g.index_fits
    omega
  refine Spec.bind (Spec.get (Spec.bind (Spec.zoom (Spec.zoom ?_))))
  unfold PlainWriter.create
  refine Spec.ite (fun _ => Spec.pure ?_) (fun h0 => absurd hb0 h0)
  refine Spec.bind (Spec.zoom ((insert_spec (h.index.allocated ha).1 k hb32).mono ?_ ?_))
  · rintro ka s' ⟨free', kbs', hi⟩
    exact Spec.modify ⟨b, ka, free', kbs', h.inserted (Container.find_eq_none.mp hnew) ha hi⟩
  · rintro e s' (⟨-, hlt, -⟩ | ⟨he, -⟩)
    · exact absurd hlt (Nat.not_lt.mpr hfit)
    · exact he

theorem insert_old_spec {v : PlainWriter × KeyAddition} (hold : m.container.find k = some v) :
    Spec (Map.insert acc g k) m (fun _ m' => m' = m) (fun _ _ => False) := by
  unfold Map.insert
  refine Spec.bind (Spec.get ?_)
  rw [hold]
  exact Spec.pure rfl

end

section

variable {κ : Type} [LinearOrder κ] {acc : KeyAccessor κ} {g : Geometry} {m m' : Map κ}
  {free free' leaked c' : List Nat} {kbs kbs' : List (Nat × List (Record κ))} {dc : κ → List Nat} {k : κ}
  {ka : KeyAddition} {i : Nat} {a' : Allocator} {s' : Index} {w w' : PlainWriter} {buf : Bytes}

/-! ## 書き込み -/

structure MapWritten (acc : KeyAccessor κ) (g : Geometry) (m : Map κ)
    (kbs : List (Nat × List (Record κ))) (dc : κ → List Nat) (leaked : List Nat) (k : κ)
    (w : PlainWriter) (buf : Bytes) (m' : Map κ) (free' c' : List Nat) : Prop where
  inv : MapInv acc g m' free' kbs (Function.update dc k c') leaked
  container : m'.container = m.container.setWriter k { w with dataSize := buf.length }
  session : m'.session = m.session
  bytes : c'.flatMap m'.file.blockBytes = buf
  frame : ∀ e ∈ m.container, e.1 ≠ k → ∀ i ∈ dc e.1, m'.file.block i = m.file.block i

theorem MapInv.written (h : MapInv acc g m free kbs dc leaked) (he : (k, w, ka) ∈ m.container)
    (hheld : Held g a' free' w.firstBlockIndex c')
    (heff : Effect m.index.allocator (dc k ++ free) a' (c' ++ free'))
    (hbytes : c'.flatMap a'.file.blockBytes = buf) :
    MapWritten acc g m kbs dc leaked k w buf
      (m.setWriting k ⟨a', { w with dataSize := buf.length }⟩) free' c' := by
  have hfr : ∀ i, i < m.file.count → i ≠ 1 → i ∉ dc k → i ∉ free → a'.file.block i = m.file.block i := by
    intro i hic h1 hk hf
    exact heff.frame i hic (by rw [h.description]; exact h1) (by simp [hk, hf])
  have hnot : ∀ i, i < m.file.count → i ∉ dc k → i ∉ free → i ∉ free' := fun i hic hk hf hm =>
    heff.not_mem hic (by simp [hk, hf]) (List.mem_append_right _ hm)
  have hdk : ∀ i ∈ dc k, i ≠ 0 ∧ i ≠ 1 ∧ i ≠ 2 ∧ i ∉ kbs.map Prod.fst ∧ i ∉ leaked ∧ i ∉ free := fun i hi =>
    h.accounted.of_data (mem_dataBlocks he hi)
  have hkeys : ∀ p ∈ kbs, p.1 ∉ dc k := fun p hp hm => (hdk p.1 hm).2.2.2.1 (List.mem_map_of_mem hp)
  have hdescr : m.index.descrBlock ∉ dc k := fun hm => (hdk _ hm).2.2.1 h.descrBlock
  have hother : ∀ e ∈ m.container, e.1 ≠ k → ∀ i ∈ dc e.1, a'.file.block i = m.file.block i := by
    intro e hee hne i hi
    have hd := h.accounted.of_data (mem_dataBlocks hee hi)
    exact hfr i (h.accounted.lt (Or.inl (mem_dataBlocks hee hi))) hd.2.1 (h.disjoint he hee hne hi) hd.2.2.2.2.2
  have hcount : (dataBlocks (Function.update dc k c') (m.container.setWriter k { w with dataSize := buf.length })).Perm
      (c' ++ dataBlocks dc (m.container.erase k)) := by
    have h1 : dataBlocks (Function.update dc k c') (m.container.setWriter k { w with dataSize := buf.length }) =
        dataBlocks (Function.update dc k c') m.container := by
      simp only [dataBlocks, Container.setWriter_keys]
    rw [h1]
    refine (dataBlocks_split _ h.sorted he).trans ?_
    rw [Function.update_self, dataBlocks_congr fun e hee =>
      Function.update_of_ne (Container.mem_erase.mp hee).2 _ _]
  refine ⟨⟨?_, ?_, heff.description.trans h.description, h.descrBlock, ?_, h.sorted.setWriter, ?_,
    ?_, ?_, ?_⟩, rfl, rfl, hbytes, hother⟩
  · refine h.index.setAllocator hheld.ready heff.description (fun p hp => ?_) heff.count (fun p hp => ?_) ?_
    · exact hfr p.1 (h.index.keys.lt p hp) (by rw [← h.description]; exact (h.index.keys_ne p hp).1)
        (hkeys p hp) (h.index.keys_free p hp)
    · exact hnot p.1 (h.index.keys.lt p hp) (hkeys p hp) (h.index.keys_free p hp)
    · exact hnot _ h.index.descr_lt hdescr h.index.descr_free
  · exact h.stored.setAllocator (hfr _ h.index.descr_lt (by rw [h.descrBlock]; simp) hdescr h.index.descr_free)
  · refine h.header.congr (hfr 0 h.index.ready.pos (by simp) (fun hm => (hdk 0 hm).1 rfl)
      (fun hm => h.index.ready.chain.ne_zero 0 hm rfl))
  · have hmap : (m.container.setWriter k { w with dataSize := buf.length }).map Entry.call =
        m.container.map Entry.call := by
      simp only [Container.setWriter, List.map_map]
      refine List.map_congr_left fun e hee => ?_
      simp only [Function.comp_apply]
      split
      · next hek =>
        have hf := h.sorted.find he
        have hf' := h.sorted.find (k := e.1) (v := e.2) hee
        rw [hek, hf] at hf'
        simp only [Option.some.injEq] at hf'
        simp [Entry.call, ← hf']
      · rfl
    show (indexCalls acc kbs).Perm (List.map Entry.call _)
    rw [Map.setWriting, hmap]
    exact h.calls
  · intro e hee
    rcases Container.mem_setWriter hee with ⟨hek, hew, -⟩ | ⟨hne, hee⟩
    · rw [hek, Function.update_self, hew]
      exact hheld.chain
    · rw [Function.update_of_ne hne]
      exact (h.chains e hee).congr fun i hi => congrArg Block.nextIndex (hother e hee hne i hi)
  · intro e hee
    rcases Container.mem_setWriter hee with ⟨-, hew, -⟩ | ⟨-, hee⟩
    · rw [hew]
      exact h.nonempty _ he
    · exact h.nonempty e hee
  · have hacc : ([0, 1, 2] ++ kbs.map Prod.fst ++ dataBlocks dc (m.container.erase k) ++ leaked ++
        (dc k ++ free)).Perm (List.range m.index.allocator.file.count) := by
      refine List.Perm.trans ?_ h.accounted
      have hs := (dataBlocks_split dc h.sorted he)
      refine List.perm_iff_count.mpr fun j => ?_
      have := hs.count_eq j
      simp only [List.count_append] at this ⊢
      omega
    have := heff.accounted hacc
    show Accounted a'.file.count _ _ _ _
    unfold Accounted
    refine List.Perm.trans ?_ this
    refine List.perm_iff_count.mpr fun j => ?_
    have := hcount.count_eq j
    simp only [List.count_append, Map.setWriting] at this ⊢
    omega

theorem writer_spec (hf : m.container.find k = some (w, ka)) (hs : w.session = m.session) :
    Spec (Map.writer k) m (fun r m' => r = w ∧ m' = m) (fun _ _ => False) := by
  unfold Map.writer
  refine Spec.bind (Spec.get ?_)
  rw [hf]
  exact Spec.ite (fun _ => Spec.pure ⟨rfl, rfl⟩) (fun h => absurd hs h)

theorem writeFound_spec (h : MapInv acc g m free kbs dc leaked) (hg : 0 < g.availableSize)
    (hf : m.container.find k = some (w, ka)) (hs : w.session = m.session) :
    Spec (Map.writeFound g k buf) m
      (fun _ m' => ∃ free' c', MapWritten acc g m kbs dc leaked k w buf m' free' c')
      (fun e _ => e.isResize) := by
  have he := Container.mem_of_find hf
  unfold Map.writeFound
  refine Spec.bind ((writer_spec hf hs).mono ?_ (fun _ _ h => h.elim))
  rintro w _ ⟨rfl, rfl⟩
  have hheld := h.held he
  obtain ⟨rest, hrest⟩ := hheld.chain.cons_of_ne_zero (h.nonempty _ he)
  dsimp only at hheld hrest
  rw [hrest] at hheld
  refine Spec.zoom ((writeI_spec hheld hg).mono ?_ (fun _ _ h => h.1))
  rintro _ ⟨a', w'⟩ ⟨hw', c', cut, free', hheld', heff, hbytes, -⟩
  obtain rfl := hw'
  rw [← hrest] at heff
  exact ⟨cut.reverse ++ free', _, h.written he hheld' heff hbytes⟩

/-! ## 削除 -/

theorem MapInv.rewritten {c : Container κ} {leaked' : List Nat} (h : MapInv acc g m free kbs dc leaked)
    (hr : Rewritten acc g m.index free kbs s' kbs') (hc : (indexCalls acc kbs').Perm (c.map Entry.call))
    (hs : c.Sorted) (hsub : ∀ e ∈ c, e ∈ m.container)
    (hp : (dataBlocks dc c ++ leaked').Perm (dataBlocks dc m.container ++ leaked)) :
    MapInv acc g ⟨s', c, m.session⟩ free kbs' dc leaked' := by
  have hfr : ∀ i ∈ dataBlocks dc m.container, s'.file.block i = m.file.block i := fun i hi =>
    hr.frame i (h.accounted.of_data hi).2.2.2.1
  refine ⟨hr.inv, hr.stored h.index h.stored, ?_, hr.descrBlock.trans h.descrBlock, ?_, hs, hc,
    fun e he => ?_, fun e he => h.nonempty e (hsub e he), ?_⟩
  · rw [hr.allocator]
    exact h.description
  · exact h.header.congr (hr.frame 0 fun hm => h.index.keys.chain.ne_zero 0 hm rfl)
  · exact (h.chains e (hsub e he)).congr fun i hi =>
      congrArg Block.nextIndex (hfr i (mem_dataBlocks (hsub e he) hi))
  · show Accounted s'.file.count _ _ _ _
    rw [hr.count, hr.keys]
    refine h.accounted.perm ?_
    simp only [List.append_assoc]
    refine List.Perm.append_left _ ?_
    simpa using hp.append_right free

theorem erase_live_spec (h : MapInv acc g m free kbs dc leaked)
    (hf : m.container.find k = some (w, ka)) : Spec (Map.erase g k) m
      (fun _ m' => ∃ kbs', MapInv acc g m' free kbs' dc (dc k ++ leaked) ∧ m'.container = m.container.erase k ∧
        m'.session = m.session ∧ ∀ i ∈ dataBlocks dc m.container, m'.file.block i = m.file.block i)
      (fun _ _ => False) := by
  have he := Container.mem_of_find hf
  unfold Map.erase
  refine Spec.bind (Spec.get ?_)
  rw [hf]
  refine Spec.bind (Spec.zoom ((erase_spec h.index (h.mem_calls he)).mono ?_ (fun _ _ h => h)))
  rintro _ s' ⟨kbs', hr⟩
  obtain ⟨X, Y, hX, hY⟩ := hr.calls
  refine Spec.modify ⟨kbs', h.rewritten hr.toRewritten ?_ h.sorted.erase
    (fun e he => (Container.mem_erase.mp he).1) ?_, rfl, rfl, fun i hi => hr.frame i (h.accounted.of_data hi).2.2.2.1⟩
  · have h1 : (Entry.call (k, w, ka) :: (X ++ Y)).Perm (Entry.call (k, w, ka) :: (m.container.erase k).map Entry.call) := by
      refine List.perm_middle.symm.trans ?_
      rw [← hX]
      exact h.calls.trans ((h.sorted.erase_perm he).map Entry.call)
    rw [hY, List.append_nil]
    exact h1.cons_inv
  · refine List.perm_iff_count.mpr fun j => ?_
    have := (dataBlocks_split dc h.sorted he).count_eq j
    simp only [List.count_append] at this ⊢
    dsimp only [Map.setIndex] at this ⊢
    omega

omit [LinearOrder κ] in
theorem clearLoop_spec {c : Container κ} (h : IndexInv acc g m.index free kbs)
    (hc : (indexCalls acc kbs).Perm (c.map Entry.call)) :
    Spec (clearLoop g c) m
      (fun _ m' => ∃ kbs', Rewritten acc g m.index free kbs m'.index kbs' ∧ indexCalls acc kbs' = [] ∧
        m'.container = m.container ∧ m'.session = m.session)
      (fun _ _ => False) := by
  induction c generalizing m kbs with
  | nil => exact Spec.pure ⟨kbs, Rewritten.refl h, hc.eq_nil, rfl, rfl⟩
  | cons e c ih =>
      unfold clearLoop
      have hx : e.call ∈ indexCalls acc kbs := hc.mem_iff.mpr (by simp)
      refine Spec.bind (Spec.zoom ((erase_spec h hx).mono ?_ (fun _ _ h => h)))
      rintro _ s' ⟨kbs', hr⟩
      obtain ⟨X, Y, hX, hY⟩ := hr.calls
      have hc' : (indexCalls acc kbs').Perm (c.map Entry.call) := by
        rw [hX] at hc
        rw [hY, List.append_nil]
        exact (List.perm_middle.symm.trans hc).cons_inv
      refine (ih (m := m.setIndex s') hr.inv hc').mono ?_ (fun _ _ h => h)
      rintro _ m' ⟨kbs'', hr', hnil, hcont, hses⟩
      exact ⟨kbs'', hr.toRewritten.trans hr', hnil, hcont, hses⟩

theorem clear_spec (h : MapInv acc g m free kbs dc leaked) :
    Spec (Map.clear g) m
      (fun _ m' => ∃ kbs', MapInv acc g m' free kbs' dc (dataBlocks dc m.container ++ leaked) ∧
      m'.container = []) (fun _ _ => False) := by
  unfold Map.clear
  refine Spec.bind (Spec.get (Spec.bind ((clearLoop_spec h.index h.calls).mono ?_ (fun _ _ h => h))))
  rintro _ m' ⟨kbs', hr, hnil, -, hses⟩
  have hi := h.rewritten hr (c := []) (by simp [hnil]) List.Pairwise.nil (by simp) (List.Perm.refl _)
  rw [← hses] at hi
  exact Spec.modify ⟨kbs', hi, rfl⟩

end

end UnixCommons.PlainStorage
