import UnixCommons.PlainStorage.Lemmas.Allocator
import UnixCommons.PlainStorage.Lemmas.Records

/-!
# 索引の操作の補題

索引の不変条件 `IndexInv` は、キーの鎖の各ブロックが記録の並びであることと、鎖が空きと交わらないことをいう。
-/

namespace UnixCommons.PlainStorage

open Lib

variable {κ : Type} {acc : KeyAccessor κ} {g : Geometry} {s s' : Index} {a' : Allocator}
  {free free' : List Nat} {kbs : List (Nat × List (Record κ))} {f f' : File} {k : κ} {b d n : Nat}

@[simp] theorem Index.file_setAllocator : (s.setAllocator a').file = a'.file := rfl
@[simp] theorem Index.file_setFile : (s.setFile f).file = f := rfl
@[simp] theorem Index.firstKeysBlock_setFile : (s.setFile f).firstKeysBlock = s.firstKeysBlock := rfl
@[simp] theorem Index.descrBlock_setFile : (s.setFile f).descrBlock = s.descrBlock := rfl
@[simp] theorem Index.description_setFile :
    (s.setFile f).allocator.description = s.allocator.description := rfl

/-! ## 不変条件 -/

structure KeyBlock (acc : KeyAccessor κ) (g : Geometry) (blk : Block) (recs : List (Record κ)) : Prop where
  records : Records acc blk.content 0 recs
  size : blk.size = recordsEnd acc 0 recs
  le : blk.size ≤ g.availableSize

structure KeyChain (acc : KeyAccessor κ) (g : Geometry) (f : File) (start : Nat)
    (kbs : List (Nat × List (Record κ))) : Prop where
  chain : Chain f.nextOf start (kbs.map Prod.fst)
  block : ∀ p ∈ kbs, KeyBlock acc g (f.block p.1) p.2
  lt : ∀ p ∈ kbs, p.1 < f.count

structure IndexInv (acc : KeyAccessor κ) (g : Geometry) (s : Index) (free : List Nat)
    (kbs : List (Nat × List (Record κ))) : Prop where
  ready : s.allocator.Ready g free
  keys : KeyChain acc g s.file s.firstKeysBlock kbs
  ne_nil : kbs ≠ []
  keys_free : ∀ p ∈ kbs, p.1 ∉ free
  keys_ne : ∀ p ∈ kbs, p.1 ≠ s.allocator.description ∧ p.1 ≠ s.descrBlock
  descr_lt : s.descrBlock < s.file.count
  descr_free : s.descrBlock ∉ free
  descr_ne : s.descrBlock ≠ s.allocator.description

def Index.Stored (s : Index) : Prop := s.file.field s.descrBlock 0 = s.firstKeysBlock

theorem KeyChain.congr {start : Nat} (h : KeyChain acc g f start kbs)
    (hb : ∀ p ∈ kbs, f'.block p.1 = f.block p.1) (hc : f.count ≤ f'.count) : KeyChain acc g f' start kbs := by
  refine ⟨h.chain.congr fun y hy => ?_, fun p hp => ?_, fun p hp => Nat.lt_of_lt_of_le (h.lt p hp) hc⟩
  · obtain ⟨p, hp, rfl⟩ := List.mem_map.mp hy
    exact congrArg Block.nextIndex (hb p hp)
  · rw [hb p hp]
    exact h.block p hp

theorem IndexInv.setAllocator (h : IndexInv acc g s free kbs) (hr : a'.Ready g free')
    (hd : a'.description = s.allocator.description) (hb : ∀ p ∈ kbs, a'.file.block p.1 = s.file.block p.1)
    (hc : s.file.count ≤ a'.file.count) (hkf : ∀ p ∈ kbs, p.1 ∉ free')
    (hdf : s.descrBlock ∉ free') : IndexInv acc g (s.setAllocator a') free' kbs where
  ready := hr
  keys := h.keys.congr hb hc
  ne_nil := h.ne_nil
  keys_free := hkf
  keys_ne p hp := ⟨fun e => (h.keys_ne p hp).1 (e.trans hd), (h.keys_ne p hp).2⟩
  descr_lt := Nat.lt_of_lt_of_le h.descr_lt hc
  descr_free := hdf
  descr_ne e := h.descr_ne (e.trans hd)

theorem Allocator.Ready.setFile {a : Allocator} (h : a.Ready g free)
    (hn : ∀ b ∈ free, f.nextOf b = a.file.nextOf b) (hc : f.count = a.file.count) :
    (a.setFile f).Ready g free :=
  ⟨h.chain.congr hn, by rw [show (a.setFile f).file.count = a.file.count from hc]; exact h.le_count,
    by rw [show (a.setFile f).file.count = a.file.count from hc]; exact h.description_lt,
    h.description_free, by rw [show (a.setFile f).file.count = a.file.count from hc]; exact h.count_le⟩

theorem IndexInv.setBlock {K₁ K₂ : List (Nat × List (Record κ))} {recs recs' : List (Record κ)}
    (h : IndexInv acc g s free (K₁ ++ (b, recs) :: K₂)) (hc : f.count = s.file.count)
    (hf : ∀ i, i ≠ b → f.block i = s.file.block i) (hn : f.nextOf b = s.file.nextOf b)
    (hb : KeyBlock acc g (f.block b) recs') : IndexInv acc g (s.setFile f) free (K₁ ++ (b, recs') :: K₂) := by
  have hnext : f.nextOf = s.file.nextOf := by
    funext i
    by_cases hi : i = b
    · rw [hi, hn]
    · exact congrArg Block.nextIndex (hf i hi)
  have hmem : ∀ p ∈ K₁ ++ (b, recs') :: K₂, p = (b, recs') ∨
      p ∈ K₁ ++ (b, recs) :: K₂ ∧ p.1 ≠ b := by
    intro p hp
    have hnd := h.keys.chain.nodup
    simp only [List.map_append, List.map_cons, List.nodup_append, List.nodup_cons, List.mem_map] at hnd
    simp only [List.mem_append, List.mem_cons] at hp ⊢
    rcases hp with hp | hp | hp
    · exact Or.inr ⟨Or.inl hp, fun e => hnd.2.2 p.1 ⟨p, hp, rfl⟩ b (by simp) e⟩
    · exact Or.inl hp
    · exact Or.inr ⟨Or.inr (Or.inr hp), fun e => hnd.2.1.1 ⟨p, hp, e⟩⟩
  have hfst : ∀ p ∈ K₁ ++ (b, recs') :: K₂, ∃ q ∈ K₁ ++ (b, recs) :: K₂, q.1 = p.1 := by
    intro p hp
    rcases hmem p hp with rfl | ⟨hp, -⟩
    · exact ⟨(b, recs), by simp, rfl⟩
    · exact ⟨p, hp, rfl⟩
  refine ⟨h.ready.setFile (fun b _ => by rw [hnext]; rfl) hc, ⟨?_, fun p hp => ?_, fun p hp => ?_⟩, by simp,
    fun p hp => ?_, fun p hp => ?_, by simpa [hc] using h.descr_lt, h.descr_free, h.descr_ne⟩
  · simpa [hnext] using h.keys.chain
  · rcases hmem p hp with rfl | ⟨hp, hne⟩
    · exact hb
    · rw [Index.file_setFile, hf p.1 hne]
      exact h.keys.block p hp
  · obtain ⟨q, hq, hqp⟩ := hfst p hp
    rw [Index.file_setFile, hc, ← hqp]
    exact h.keys.lt q hq
  · obtain ⟨q, hq, hqp⟩ := hfst p hp
    rw [← hqp]
    exact h.keys_free q hq
  · obtain ⟨q, hq, hqp⟩ := hfst p hp
    rw [← hqp]
    exact h.keys_ne q hq

/-! ## 記述ブロック -/

theorem IndexInv.sync (h : IndexInv acc g s free kbs) : IndexInv acc g s.sync free kbs := by
  have hr : (s.allocator.setFile (s.file.setField s.descrBlock 0 s.firstKeysBlock)).Ready g free :=
    h.ready.setFile (fun b hb => congrArg Block.nextIndex (File.block_setField_ne fun e =>
      h.descr_free (e ▸ hb))) (by simp [Index.file])
  exact h.setAllocator hr rfl (fun p hp => File.block_setField_ne (h.keys_ne p hp).2)
    (by simp [Allocator.setFile]) h.keys_free h.descr_free

theorem IndexInv.firstKeysBlock_lt (h : IndexInv acc g s free kbs) :
    s.firstKeysBlock ≠ 0 ∧ s.firstKeysBlock < s.file.count ∧ s.firstKeysBlock < 2 ^ 32 := by
  cases kbs with
  | nil => exact absurd rfl h.ne_nil
  | cons p K =>
      have hp := h.keys.lt p (by simp)
      have h0 := h.keys.chain.ne_zero p.1 (by simp)
      have hle := h.ready.count_le
      have := g.index_fits
      rw [h.keys.chain.head]
      refine ⟨h0, hp, ?_⟩
      have : s.allocator.file.count = s.file.count := rfl
      omega

theorem IndexInv.stored_sync (h : IndexInv acc g s free kbs) : s.sync.Stored :=
  File.field_setField_self h.descr_lt h.firstKeysBlock_lt.2.2

/-! ## `insert` -/

structure IndexKeeps (s s' : Index) (keys free' : List Nat) : Prop where
  descrBlock : s'.descrBlock = s.descrBlock
  description : s'.allocator.description = s.allocator.description
  count : s.file.count ≤ s'.file.count
  size : ∀ i, i ∉ keys → (s'.file.block i).size = (s.file.block i).size
  frame : ∀ i, i ≠ s.allocator.description → i ≠ s.descrBlock → i ∉ keys → i ∉ free' →
    s'.file.block i = s.file.block i

structure Pushed (acc : KeyAccessor κ) (g : Geometry) (s : Index) (free : List Nat)
    (kbs : List (Nat × List (Record κ))) (b : Nat) (s' : Index) (free' : List Nat) : Prop where
  inv : IndexInv acc g (s'.setFile (s'.file.setSize b 0)) free' ((b, []) :: kbs)
  first : s'.firstKeysBlock = b
  taken : Taken free s.file.count b free' s'.file.count
  keeps : IndexKeeps s s' [b] free'
  size : (s'.file.block b).size = (s.file.block b).size
  descr : s'.file.block s.descrBlock = s.file.block s.descrBlock

theorem Allocated.pushed (h : IndexInv acc g s free kbs)
    (ha : Allocated g s.allocator free b a' free') : Pushed acc g s free kbs b
      ⟨a'.setFile (a'.file.setNextIndex b s.firstKeysBlock), s.descrBlock, b⟩ free' := by
  have hb0 := ha.ne_zero h.ready
  have hlt := ha.taken.lt
  have hbf := ha.taken.nodup h.ready.chain.nodup
  have hkeys : ∀ p ∈ kbs, p.1 ∉ b :: free' := fun p hp => ha.taken.not_mem (h.keys_free p hp) (h.keys.lt p hp)
  have hdescr : s.descrBlock ∉ b :: free' := ha.taken.not_mem h.descr_free h.descr_lt
  have hdesc : a'.description ∉ b :: free' := by
    rw [ha.description]
    exact ha.taken.not_mem h.ready.description_free h.ready.description_lt
  simp only [List.mem_cons, not_or] at hkeys hdescr hdesc
  -- つないだ後のブロックは、`b` のほかは割り当てた直後と同じである。
  have hne : ∀ i, i ≠ b → ((a'.file.setNextIndex b s.firstKeysBlock).setSize b 0).block i = a'.file.block i := by
    intro i hi
    rw [File.block_setSize_ne hi, File.block_setNextIndex_ne hi]
  have hself : ((a'.file.setNextIndex b s.firstKeysBlock).setSize b 0).block b =
      { a'.file.block b with nextIndex := s.firstKeysBlock, size := 0 } := by
    rw [File.block_setSize_self (by simpa using hlt.1), File.block_setNextIndex_self hlt.1]
  have hold : ∀ p ∈ kbs, ((a'.file.setNextIndex b s.firstKeysBlock).setSize b 0).block p.1 = s.file.block p.1 := by
    intro p hp
    rw [hne p.1 (hkeys p hp).1]
    exact ha.frame p.1 (h.keys_ne p hp).1 (by simp [hkeys p hp])
  have hcount : ((a'.file.setNextIndex b s.firstKeysBlock).setSize b 0).count = a'.file.count := by simp
  have hc : s.file.count ≤ ((a'.file.setNextIndex b s.firstKeysBlock).setSize b 0).count :=
    hcount ▸ hlt.2
  have hnew : KeyBlock acc g (((a'.file.setNextIndex b s.firstKeysBlock).setSize b 0).block b) [] := by
    rw [hself]
    exact ⟨trivial, rfl, Nat.zero_le _⟩
  have hk := h.keys.congr hold hc
  have hsize : ∀ i, ((a'.file.setNextIndex b s.firstKeysBlock).block i).size = (s.file.block i).size := by
    intro i
    rw [← show _ = (s.file.block i).size from ha.size i]
    by_cases hi : i = b
    · subst hi
      rw [File.block_setNextIndex_self hlt.1]
    · rw [File.block_setNextIndex_ne hi]
  refine ⟨⟨?_, ⟨⟨rfl, hb0, ?_⟩, ?_, ?_⟩, by simp, ?_, ?_, ?_, hdescr.2, ?_⟩, rfl, ?_,
    ⟨rfl, ha.description, ?_, fun i _ => hsize i, fun i hi _ hib hif => ?_⟩, hsize b, ?_⟩
  · exact ha.ready.setFile (fun y hy => congrArg Block.nextIndex (hne y fun e => hbf (e ▸ hy))) hcount
  · show Chain _ (((a'.file.setNextIndex b s.firstKeysBlock).setSize b 0).block b).nextIndex _
    rw [hself]
    exact hk.chain
  · intro p hp
    rcases List.mem_cons.mp hp with rfl | hp
    · exact hnew
    · exact hk.block p hp
  · intro p hp
    rcases List.mem_cons.mp hp with rfl | hp
    · exact Nat.lt_of_lt_of_eq hlt.1 hcount.symm
    · exact hk.lt p hp
  · intro p hp
    rcases List.mem_cons.mp hp with rfl | hp
    · exact hbf
    · exact (hkeys p hp).2
  · intro p hp
    rcases List.mem_cons.mp hp with rfl | hp
    · exact ⟨fun e => hdesc.1 e.symm, fun e => hdescr.1 e.symm⟩
    · exact ⟨fun e => (h.keys_ne p hp).1 (e.trans ha.description), (h.keys_ne p hp).2⟩
  · exact Nat.lt_of_lt_of_le h.descr_lt hc
  · exact fun e => h.descr_ne (e.trans ha.description)
  · simpa [Index.file, Allocator.setFile] using ha.taken
  · simpa [Index.file, Allocator.setFile] using hlt.2
  · simp only [List.mem_singleton] at hib
    show (a'.file.setNextIndex b s.firstKeysBlock).block i = _
    rw [File.block_setNextIndex_ne hib]
    exact ha.frame i hi (by simp [hib, hif])
  · show (a'.file.setNextIndex b s.firstKeysBlock).block s.descrBlock = _
    rw [File.block_setNextIndex_ne hdescr.1]
    exact ha.frame _ h.descr_ne (by simp [hdescr])

theorem Pushed.keyChain (h : IndexInv acc g s free kbs)
    (hp : Pushed acc g s free kbs b s' free') : KeyChain acc g s'.file s.firstKeysBlock kbs := by
  refine h.keys.congr (fun p hpk => ?_) hp.keeps.count
  have hnd := hp.inv.keys.chain.nodup
  have hpb : p.1 ≠ b := by
    intro e
    simp only [List.map_cons, List.nodup_cons, List.mem_map] at hnd
    exact hnd.1 ⟨p, hpk, e⟩
  exact hp.keeps.frame p.1 (h.keys_ne p hpk).1 (h.keys_ne p hpk).2 (by simp [hpb])
    (hp.inv.keys_free p (by simp [hpk]))

structure InsertFailed (acc : KeyAccessor κ) (g : Geometry) (s : Index) (free : List Nat)
    (kbs : List (Nat × List (Record κ))) (s' : Index) (free' : List Nat) : Prop where
  inv : IndexInv acc g s' free' kbs
  first : s'.firstKeysBlock = s.firstKeysBlock
  descrBlock : s'.descrBlock = s.descrBlock
  descr : s'.file.block s.descrBlock = s.file.block s.descrBlock
  size : ∀ i, (s'.file.block i).size = (s.file.block i).size
  free : ∀ i ∈ free', i ∈ free ∨ s.file.count ≤ i

theorem pushKeysBlock_spec (h : IndexInv acc g s free kbs) (k : κ) :
    Spec (pushKeysBlock acc g k) s
      (fun _ s' => acc.size k + keyHeaderSize ≤ g.availableSize ∧
        ∃ b free', Pushed acc g s free kbs b s' free')
      (fun e s' => (e = .fileFormatError ∧ g.availableSize < acc.size k + keyHeaderSize ∧
        ∃ b free', Pushed acc g s free kbs b s' free') ∨
        (e.isResize ∧ ∃ free', InsertFailed acc g s free kbs s' free')) := by
  unfold pushKeysBlock
  refine Spec.bind (Spec.get (Spec.bind (Spec.zoom ((allocate_spec h.ready).mono ?_ ?_))))
  · rintro b a' ⟨free', ha⟩
    refine Spec.bind (Spec.zoom ((getBlock_spec_lt g ?_).mono ?_ (fun _ _ h => h.elim)))
    · exact ha.taken.lt.1
    · rintro _ f rfl
      refine Spec.bind (Spec.modify (Spec.bind (Spec.zoom (Spec.modify (Spec.ite ?_ ?_)))))
      · exact fun hlt => Spec.throw (Or.inl ⟨rfl, hlt, b, free', ha.pushed h⟩)
      · exact fun hle => Spec.pure ⟨Nat.not_lt.mp hle, b, free', ha.pushed h⟩
  · rintro e a' ⟨he, free', hr, hd, hfree, hc, hfr, hsize⟩
    have hnot : ∀ i, i ∉ free → i < s.file.count → i ∉ free' := by
      intro i hi hic hm
      rcases hfree with rfl | ⟨-, rfl⟩
      · exact hi hm
      · have hic : i < s.allocator.file.count := hic
        have := List.mem_range'_1.mp hm
        omega
    refine Or.inr ⟨he, free', h.setAllocator hr hd (fun p hp => hfr p.1 (h.keys.lt p hp)) hc
      (fun p hp => hnot p.1 (h.keys_free p hp) (h.keys.lt p hp)) (hnot _ h.descr_free h.descr_lt),
      rfl, rfl, hfr _ h.descr_lt, hsize, fun i hi => ?_⟩
    rcases hfree with rfl | ⟨-, rfl⟩
    · exact Or.inl hi
    · exact Or.inr (List.mem_range'_1.mp hi).1

def writeRecord (acc : KeyAccessor κ) (s : Index) (usedSize : Nat) (k : κ) (d : Nat) : Index :=
  let f := s.file.setSize s.firstKeysBlock (usedSize + keyHeaderSize + acc.size k)
  s.setFile (f.setContent s.firstKeysBlock
    (putRecord acc (f.block s.firstKeysBlock).content usedSize k d))

theorem writeRecord_ne {i u : Nat} (hi : i ≠ s.firstKeysBlock) :
    (writeRecord acc s u k d).file.block i = s.file.block i := by
  simp only [writeRecord, Index.file_setFile]
  rw [File.block_setContent_ne hi, File.block_setSize_ne hi]

theorem writeRecord_self {u : Nat} (h : s.firstKeysBlock < s.file.count) :
    (writeRecord acc s u k d).file.block s.firstKeysBlock =
      { s.file.block s.firstKeysBlock with
        size := u + keyHeaderSize + acc.size k
        content := putRecord acc (s.file.block s.firstKeysBlock).content u k d } := by
  simp only [writeRecord, Index.file_setFile]
  rw [File.block_setContent_self (by simpa using h), File.block_setSize_self h]

theorem writeRecord_count {u : Nat} : (writeRecord acc s u k d).file.count = s.file.count := by
  simp [writeRecord]

theorem writeRecord_setSize {u : Nat} :
    writeRecord acc (s.setFile (s.file.setSize s.firstKeysBlock n)) u k d = writeRecord acc s u k d := by
  simp only [writeRecord, Index.file_setFile, Index.firstKeysBlock_setFile, File.setSize_setSize]
  rfl

theorem IndexInv.writeRecord {recs : List (Record κ)} {K : List (Nat × List (Record κ))}
    (h : IndexInv acc g s free ((b, recs) :: K))
    (hfit : recordsEnd acc 0 recs + (acc.size k + keyHeaderSize) ≤ g.availableSize)
    (hd : d < 2 ^ 32) : IndexInv acc g (writeRecord acc s (recordsEnd acc 0 recs) k d) free
      ((b, recs ++ [⟨k, d, false⟩]) :: K) := by
  have hb := h.keys.chain.head
  have hlt : s.firstKeysBlock < s.file.count := h.firstKeysBlock_lt.2.1
  have hkb := h.keys.block (b, recs) (by simp)
  have hself : (PlainStorage.writeRecord acc s (recordsEnd acc 0 recs) k d).file.block s.firstKeysBlock = _ :=
    writeRecord_self hlt
  obtain rfl : s.firstKeysBlock = b := hb
  have hav := g.size_fits
  have h' : IndexInv acc g s free ([] ++ (s.firstKeysBlock, recs) :: K) := h
  refine h'.setBlock (f := (PlainStorage.writeRecord acc s (recordsEnd acc 0 recs) k d).file)
    (by simp [PlainStorage.writeRecord]) (fun i hi => writeRecord_ne hi) ?_ ?_
  · rw [File.nextOf, hself]
    rfl
  · rw [hself]
    refine ⟨hkb.records.push ?_ hd, ?_, ?_⟩
    · simp only [recordSize]
      unfold Geometry.availableSize at hfit
      omega
    · simp only [recordsEnd_append, recordsEnd, recordSize]
      omega
    · dsimp only
      omega

structure Inserted (acc : KeyAccessor κ) (g : Geometry) (s : Index) (free : List Nat)
    (kbs : List (Nat × List (Record κ))) (x : Call κ) (s' : Index) (free' : List Nat)
    (kbs' : List (Nat × List (Record κ))) : Prop where
  inv : IndexInv acc g s' free' kbs'
  calls : ∃ X Y, indexCalls acc kbs = X ++ Y ∧ indexCalls acc kbs' = X ++ x :: Y
  owned : free' = free ∧ kbs'.map Prod.fst = kbs.map Prod.fst ∧ s'.file.count = s.file.count ∨
    ∃ b, Taken free s.file.count b free' s'.file.count ∧ kbs'.map Prod.fst = b :: kbs.map Prod.fst
  keeps : IndexKeeps s s' (kbs'.map Prod.fst) free'
  stored : s.Stored → s'.Stored

theorem IndexInv.insert_here {recs : List (Record κ)} {K : List (Nat × List (Record κ))}
    (h : IndexInv acc g s free ((b, recs) :: K))
    (hfit : recordsEnd acc 0 recs + (acc.size k + keyHeaderSize) ≤ g.availableSize)
    (hd : d < 2 ^ 32) : Inserted acc g s free ((b, recs) :: K) ⟨k, d, b, recordsEnd acc 0 recs⟩
      (PlainStorage.writeRecord acc s (recordsEnd acc 0 recs) k d) free ((b, recs ++ [⟨k, d, false⟩]) :: K) := by
  have hb : s.firstKeysBlock = b := h.keys.chain.head
  have hne : ∀ i, i ∉ b :: K.map Prod.fst → i ≠ s.firstKeysBlock := by
    intro i hi e
    exact hi (by simp [e, hb])
  refine ⟨h.writeRecord hfit hd, ⟨blockCalls acc b 0 recs, indexCalls acc K, indexCalls_cons, ?_⟩,
    Or.inl ⟨rfl, rfl, by simp [PlainStorage.writeRecord]⟩, ⟨rfl, rfl, by simp [PlainStorage.writeRecord], fun i hi => ?_,
      fun i _ _ hi _ => writeRecord_ne (hne i hi)⟩, fun hs => ?_⟩
  · simp [indexCalls_cons, blockCalls_append, blockCalls]
  · rw [writeRecord_ne (hne i hi)]
  · have hdb : s.descrBlock ≠ s.firstKeysBlock := by
      rw [hb]
      exact (h.keys_ne (b, recs) (by simp)).2.symm
    show File.field _ s.descrBlock 0 = s.firstKeysBlock
    rw [← hs, File.field, writeRecord_ne hdb]
    rfl

theorem Pushed.insert (h : IndexInv acc g s free kbs) (hp : Pushed acc g s free kbs b s' free')
    (hfit : acc.size k + keyHeaderSize ≤ g.availableSize) (hd : d < 2 ^ 32) :
    s.firstKeysBlock ≠ b ∧ Inserted acc g s free kbs ⟨k, d, b, 0⟩
      (PlainStorage.writeRecord acc s' 0 k d).sync free' ((b, [⟨k, d, false⟩]) :: kbs) := by
  have hb := hp.first
  have hlt : s'.firstKeysBlock < s'.file.count := by rw [hb]; exact hp.taken.lt.1
  have hold : s.firstKeysBlock ≠ b := by
    have hnd := hp.inv.keys.chain.nodup
    obtain ⟨l, hl⟩ := h.keys.chain.cons_of_ne_zero h.firstKeysBlock_lt.1
    intro e
    simp [hl, e] at hnd
  have hinv := hp.inv.writeRecord (k := k) (d := d) (by simpa [recordsEnd] using hfit) hd
  rw [← hb] at hinv
  simp only [writeRecord_setSize, List.nil_append, recordsEnd] at hinv
  rw [hb] at hinv
  have hdescr : (PlainStorage.writeRecord acc s' 0 k d).descrBlock = s.descrBlock := hp.keeps.descrBlock
  have hcount : (PlainStorage.writeRecord acc s' 0 k d).sync.file.count = s'.file.count := by
    simp [Index.sync, PlainStorage.writeRecord]
  have hfr : ∀ i, i ≠ s.descrBlock → i ≠ b →
      (PlainStorage.writeRecord acc s' 0 k d).sync.file.block i = s'.file.block i := by
    intro i hi hib
    simp only [Index.sync, Index.file_setFile]
    rw [File.block_setField_ne (by rw [hdescr]; exact hi), writeRecord_ne (by rw [hb]; exact hib)]
  refine ⟨hold, hinv.sync, ⟨[], indexCalls acc kbs, rfl, ?_⟩, Or.inr ⟨b, by rw [hcount]; exact hp.taken, rfl⟩,
    ⟨hp.keeps.descrBlock, hp.keeps.description, by rw [hcount]; exact hp.keeps.count, fun i hi => ?_,
      fun i h1 h2 hi hif => ?_⟩, fun _ => hinv.stored_sync⟩
  · simp [indexCalls_cons, blockCalls]
  · simp only [List.map_cons, List.mem_cons, not_or] at hi
    rw [← hp.keeps.size i (by simp [hi])]
    by_cases hid : i = s.descrBlock
    · subst hid
      simp only [Index.sync, Index.file_setFile]
      rw [hdescr, File.block_setField_self, writeRecord_ne (by rw [hb]; exact hi.1)]
      rw [← hdescr]
      exact hinv.descr_lt
    · rw [hfr i hid hi.1]
  · simp only [List.map_cons, List.mem_cons, not_or] at hi
    rw [hfr i h2 hi.1]
    exact hp.keeps.frame i h1 h2 (by simp [hi]) hif

theorem insert_of_reserve {Q : KeyAddition → Index → Prop} {E : Failure → Index → Prop}
    (h : Spec (reserve acc g k) s (fun u s₁ => Q ⟨s₁.firstKeysBlock, u⟩
      (if s.firstKeysBlock = s₁.firstKeysBlock then writeRecord acc s₁ u k d
        else (writeRecord acc s₁ u k d).sync)) E) : Spec (Index.insert acc g k d) s Q E := by
  unfold Index.insert save
  refine Spec.bind (Spec.bind (Spec.get (Spec.bind (h.mono ?_ (fun _ _ h => h)))))
  intro u s₁ hq
  refine Spec.bind (Spec.get (Spec.bind (Spec.zoom (Spec.modify (Spec.bind (Spec.zoom (Spec.modify
    (Spec.pure (Spec.ite ?_ ?_)))))))))
  · intro hne
    rw [if_neg (of_decide_eq_true hne)] at hq
    exact Spec.bind (Spec.modify (Spec.pure hq))
  · intro he
    rw [if_pos (by simpa using he)] at hq
    exact Spec.pure hq

theorem insert_here_spec {recs : List (Record κ)} {K : List (Nat × List (Record κ))}
    (h : IndexInv acc g s free ((b, recs) :: K))
    (hfit : recordsEnd acc 0 recs + (acc.size k + keyHeaderSize) ≤ g.availableSize) :
    Spec (Index.insert acc g k d) s
      (fun ka s' => ka = ⟨b, recordsEnd acc 0 recs⟩ ∧
      s' = writeRecord acc s (recordsEnd acc 0 recs) k d) (fun _ _ => False) := by
  have hb : s.firstKeysBlock = b := h.keys.chain.head
  have hkb := h.keys.block (b, recs) (by simp)
  refine insert_of_reserve ?_
  unfold reserve
  refine Spec.bind (Spec.get (Spec.ite (fun hfull => ?_) (fun _ => Spec.pure ?_)))
  · have hav := g.size_fits
    rw [hb, hkb.size] at hfull
    unfold Geometry.availableSize at hfull hfit
    dsimp only at hfull
    omega
  · rw [if_pos rfl, hb, hkb.size]
    exact ⟨rfl, rfl⟩

theorem insert_spec (h : IndexInv acc g s free kbs) (k : κ) (hd : d < 2 ^ 32) :
    Spec (Index.insert acc g k d) s
      (fun ka s' => ∃ free' kbs', Inserted acc g s free kbs ⟨k, d, ka⟩ s' free' kbs')
      (fun e s' => (e = .fileFormatError ∧ g.availableSize < acc.size k + keyHeaderSize ∧
        ∃ b free', Pushed acc g s free kbs b s' free') ∨
        (e.isResize ∧ ∃ free', InsertFailed acc g s free kbs s' free')) := by
  cases kbs with
  | nil => exact absurd rfl h.ne_nil
  | cons p K =>
      obtain ⟨b, recs⟩ := p
      by_cases hfit : recordsEnd acc 0 recs + (acc.size k + keyHeaderSize) ≤ g.availableSize
      · refine (insert_here_spec h hfit).mono ?_ (fun _ _ h => h.elim)
        rintro ka s' ⟨rfl, rfl⟩
        exact ⟨free, _, h.insert_here hfit hd⟩
      · have hb : s.firstKeysBlock = b := h.keys.chain.head
        have hkb := h.keys.block (b, recs) (by simp)
        refine insert_of_reserve ?_
        unfold reserve
        refine Spec.bind (Spec.get (Spec.ite (fun _ => ?_) (fun hroom => absurd ?_ hroom)))
        · refine Spec.bind ((pushKeysBlock_spec h k).mono ?_ (fun _ _ h => h))
          rintro _ s' ⟨hfit, b, free', hp⟩
          obtain ⟨hold, hi⟩ := hp.insert h hfit hd
          refine Spec.pure ?_
          rw [hp.first, if_neg hold]
          exact ⟨free', _, hi⟩
        · have hle := hkb.le
          have hav := g.size_fits
          rw [hb, hkb.size]
          rw [hkb.size] at hle
          unfold Geometry.availableSize at hfit hle ⊢
          dsimp only at hle ⊢
          omega

/-! ## `update` と `erase` -/

structure Rewritten (acc : KeyAccessor κ) (g : Geometry) (s : Index) (free : List Nat)
    (kbs : List (Nat × List (Record κ))) (s' : Index) (kbs' : List (Nat × List (Record κ))) : Prop where
  inv : IndexInv acc g s' free kbs'
  keys : kbs'.map Prod.fst = kbs.map Prod.fst
  allocator : s'.allocator = s.allocator.setFile s'.file
  first : s'.firstKeysBlock = s.firstKeysBlock
  descrBlock : s'.descrBlock = s.descrBlock
  count : s'.file.count = s.file.count
  frame : ∀ i, i ∉ kbs.map Prod.fst → s'.file.block i = s.file.block i

/-- 一つの記録 `x` を、記録の並び `xs`（高々一つ）に置き換えた後の状態。 -/
structure Replaced (acc : KeyAccessor κ) (g : Geometry) (s : Index) (free : List Nat)
    (kbs : List (Nat × List (Record κ))) (x : Call κ) (xs : List (Call κ)) (s' : Index)
    (kbs' : List (Nat × List (Record κ))) : Prop extends Rewritten acc g s free kbs s' kbs' where
  calls : ∃ X Y, indexCalls acc kbs = X ++ x :: Y ∧ indexCalls acc kbs' = X ++ xs ++ Y

variable {x : Call κ}

theorem Rewritten.refl (h : IndexInv acc g s free kbs) : Rewritten acc g s free kbs s kbs :=
  ⟨h, rfl, rfl, rfl, rfl, rfl, fun _ _ => rfl⟩

theorem Rewritten.trans {s'' : Index} {kbs' kbs'' : List (Nat × List (Record κ))}
    (h : Rewritten acc g s free kbs s' kbs') (h' : Rewritten acc g s' free kbs' s'' kbs'') :
    Rewritten acc g s free kbs s'' kbs'' where
  inv := h'.inv
  keys := h'.keys.trans h.keys
  allocator := by
    rw [h'.allocator, h.allocator]
    rfl
  first := h'.first.trans h.first
  descrBlock := h'.descrBlock.trans h.descrBlock
  count := h'.count.trans h.count
  frame i hi := (h'.frame i (by rw [h.keys]; exact hi)).trans (h.frame i hi)

theorem Rewritten.stored {kbs' : List (Nat × List (Record κ))}
    (hr : Rewritten acc g s free kbs s' kbs') (h : IndexInv acc g s free kbs) (hs : s.Stored) :
    s'.Stored := by
  have hd : s.descrBlock ∉ kbs.map Prod.fst := by
    intro hm
    obtain ⟨p, hp, hpd⟩ := List.mem_map.mp hm
    exact (h.keys_ne p hp).2 hpd
  unfold Index.Stored File.field at hs ⊢
  rw [hr.descrBlock, hr.first, hr.frame _ hd]
  exact hs

theorem IndexInv.replace {K₁ K₂ : List (Nat × List (Record κ))} {recs recs' : List (Record κ)}
    {xs : List (Call κ)} (h : IndexInv acc g s free (K₁ ++ (b, recs) :: K₂))
    (hc : f.count = s.file.count) (hf : ∀ i, i ≠ b → f.block i = s.file.block i)
    (hn : f.nextOf b = s.file.nextOf b) (hb : KeyBlock acc g (f.block b) recs')
    (hx : ∃ X Y, indexCalls acc (K₁ ++ (b, recs) :: K₂) = X ++ x :: Y ∧
      indexCalls acc (K₁ ++ (b, recs') :: K₂) = X ++ xs ++ Y) :
    Replaced acc g s free (K₁ ++ (b, recs) :: K₂) x xs (s.setFile f) (K₁ ++ (b, recs') :: K₂) :=
  ⟨⟨h.setBlock hc hf hn hb, by simp, rfl, rfl, rfl, hc, fun i hi => hf i (fun e => hi (by simp [e]))⟩, hx⟩

theorem IndexInv.fits (h : IndexInv acc g s free kbs) (hx : x ∈ indexCalls acc kbs) :
    acc.size x.key + keyHeaderSize ≤ g.availableSize := by
  obtain ⟨K₁, b, l₁, r, l₂, K₂, rfl, -, rfl⟩ := mem_indexCalls hx
  have hkb := h.keys.block (b, l₁ ++ r :: l₂) (by simp)
  have hle := hkb.le
  rw [hkb.size, recordsEnd_append] at hle
  have := @recordsEnd_ge κ acc (recordsEnd acc 0 l₁ + recordSize acc r) l₂
  simp only [recordsEnd, recordSize] at hle this
  dsimp only
  omega

theorem update_spec (h : IndexInv acc g s free kbs) (hx : x ∈ indexCalls acc kbs)
    (hd : d < 2 ^ 32) : Spec (Index.update g d x.addition) s
      (fun _ s' => ∃ kbs', Replaced acc g s free kbs x [⟨x.key, d, x.addition⟩] s' kbs')
      (fun _ _ => False) := by
  obtain ⟨K₁, b, l₁, r, l₂, K₂, rfl, hdel, rfl⟩ := mem_indexCalls hx
  have hlt : b < s.file.count := h.keys.lt (b, l₁ ++ r :: l₂) (by simp)
  have hkb := h.keys.block (b, l₁ ++ r :: l₂) (by simp)
  unfold Index.update
  refine Spec.bind (Spec.zoom ((getBlock_spec_lt g hlt).mono ?_ (fun _ _ h => h.elim)))
  rintro _ f rfl
  refine Spec.zoom (Spec.modify ⟨K₁ ++ (b, l₁ ++ { r with dataBlock := d } :: l₂) :: K₂, ?_⟩)
  refine h.replace (by simp) (fun i hi => File.block_setField_ne hi) ?_ ?_ ?_
  · simp only [File.nextOf]
    rw [Index.file_setFile, File.block_setField_self hlt]
  · rw [Index.file_setFile, File.block_setField_self hlt]
    refine ⟨hkb.records.setDataBlock hd, ?_, hkb.le⟩
    have := hkb.size
    simpa [recordsEnd_append, recordsEnd, recordSize] using this
  · refine ⟨_, _, indexCalls_live hdel, ?_⟩
    rw [indexCalls_live (r := { r with dataBlock := d }) hdel, List.append_assoc _ [_]]
    rfl

theorem erase_spec (h : IndexInv acc g s free kbs) (hx : x ∈ indexCalls acc kbs) :
    Spec (Index.erase g x.addition) s (fun _ s' => ∃ kbs', Replaced acc g s free kbs x [] s' kbs')
      (fun _ _ => False) := by
  obtain ⟨K₁, b, l₁, r, l₂, K₂, rfl, hdel, rfl⟩ := mem_indexCalls hx
  have hlt : b < s.file.count := h.keys.lt (b, l₁ ++ r :: l₂) (by simp)
  have hkb := h.keys.block (b, l₁ ++ r :: l₂) (by simp)
  unfold Index.erase
  refine Spec.bind (Spec.zoom ((getBlock_spec_lt g hlt).mono ?_ (fun _ _ h => h.elim)))
  rintro _ f rfl
  have hks := (Records.append.mp hkb.records).2.1.keySize
  have hsz := hkb.size
  rw [recordsEnd_append] at hsz
  simp only [recordsEnd] at hsz
  refine Spec.bind (Spec.get (Spec.ite (fun hlast => ?_) (fun hmid => ?_)))
  · -- 最後の記録なので、ブロックを縮める。
    have hl₂ : l₂ = [] := by
      have hl : (s.file.block b).size = recordsEnd acc 0 l₁ + recordSize acc r := hlast.trans (by rw [← hks]; rfl)
      cases l₂ with
      | nil => rfl
      | cons r₂ l =>
          have h1 := @recordsEnd_ge κ acc (recordsEnd acc 0 l₁ + recordSize acc r + recordSize acc r₂) l
          have h2 := @recordSize_pos κ acc r₂
          simp only [recordsEnd] at hsz
          omega
    subst hl₂
    refine Spec.zoom (Spec.modify ⟨K₁ ++ (b, l₁) :: K₂, ?_⟩)
    refine h.replace (by simp [Index.file, Index.setFile, Index.setAllocator, Allocator.setFile])
      (fun i hi => File.block_setSize_ne hi) ?_ ?_ ?_
    · simp only [File.nextOf]
      rw [Index.file_setFile, File.block_setSize_self hlt]
    · rw [Index.file_setFile, File.block_setSize_self hlt]
      refine ⟨(Records.append.mp hkb.records).1, rfl, ?_⟩
      have hle := hkb.le
      simp only [recordsEnd] at hsz
      dsimp only at hle hsz ⊢
      omega
    · refine ⟨_, _, indexCalls_live hdel, ?_⟩
      simp [indexCalls_append, indexCalls_cons, blockCalls]
  · refine Spec.zoom (Spec.modify ⟨K₁ ++ (b, l₁ ++ { r with deleted := true } :: l₂) :: K₂, ?_⟩)
    refine h.replace (by simp [Index.file, Index.setFile, Index.setAllocator, Allocator.setFile])
      (fun i hi => File.block_setField_ne hi) ?_ ?_ ?_
    · simp only [File.nextOf]
      rw [Index.file_setFile, File.block_setField_self hlt]
    · rw [Index.file_setFile, File.block_setField_self hlt]
      refine ⟨hkb.records.setMark, ?_, hkb.le⟩
      have := hkb.size
      simpa [recordsEnd_append, recordsEnd, recordSize] using this
    · refine ⟨_, _, indexCalls_live hdel, ?_⟩
      rw [indexCalls_deleted (r := { r with deleted := true }) rfl, List.append_nil]
      rfl

end UnixCommons.PlainStorage
