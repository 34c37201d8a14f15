import UnixCommons.PlainStorage.Lemmas.MapWrite

/-!
# `Map` の内容

生きているキーの要素が、抽象の写像 `σ` のバイトの並びを持つことと、それを各操作が保つこと。
-/

namespace UnixCommons.PlainStorage

open Lib

/-!
## `Map` の読み込みの補題

開き直したファイルから、同じ索引と、同じデータの鎖を指す要素ができる。
-/

section

variable {κ : Type} [LinearOrder κ] {acc : KeyAccessor κ} {g : Geometry} {m m' : Map κ}
  {free leaked c : List Nat} {kbs : List (Nat × List (Record κ))} {dc : κ → List Nat} {k : κ}
  {ka : KeyAddition} {f : File} {d n start : Nat}

/-! ## 閉じた後のファイル -/

def Map.synced (m : Map κ) : Index := m.index.setAllocator m.index.allocator.sync

theorem MapInv.block_synced (h : MapInv acc g m free kbs dc leaked) {i : Nat} (hi : i ≠ 1) :
    m.synced.file.block i = m.file.block i :=
  Allocator.sync_block_ne (by rw [h.description]; exact hi)

theorem MapInv.bytes_synced (h : MapInv acc g m free kbs dc leaked) {e : Entry κ} (he : e ∈ m.container) :
    (dc e.1).flatMap m.synced.file.blockBytes = (dc e.1).flatMap m.file.blockBytes := by
  refine List.flatMap_congr fun i hi => ?_
  simp only [File.blockBytes, h.block_synced (h.accounted.of_data (mem_dataBlocks he hi)).2.1]

theorem MapInv.reopened (h : MapInv acc g m free kbs dc leaked) {c : Container κ} (session : Nat)
    (hs : c.Sorted) (hc : (indexCalls acc kbs).Perm (c.map Entry.call)) :
    MapInv acc g ⟨m.synced, c, session⟩ free kbs dc leaked := by
  have hcount : m.synced.file.count = m.file.count := File.count_setField
  have hfrom : ∀ e ∈ c, ∃ e₀ ∈ m.container, e₀.1 = e.1 ∧ e₀.2.1.firstBlockIndex = e.2.1.firstBlockIndex := by
    intro e he
    have hm : e.call ∈ m.container.map Entry.call := (hc.symm.trans h.calls).mem_iff.mp (List.mem_map_of_mem he)
    obtain ⟨e₀, he₀, heq⟩ := List.mem_map.mp hm
    simp only [Entry.call, Call.mk.injEq] at heq
    exact ⟨e₀, he₀, heq.1, heq.2.1⟩
  refine ⟨?_, ?_, h.description, h.descrBlock, ?_, hs, hc, fun e he => ?_, fun e he => ?_, ?_⟩
  · exact h.index.setAllocator h.index.ready.sync rfl
      (fun p hp => Allocator.sync_block_ne (h.index.keys_ne p hp).1) (Nat.le_of_eq hcount.symm)
      h.index.keys_free h.index.descr_free
  · exact h.stored.setAllocator (Allocator.sync_block_ne h.index.descr_ne)
  · exact h.header.congr (h.block_synced (by simp))
  · obtain ⟨e₀, he₀, hk, hf⟩ := hfrom e he
    have := h.chains e₀ he₀
    rw [hk, hf] at this
    show Chain m.synced.file.nextOf _ _
    rw [show m.synced.file.nextOf = m.file.nextOf from Allocator.sync_nextOf]
    exact this
  · obtain ⟨e₀, he₀, -, hf⟩ := hfrom e he
    rw [← hf]
    exact h.nonempty e₀ he₀
  · have hkeys : (c.map Prod.fst).Perm (m.container.map Prod.fst) := by
      have := (hc.symm.trans h.calls).map Call.key
      simpa [List.map_map, Function.comp_def, Entry.call] using this
    show Accounted m.synced.file.count _ _ _ _
    rw [hcount]
    refine h.accounted.perm ?_
    exact (((dataBlocks_perm hkeys).append_left _).append_right _).append_right _

theorem countDataSize_spec (size : Nat) (hc : Chain f.nextOf start c) (hlt : ∀ i ∈ c, i < f.count)
    (hf : 0 < f.count) (hn : c.length ≤ n) :
    Spec (countDataSize n (if start = 0 then none else some start) size) f
      (fun r f' => f' = f ∧ r = size + (c.flatMap f.blockBytes).length) (fun _ _ => False) := by
  induction c generalizing start n size with
  | nil =>
      rw [if_pos (Chain.nil_iff.mp hc)]
      unfold countDataSize
      exact Spec.pure ⟨rfl, by simp⟩
  | cons b c ih =>
      obtain rfl : start = b := hc.head
      obtain ⟨n, rfl⟩ : ∃ m, n = m + 1 := ⟨n - 1, by simp only [List.length_cons] at hn; omega⟩
      have hnext : (f.block start).nextIndex < f.count := by
        have ht := hc.tail
        cases c with
        | nil => exact lt_of_eq_of_lt (Chain.nil_iff.mp ht) hf
        | cons r c => exact lt_of_eq_of_lt ht.head (hlt r (by simp))
      rw [if_neg (hc.ne_zero start (by simp))]
      unfold countDataSize
      refine Spec.bind (Spec.get (Spec.bind ((readNext_spec_lt hnext).mono ?_ (fun _ _ h => h))))
      rintro _ _ ⟨rfl, rfl⟩
      refine (ih _ hc.tail (fun i hi => hlt i (by simp [hi]))
        (by simp only [List.length_cons] at hn; omega)).mono ?_ (fun _ _ h => h)
      rintro r _ ⟨rfl, rfl⟩
      refine ⟨rfl, ?_⟩
      simp only [List.flatMap_cons, List.length_append, File.blockBytes, length_readBytes]
      omega

theorem loadKey_spec (hc : Chain m.file.nextOf d c) (hd : d ≠ 0) (hlt : ∀ i ∈ c, i < m.file.count) :
    Spec (Map.loadKey g k d ka) m
      (fun _ m' => m' = m.setContainer
        (m.container.insert k (⟨d, (c.flatMap m.file.blockBytes).length, m.session⟩, ka)))
      (fun _ _ => False) := by
  obtain ⟨c, rfl⟩ := hc.cons_of_ne_zero hd
  have hdlt : d < m.file.count := hlt d (by simp)
  unfold Map.loadKey
  refine Spec.adaptExcept (Spec.bind (Spec.zoom (Spec.zoom ((getBlock_spec_lt g hdlt).mono ?_ (fun _ _ h => h)))))
  rintro _ f rfl
  refine Spec.bind (Spec.get (Spec.bind (Spec.observe ?_)))
  have hlen : (d :: c).length ≤ m.file.count := by
    have hsub : d :: c ⊆ List.range m.file.count := fun i hi => List.mem_range.mpr (hlt i hi)
    simpa using (List.subperm_of_subset hc.nodup hsub).length_le
  have hcount := countDataSize_spec (n := m.file.count) 0 hc hlt (by omega) hlen
  rw [if_neg hd] at hcount
  refine hcount.mono ?_ (fun _ _ h => h)
  rintro r _ ⟨-, rfl⟩
  refine Spec.bind (Spec.get (Spec.bind (Spec.zoom (Spec.zoom ?_))))
  unfold PlainWriter.create
  refine Spec.ite (fun _ => Spec.pure (Spec.modify ?_)) (fun h0 => absurd hd h0)
  rw [Nat.zero_add]
  rfl

theorem loadHead_spec (h : Header f) (h0 : 0 < f.count) :
    Spec loadHead f (fun r f' => r = (1, 2) ∧ f' = f) (fun _ _ => False) := by
  unfold loadHead getReadBlock
  refine Spec.adaptExcept (Spec.bind (Spec.bind (Spec.get (Spec.ite (fun h => by omega) (fun _ => Spec.pure ?_)))))
  refine Spec.bind (Spec.get (Spec.ite (fun hlt => absurd hlt (Nat.not_lt.mpr h.size)) (fun _ => Spec.pure ?_)))
  rw [h.allocator, h.index]
  exact ⟨rfl, rfl⟩

theorem load_old_spec (h : MapInv acc g m free kbs dc leaked) (c₀ : Container κ) (session : Nat)
    {P : List (Call κ) → Container κ → Prop} (h0 : P [] c₀)
    (hstep : ∀ done x rest c, done ++ x :: rest = indexCalls acc kbs → P done c →
      P (done ++ [x]) (c.insert x.key
        (⟨x.dataBlock, ((dc x.key).flatMap m.file.blockBytes).length, session⟩, x.addition))) :
    Spec (Map.load acc g c₀ session) m.close
      (fun m' _ => ∃ c, P (indexCalls acc kbs) c ∧ m' = ⟨m.synced, c, session⟩) (fun _ _ => False) := by
  have hi := h.reopened session h.sorted h.calls
  have hpos : 0 < m.synced.file.count := hi.index.ready.pos
  unfold Map.load
  refine Spec.bind (Spec.get (Spec.ite (fun he => ?_) (fun _ => Spec.bind ?_)))
  · exact absurd he (Nat.ne_of_gt hpos)
  · refine (loadHead_spec hi.header hpos).mono ?_ (fun _ _ h => h)
    rintro _ _ ⟨rfl, rfl⟩
    have hcreate := create_destroy_spec h.index.ready
    rw [h.description] at hcreate
    refine Spec.bind (hcreate.mono ?_ (fun _ _ h => h))
    rintro _ _ rfl
    have hd := hi.descrBlock
    have hst := hi.stored
    unfold Index.Stored at hst
    dsimp only at hd hst
    rw [hd] at hst
    refine Spec.bind (Spec.within ((create_index_spec (d := 2) ?_ hst hi.index.firstKeysBlock_lt.1
      hi.index.firstKeysBlock_lt.2.1).mono ?_ (fun _ _ h => h)))
    · have := hi.index.descr_lt
      dsimp only at this
      rwa [hd] at this
    · rintro _ _ ⟨rfl, -⟩
      have hsynced : (⟨m.synced.allocator, 2, m.synced.firstKeysBlock⟩ : Index) = m.synced := by
        rw [← hd]
      rw [hsynced]
      refine Spec.within (Spec.bind ((load_spec (P := fun done m' => ∃ c, P done c ∧ m' = ⟨m.synced, c, session⟩)
        hi.index.ne_nil hi.index.keys g.availableSize_le_mappedSize ⟨?_, ?_⟩ ⟨c₀, h0, rfl⟩).mono ?_ (fun _ _ h => h)))
      · rintro done _ ⟨c, -, rfl⟩
        rfl
      · rintro done x rest _ hcalls ⟨c, hP, rfl⟩
        have hx : x ∈ indexCalls acc kbs := by rw [← hcalls]; simp
        obtain ⟨e, he, rfl⟩ := List.mem_map.mp (h.calls.mem_iff.mp hx)
        have hheld := hi.held he
        refine (loadKey_spec (m := ⟨m.synced, c, session⟩) hheld.chain (h.nonempty e he)
          hheld.lt).mono ?_ (fun _ _ h => h.elim)
        rintro _ _ rfl
        refine ⟨_, hstep done e.call rest c hcalls hP, ?_⟩
        show Map.mk _ (c.insert e.1 (⟨_, ((dc e.1).flatMap m.synced.file.blockBytes).length, session⟩, _)) session = _
        rw [h.bytes_synced he]
        rfl
      · rintro _ _ ⟨c, hP, rfl⟩
        exact Spec.bind (Spec.get (Spec.pure ⟨c, hP, rfl⟩))

/-! ## 開き直し -/

theorem Container.Sorted.nodup {c : Container κ} (h : c.Sorted) : (c.map Prod.fst).Nodup := by
  unfold Container.Sorted at h
  rw [← List.pairwise_map (f := Prod.fst)] at h
  exact h.imp fun hlt => hlt.ne

theorem MapInv.keys_nodup (h : MapInv acc g m free kbs dc leaked) : ((indexCalls acc kbs).map Call.key).Nodup := by
  have hp := h.calls.map Call.key
  rw [List.map_map] at hp
  exact hp.nodup_iff.mpr h.sorted.nodup

theorem reopen_spec (h : MapInv acc g m free kbs dc leaked) :
    Spec (Map.reopen acc g) m
      (fun _ m' => MapInv acc g m' free kbs dc leaked ∧ m'.session = m.session + 1 ∧
        (∀ e ∈ m'.container, e.2.1.dataSize = ((dc e.1).flatMap m.file.blockBytes).length ∧
          e.2.1.session = m'.session) ∧
        (∀ i, i ≠ 1 → m'.file.block i = m.file.block i) ∧
        ∀ k, (m'.container.find k).isSome ↔ (m.container.find k).isSome)
      (fun _ _ => False) := by
  have hl := load_old_spec h [] (m.session + 1)
    (P := fun done c => c.Sorted ∧ (c.map Entry.call).Perm done ∧
      ∀ e ∈ c, e.2.1.dataSize = ((dc e.1).flatMap m.file.blockBytes).length ∧ e.2.1.session = m.session + 1)
    ⟨List.Pairwise.nil, List.Perm.refl _, by simp⟩ ?_
  · obtain ⟨m', f, hrun, c, ⟨hs, hp, he⟩, rfl⟩ := hl.exists_ok
    have hr : (Map.reopen acc g).run m = .ok .unit ⟨m.synced, c, m.session + 1⟩ := by
      show Map.reopen acc g m = _
      unfold Map.reopen
      rw [hrun]
    refine Spec.of_ok hr ⟨h.reopened _ hs hp.symm, rfl, he, fun i hi => h.block_synced hi, fun k => ?_⟩
    have hkeys : (c.map Prod.fst).Perm (m.container.map Prod.fst) := by
      have := (hp.trans h.calls).map Call.key
      simpa [List.map_map, Function.comp_def, Entry.call] using this
    rw [Container.isSome_find, Container.isSome_find]
    exact hkeys.mem_iff
  · rintro done x rest c hcalls ⟨hs, hp, he⟩
    have hnew : ∀ e ∈ c, e.1 ≠ x.key := by
      intro e hec hek
      have hnd := h.keys_nodup
      rw [← hcalls, List.map_append, List.map_cons, List.nodup_append] at hnd
      have hmem : x.key ∈ done.map Call.key := by
        rw [← hek]
        exact List.mem_map.mpr ⟨e.call, hp.mem_iff.mp (List.mem_map_of_mem hec), rfl⟩
      exact hnd.2.2 x.key hmem x.key (by simp) rfl
    have hins := Container.insert_perm
      (v := (⟨x.dataBlock, ((dc x.key).flatMap m.file.blockBytes).length, m.session + 1⟩, x.addition)) hnew
    refine ⟨hs.insert, ?_, fun e hec => ?_⟩
    · refine (hins.map Entry.call).trans ((hp.cons _).trans ?_)
      exact (List.perm_append_singleton _ _).symm
    · rcases List.mem_cons.mp (hins.mem_iff.mp hec) with rfl | hec
      · exact ⟨rfl, rfl⟩
      · exact he e hec

theorem reload_spec (h : MapInv acc g m free kbs dc leaked) :
    Spec (Map.reload acc g) m
      (fun _ m' => MapInv acc g m' free kbs dc leaked ∧ m'.container = m.container) (fun _ _ => False) := by
  have hl := load_old_spec h m.container (m.session + 1)
    (P := fun _ c => c = m.container) rfl ?_
  · obtain ⟨m', f, hrun, c, rfl, rfl⟩ := hl.exists_ok
    have hr : (Map.reload acc g).run m = .ok .unit ⟨m.synced, m.container, m.session + 1⟩ := by
      show Map.reload acc g m = _
      unfold Map.reload
      rw [hrun]
    exact Spec.of_ok hr ⟨h.reopened _ h.sorted h.calls, rfl⟩
  · rintro done x rest c hcalls rfl
    have hx : x ∈ indexCalls acc kbs := by rw [← hcalls]; simp
    obtain ⟨e, he, rfl⟩ := List.mem_map.mp (h.calls.mem_iff.mp hx)
    exact h.sorted.insert_eq_self ⟨e, he, rfl⟩

/-! ## 新しいファイル -/

theorem createHead_spec :
    Spec (createHead g) ⟨[]⟩
      (fun r f => r = (1, 2) ∧ f.count = 3 ∧ f.count ≤ g.maxBlocks ∧ f.field 1 0 = 0 ∧
      f.field 2 0 = 0 ∧ Header f) (fun e _ => e.isResize) := by
  unfold createHead
  refine Spec.adaptExcept (Spec.bind ((getBlock_spec g _ 2).mono ?_ ?_))
  · rintro _ f ⟨-, hc, hm⟩
    have hc3 : f.count = 3 := by simpa [File.count] using hc
    refine Spec.bind (Spec.modify (Spec.bind ((getBlock_spec_lt g (by simp [hc3])).mono ?_ (fun _ _ h => h.elim))))
    rintro _ f₁ hf₁
    have hc₁ : f₁.count = 3 := by simp [hf₁, hc3]
    have h2 : f₁.field 2 0 = 0 := by
      rw [hf₁]
      exact File.field_setField_self (by simp [hc3]) (by decide)
    refine Spec.bind (Spec.modify (Spec.bind ((getBlock_spec_lt g (by simp [hc₁])).mono ?_ (fun _ _ h => h.elim))))
    rintro _ f₂ hf₂
    have hc₂ : f₂.count = 3 := by simp [hf₂, hc₁]
    have h1 : f₂.field 1 0 = 0 := by
      rw [hf₂]
      exact File.field_setField_self (by simp [hc₁]) (by decide)
    have h2' : f₂.field 2 0 = 0 := by
      rw [hf₂, File.field, File.block_setField_ne (by decide), File.block_setSize_ne (by decide),
        File.block_setNextIndex_ne (by decide)]
      exact h2
    refine Spec.bind (Spec.modify (Spec.bind (Spec.modify (Spec.pure ?_))))
    have hout : ∀ i, i ≠ 0 → ((((f₂.setNextIndex 0 0).setSize 0 fileHeaderSize).setField 0 fhAllocatorIndex 1).setField 0
        fhFirstIndexBlock 2).block i = f₂.block i := by
      intro i hi
      rw [File.block_setField_ne hi, File.block_setField_ne hi, File.block_setSize_ne hi, File.block_setNextIndex_ne hi]
    refine ⟨rfl, by simp [hc₂], ?_, ?_, ?_, ?_, ?_, ?_⟩
    · have : f.count ≤ g.maxBlocks := hm (Nat.zero_le _)
      simpa [hc₂, hc3] using this
    · rw [File.field, hout 1 (by decide)]
      exact h1
    · rw [File.field, hout 2 (by decide)]
      exact h2'
    · rw [File.block_setField_self (by simp [hc₂]), File.block_setField_self (by simp [hc₂]),
        File.block_setSize_self (by simp [hc₂])]
    · rw [File.field, File.block_setField_self (by simp [hc₂]), File.block_setField_self (by simp [hc₂])]
      dsimp only
      rw [getField_setField_before (by decide)]
      exact getField_setField (by decide)
    · exact File.field_setField_self (by simp [hc₂]) (by decide)
  · rintro e f ⟨rfl, -⟩
    rfl

theorem load_new_spec (acc : KeyAccessor κ) (session : Nat) :
    Spec (Map.load acc g [] session) ⟨[]⟩
      (fun m _ => m.container = [] ∧ m.session = session ∧
        ∃ b free, MapInv acc g m free [(b, [])] (fun _ => []) [])
      (fun e _ => e.isResize) := by
  unfold Map.load
  refine Spec.bind (Spec.get (Spec.ite (fun _ => Spec.bind ?_) (fun he => absurd rfl he)))
  refine createHead_spec.mono ?_ (fun _ _ h => h)
  rintro _ f ⟨rfl, hc, hm, h1, h2, hh⟩
  refine Spec.bind ((create_fresh_spec h1 hm).mono ?_ (fun _ _ h => h))
  rintro a _ ⟨hr, hd, hb, hca⟩
  have hca : a.file.count = 3 := by omega
  refine Spec.bind (Spec.within ((create_index_fresh acc hr (by rw [File.field, hb]; exact h2) (by rw [hd]; decide)).mono
    ?_ (fun _ _ h => h)))
  rintro s _ ⟨b, free, hi⟩
  have hcalls : indexCalls acc [(b, ([] : List (Record κ)))] = [] := rfl
  have hinv : MapInv acc g ⟨s, [], session⟩ free [(b, [])] (fun _ => []) [] := by
    refine ⟨hi.inv, hi.stored, hi.description.trans hd, hi.descrBlock, ?_, List.Pairwise.nil,
      by simp [hcalls], by simp, by simp, ?_⟩
    · refine hh.congr ?_
      show s.file.block 0 = f.block 0
      rw [hi.frame 0 (by omega) (by rw [hd]; decide) (by decide), hb]
    · have hstart : Accounted (max a.file.count (2 + 1)) [] [] [] [] := by
        rw [hca]
        exact List.Perm.refl _
      refine (hstart.take hi.taken).perm ?_
      simp [dataBlocks]
  refine Spec.within (Spec.bind ((load_spec (P := fun done m => done = [] ∧ m = ⟨s, [], session⟩)
    hi.inv.ne_nil hi.inv.keys g.availableSize_le_mappedSize ⟨?_, ?_⟩ ⟨rfl, rfl⟩).mono ?_ (fun _ _ h => h)))
  · rintro done _ ⟨-, rfl⟩
    rfl
  · rintro done x rest _ hx -
    rw [hcalls] at hx
    simp at hx
  · rintro _ _ ⟨-, rfl⟩
    exact Spec.bind (Spec.get (Spec.pure ⟨rfl, rfl, b, free, hinv⟩))

end

section

variable {κ : Type}

/-- 要素 `e` の鎖の内容は `σ` のバイトの並びであり、`data_size_` はその長さであり、`PlainWriter` は今の `Map` のものである。 -/
structure EntryHolds (m : Map κ) (dc : κ → List Nat) (σ : κ → Option Bytes) (e : Entry κ) : Prop where
  bytes : σ e.1 = some ((dc e.1).flatMap m.file.blockBytes)
  size : e.2.1.dataSize = ((dc e.1).flatMap m.file.blockBytes).length
  session : e.2.1.session = m.session

structure MapContent (m : Map κ) (dc : κ → List Nat) (σ : κ → Option Bytes) : Prop where
  present : ∀ k, k ∈ m.container.map Prod.fst ↔ (σ k).isSome
  holds : ∀ e ∈ m.container, EntryHolds m dc σ e

variable [LinearOrder κ] {acc : KeyAccessor κ} {g : Geometry} {m m' : Map κ} {free free' leaked c' : List Nat}
  {kbs kbs' : List (Nat × List (Record κ))} {dc dc' : κ → List Nat} {k : κ} {ka : KeyAddition} {b : Nat}
  {σ σ' : κ → Option Bytes} {e : Entry κ} {w : PlainWriter} {buf : Bytes}

theorem flatMap_blockBytes_congr {f f' : File} {c : List Nat}
    (h : ∀ i ∈ c, f'.block i = f.block i) : c.flatMap f'.blockBytes = c.flatMap f.blockBytes := by
  refine List.flatMap_congr fun i hi => ?_
  simp only [File.blockBytes, h i hi]

omit [LinearOrder κ] in
theorem EntryHolds.congr (h : EntryHolds m dc σ e) (hs : m'.session = m.session) (hσ : σ' e.1 = σ e.1)
    (hd : dc' e.1 = dc e.1) (hf : ∀ i ∈ dc e.1, m'.file.block i = m.file.block i) : EntryHolds m' dc' σ' e := by
  have hb := flatMap_blockBytes_congr hf
  refine ⟨?_, ?_, h.session.trans hs.symm⟩
  · rw [hσ, hd, hb]
    exact h.bytes
  · rw [hd, hb]
    exact h.size

/-! ## 挿入 -/

theorem MapInserted.others (h : MapInserted acc g m dc leaked k m' b ka free' kbs')
    (hc : ∀ e ∈ m.container, EntryHolds m dc σ e) (hσ : ∀ j, j ≠ k → σ' j = σ j) :
    ∀ e ∈ m'.container, e.1 ≠ k → EntryHolds m' (Function.update dc k [b]) σ' e := by
  intro e he hne
  rw [h.container] at he
  rcases Container.mem_insert he with rfl | he
  · exact absurd rfl hne
  · exact (hc e he).congr h.session (hσ _ hne) (Function.update_of_ne hne _ _)
      fun i hi => h.frame i (mem_dataBlocks he hi)

theorem MapInserted.present (h : MapInserted acc g m dc leaked k m' b ka free' kbs')
    (hnew : m.container.find k = none) (j : κ) :
    j ∈ m'.container.map Prod.fst ↔ j = k ∨ j ∈ m.container.map Prod.fst := by
  have hp := (Container.insert_perm (v := (⟨b, 0, m.session⟩, ka)) (Container.find_eq_none.mp hnew)).map Prod.fst
  rw [h.container, hp.mem_iff]
  simp

theorem MapInserted.mem (h : MapInserted acc g m dc leaked k m' b ka free' kbs')
    (hnew : m.container.find k = none) : (k, ⟨b, 0, m.session⟩, ka) ∈ m'.container := by
  rw [h.container]
  exact (Container.insert_perm (Container.find_eq_none.mp hnew)).mem_iff.mpr (by simp)

theorem MapInserted.content (h : MapInserted acc g m dc leaked k m' b ka free' kbs')
    (hnew : m.container.find k = none) (hz : (m.file.block b).size = 0) (hc : MapContent m dc σ) :
    MapContent m' (Function.update dc k [b]) (Function.update σ k (some [])) := by
  refine ⟨fun j => ?_, fun e he => ?_⟩
  · rw [h.present hnew, hc.present]
    by_cases hj : j = k
    · simp [hj]
    · simp [hj]
  · by_cases hek : e.1 = k
    · have hbytes : m'.file.blockBytes b = [] := by
        rw [File.blockBytes, h.size, hz]
        rfl
      have hd : (Function.update dc k [b] e.1).flatMap m'.file.blockBytes = [] := by
        rw [hek, Function.update_self]
        simp [hbytes]
      have hmem := h.inv.sorted.find (k := e.1) (v := e.2) he
      have hfind := h.inv.sorted.find (h.mem hnew)
      rw [hek, hfind, Option.some.injEq] at hmem
      refine ⟨?_, ?_, ?_⟩
      · rw [hd, hek, Function.update_self]
      · rw [hd, ← hmem]
        rfl
      · rw [← hmem]
        exact h.session.symm
    · exact h.others hc.holds (fun j hj => Function.update_of_ne hj _ _) e he hek

theorem MapInserted.size_zero (h : MapInserted acc g m dc leaked k m' b ka free' kbs')
    (hnew : m.container.find k = none)
    (hsafe : m.index.allocator.firstFreeBlock = 0 ∨
    (m.file.block m.index.allocator.firstFreeBlock).size = 0) : (m.file.block b).size = 0 := by
  rcases h.source with hb | hb
  · rcases hsafe with h0 | hz
    · exact absurd (hb.trans h0) (h.inv.nonempty _ (h.mem hnew))
    · rw [hb]
      exact hz
  · rw [File.block_of_le hb]
    rfl

/-! ## 書き込みと削除 -/

theorem MapWritten.content (h : MapWritten acc g m kbs dc leaked k w buf m' free' c') (hs : w.session = m.session)
    (hk : k ∈ m.container.map Prod.fst) (hp : ∀ j, j ≠ k → (j ∈ m.container.map Prod.fst ↔ (σ j).isSome))
    (hc : ∀ e ∈ m.container, e.1 ≠ k → EntryHolds m dc σ e) :
    MapContent m' (Function.update dc k c') (Function.update σ k (some buf)) := by
  refine ⟨fun j => ?_, fun e he => ?_⟩
  · rw [h.container, Container.setWriter_keys]
    by_cases hj : j = k
    · simp [hj, hk]
    · rw [Function.update_of_ne hj]
      exact hp j hj
  · rw [h.container] at he
    rcases Container.mem_setWriter he with ⟨hek, hew, -⟩ | ⟨hne, he⟩
    · have hb : (Function.update dc k c' e.1).flatMap m'.file.blockBytes = buf := by
        rw [hek, Function.update_self]
        exact h.bytes
      refine ⟨?_, ?_, ?_⟩
      · rw [hb, hek, Function.update_self]
      · rw [hb, hew]
      · rw [hew]
        exact hs.trans h.session.symm
    · exact (hc e he hne).congr h.session (Function.update_of_ne hne _ _)
        (Function.update_of_ne hne _ _) (h.frame e he hne)

theorem MapContent.erase (h : MapContent m dc σ) (hcont : m'.container = m.container.erase k)
    (hs : m'.session = m.session) (hf : ∀ i ∈ dataBlocks dc m.container, m'.file.block i = m.file.block i) :
    MapContent m' dc (Function.update σ k none) := by
  refine ⟨fun j => ?_, fun e he => ?_⟩
  · have hmem : j ∈ m'.container.map Prod.fst ↔ j ∈ m.container.map Prod.fst ∧ j ≠ k := by
      rw [hcont]
      simp only [List.mem_map, Container.mem_erase]
      constructor
      · rintro ⟨e, ⟨he, hne⟩, rfl⟩
        exact ⟨⟨e, he, rfl⟩, hne⟩
      · rintro ⟨⟨e, he, rfl⟩, hne⟩
        exact ⟨e, ⟨he, hne⟩, rfl⟩
    rw [hmem, h.present]
    by_cases hj : j = k
    · simp [hj]
    · simp [hj]
  · rw [hcont] at he
    obtain ⟨he, hne⟩ := Container.mem_erase.mp he
    exact (h.holds e he).congr hs (Function.update_of_ne hne _ _) rfl fun i hi => hf i (mem_dataBlocks he hi)

omit [LinearOrder κ] in
theorem MapContent.empty (hc : m.container = []) : MapContent m dc fun _ => none :=
  ⟨fun k => by simp [hc], fun e he => by simp [hc] at he⟩

theorem MapContent.none_iff (h : MapContent m dc σ) : σ k = none ↔ m.container.find k = none := by
  have := h.present k
  rw [← Container.isSome_find] at this
  rw [← Option.not_isSome_iff_eq_none, ← Option.not_isSome_iff_eq_none]
  exact not_congr this.symm

end

end UnixCommons.PlainStorage
