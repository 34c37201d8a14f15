import Mathlib.Data.List.Perm.Subperm
import UnixCommons.PlainStorage.Lemmas.SyncIndex

/-! # 索引の読み込みの補題 -/

namespace UnixCommons.PlainStorage

open Lib

variable {κ σ : Type} {acc : KeyAccessor κ} {g : Geometry} {file : σ → File}
  {loadKey : κ → Nat → KeyAddition → EStateM Failure σ PUnit} {f : File}
  {mapped b off sz n start : Nat} {s : σ} {done : List (Call κ)}
  {kbs : List (Nat × List (Record κ))} {P : List (Call κ) → σ → Prop} {E : Failure → σ → Prop}

/-- 並び `calls` の次の記録について `load_key` を呼ぶと、`P` が一つ進む。 -/
def LoadsKey (file : σ → File) (loadKey : κ → Nat → KeyAddition → EStateM Failure σ PUnit) (f : File)
    (P : List (Call κ) → σ → Prop) (E : Failure → σ → Prop) (calls : List (Call κ)) : Prop :=
  (∀ done s, P done s → file s = f) ∧
    ∀ done x rest s, done ++ x :: rest = calls → P done s →
      Spec (loadKey x.key x.dataBlock x.addition) s (fun _ s' => P (done ++ [x]) s') E

theorem loadBlock_spec {recs : List (Record κ)} {calls rest : List (Call κ)}
    (hk : LoadsKey file loadKey f P E calls) (hr : Records acc (f.block b).content off recs)
    (hsz : recordsEnd acc off recs = sz) (hmapped : sz ≤ mapped) (hn : sz - off ≤ n)
    (hcalls : done ++ (blockCalls acc b off recs ++ rest) = calls) (h : P done s) :
    Spec (loadBlock acc file loadKey mapped b sz n off) s
      (fun _ s' => P (done ++ blockCalls acc b off recs) s') E := by
  induction recs generalizing off n done s with
  | nil =>
      obtain rfl : off = sz := hsz
      unfold loadBlock
      refine Spec.ite (fun hlt => absurd hlt (Nat.lt_irrefl _)) (fun _ => Spec.pure ?_)
      simpa [blockCalls] using h
  | cons r rs ih =>
      have hpos := @recordSize_pos κ acc r
      have hge : off + recordSize acc r ≤ sz := hsz ▸ recordsEnd_ge
      have hheader : off + keyHeaderSize ≤ off + recordSize acc r := Nat.add_le_add_left hpos off
      obtain ⟨n, rfl⟩ : ∃ m, n = m + 1 := ⟨n - 1, by omega⟩
      unfold loadBlock
      refine Spec.ite (fun _ => ?_) (fun hlt => absurd (show off < sz by omega) hlt)
      refine Spec.bind (Spec.get ?_)
      dsimp only
      rw [hk.1 _ _ h, hr.1.keySize, hr.1.mark, hr.1.dataBlock]
      refine Spec.ite (fun hout => absurd hout (by omega)) (fun _ => ?_)
      have hrest : ∀ done' s', done' ++ (blockCalls acc b (off + recordSize acc r) rs ++ rest) = calls →
          P done' s' → Spec (loadBlock acc file loadKey mapped b sz n (off + recordSize acc r)) s'
            (fun _ s'' => P (done' ++ blockCalls acc b (off + recordSize acc r) rs) s'') E := fun done' s' hc' h' =>
        ih hr.2 hsz (by omega) hc' h'
      cases hd : r.deleted with
      | true =>
          have hc' : done ++ (blockCalls acc b (off + recordSize acc r) rs ++ rest) = calls := by
            simpa [blockCalls, hd] using hcalls
          simpa [blockCalls, hd] using hrest done s hc' h
      | false =>
          have hx : done ++ ⟨r.key, r.dataBlock, ⟨b, off⟩⟩ ::
              (blockCalls acc b (off + recordSize acc r) rs ++ rest) = calls := by
            simpa [blockCalls, hd] using hcalls
          have hkey : acc.load (readBytes (f.block b).content (off + keyHeaderSize)
              (recordSize acc r - keyHeaderSize)) = r.key := by
            rw [show recordSize acc r - keyHeaderSize = acc.size r.key by simp [recordSize], hr.1.key, acc.load_save]
          refine Spec.ite (fun _ => ?_) (fun hm => absurd (by decide) hm)
          refine Spec.ite (fun hlt => absurd hlt (Nat.not_lt.mpr hpos)) (fun _ => ?_)
          refine Spec.ite (fun hout => absurd hout (by omega)) (fun _ => Spec.bind ?_)
          rw [hkey]
          refine (hk.2 done _ _ s hx h).mono (fun _ s' h' => ?_) (fun _ _ h => h)
          have := hrest _ s' (by simpa using hx) h'
          simpa [blockCalls, hd] using this

theorem loadBlocks_spec {calls rest : List (Call κ)} (hk : LoadsKey file loadKey f P E calls)
    (hc : KeyChain acc g f start kbs) (hmapped : g.availableSize ≤ mapped) (hn : kbs.length ≤ n)
    (hcalls : done ++ (indexCalls acc kbs ++ rest) = calls) (h : P done s) :
    Spec (loadBlocks acc file loadKey mapped n (if start = 0 then none else some start)) s
      (fun _ s' => P (done ++ indexCalls acc kbs) s') E := by
  induction kbs generalizing start n done s with
  | nil =>
      rw [if_pos (Chain.nil_iff.mp hc.chain)]
      unfold loadBlocks
      exact Spec.pure (by simpa [indexCalls] using h)
  | cons p K ih =>
      obtain ⟨b, recs⟩ := p
      obtain ⟨n, rfl⟩ : ∃ m, n = m + 1 := ⟨n - 1, by simp only [List.length_cons] at hn; omega⟩
      obtain rfl : start = b := hc.chain.head
      have hb0 : start ≠ 0 := hc.chain.ne_zero start (by simp)
      have hkb := hc.block (start, recs) (by simp)
      have hK : KeyChain acc g f (f.block start).nextIndex K :=
        ⟨hc.chain.tail, fun q hq => hc.block q (by simp [hq]), fun q hq => hc.lt q (by simp [hq])⟩
      rw [if_neg hb0]
      unfold loadBlocks
      refine Spec.bind (Spec.get (Spec.bind ?_))
      rw [hk.1 _ _ h]
      rw [indexCalls_cons, List.append_assoc] at hcalls
      refine (loadBlock_spec hk hkb.records hkb.size.symm (Nat.le_trans hkb.le hmapped)
        (Nat.sub_le _ _) hcalls h).mono (fun _ s' h' => ?_) (fun _ _ h => h)
      have hnext : (f.block start).nextIndex < f.count := by
        cases K with
        | nil =>
            rw [Chain.nil_iff.mp hK.chain]
            have := hc.lt (start, recs) (by simp)
            dsimp only at this
            omega
        | cons q K =>
            rw [hK.chain.head]
            exact hK.lt q (by simp)
      refine Spec.bind (Spec.observe ?_)
      rw [hk.1 _ _ h']
      refine (readNext_spec_lt hnext).mono ?_ (fun _ _ h => h.elim)
      rintro _ _ ⟨-, rfl⟩
      refine (ih hK (by simp only [List.length_cons] at hn; omega) (by simpa using hcalls) h').mono
        (fun _ s'' h'' => ?_) (fun _ _ h => h)
      simpa [indexCalls_cons] using h''

theorem KeyChain.length_le (h : KeyChain acc g f start kbs) : kbs.length ≤ f.count := by
  have hsub : kbs.map Prod.fst ⊆ List.range f.count := by
    intro i hi
    obtain ⟨p, hp, rfl⟩ := List.mem_map.mp hi
    exact List.mem_range.mpr (h.lt p hp)
  simpa using (List.subperm_of_subset h.chain.nodup hsub).length_le

theorem load_spec {E : Failure → σ → Prop} (hne : kbs ≠ []) (hc : KeyChain acc g f start kbs)
    (hmapped : g.availableSize ≤ mapped)
    (hk : LoadsKey file loadKey f P (fun e s => E (.caught .loadIndexFail e) s)
    (indexCalls acc kbs)) (h : P [] s) :
    Spec (load acc file loadKey mapped start) s (fun _ s' => P (indexCalls acc kbs) s') E := by
  have hstart : start ≠ 0 := by
    cases kbs with
    | nil => exact absurd rfl hne
    | cons p K =>
        rw [hc.chain.head]
        exact hc.chain.ne_zero p.1 (by simp)
  have hcalls : [] ++ (indexCalls acc kbs ++ []) = indexCalls acc kbs := by simp
  have hl := loadBlocks_spec (n := (file s).count) hk hc hmapped (by rw [hk.1 _ _ h]; exact hc.length_le) hcalls h
  rw [if_neg hstart] at hl
  exact Spec.adaptExcept (Spec.bind (Spec.get hl))

/-! ## 索引を開く -/

theorem create_index_spec {a : Allocator} {d : Nat} (hd : d < a.file.count)
    (hf : a.file.field d 0 = start) (h0 : start ≠ 0) (hs : start < a.file.count) :
    Spec (Index.create g d) a (fun s a' => s = ⟨a, d, start⟩ ∧ a' = a) (fun _ _ => False) := by
  unfold Index.create
  refine Spec.adaptExcept (Spec.bind (Spec.zoom ((getBlock_spec_lt g hd).mono ?_ (fun _ _ h => h))))
  rintro _ f rfl
  refine Spec.bind (Spec.get (Spec.ite (fun h => ?_) (fun _ => ?_)))
  · exact absurd (hf.symm.trans h) h0
  · refine Spec.bind (Spec.zoom ((getBlock_spec_lt g ?_).mono ?_ (fun _ _ h => h)))
    · exact lt_of_eq_of_lt hf hs
    · rintro _ f rfl
      refine Spec.bind (Spec.get (Spec.pure ⟨?_, rfl⟩))
      rw [show (Allocator.setFile a.file a).file.field d 0 = start from hf]
      rfl

structure FreshIndex (acc : KeyAccessor κ) (g : Geometry) (a : Allocator) (d : Nat)
    (s : Index) (b : Nat) (free : List Nat) : Prop where
  inv : IndexInv acc g s free [(b, [])]
  stored : s.Stored
  unused : ∀ i ∈ free, (s.file.block i).size = 0
  description : s.allocator.description = a.description
  descrBlock : s.descrBlock = d
  taken : Taken [] (max a.file.count (d + 1)) b free s.file.count
  frame : ∀ i, i < a.file.count → i ≠ a.description → i ≠ d → s.file.block i = a.file.block i

theorem create_index_fresh (acc : KeyAccessor κ) {a : Allocator} {d : Nat} (hr : a.Ready g [])
    (hf : a.file.field d 0 = 0) (hd : d ≠ a.description) :
    Spec (Index.create g d) a
      (fun s _ => ∃ b free, FreshIndex acc g a d s b free) (fun e _ => e.isResize) := by
  unfold Index.create
  refine Spec.adaptExcept (Spec.bind (Spec.zoom ((getBlock_spec g _ _).mono ?_ ?_)))
  · rintro _ f ⟨he, hc, hm⟩
    have hr₁ : (a.setFile f).Ready g [] := by
      refine ⟨hr.chain, by simp, ?_, by simp, hm hr.count_le⟩
      exact Nat.lt_of_lt_of_le hr.description_lt he.count
    have hd₁ : d < (a.setFile f).file.count := by
      show d < f.count
      omega
    refine Spec.bind (Spec.get (Spec.ite (fun _ => ?_) (fun h0 => ?_)))
    · refine Spec.bind ((allocate_spec hr₁).mono ?_ ?_)
      · rintro b a' ⟨free', ha⟩
        have hlt := ha.taken.lt
        have hb0 := ha.ne_zero hr₁
        have hnot := ha.taken.not_mem (i := d) (by simp) hd₁
        have hdesc := ha.taken.not_mem (i := a.description) (by simp) hr₁.description_lt
        simp only [List.mem_cons, not_or] at hnot hdesc
        refine Spec.bind (Spec.zoom ((getBlock_spec_lt g hlt.1).mono ?_ (fun _ _ h => h.elim)))
        rintro _ f' rfl
        refine Spec.bind (Spec.zoom (Spec.modify (Spec.bind (Spec.get (Spec.pure ?_)))))
        -- 新しいブロックは、ファイルの外にあった零のブロックである。
        have hzero : ∀ i ∈ b :: free', (a'.file.block i).size = 0 := by
          intro i hi
          rw [ha.size i]
          rcases ha.taken.mem hi with h | h
          · exact absurd h (by simp)
          · rw [File.block_of_le h]
            rfl
        have hkb : KeyBlock acc g (a'.file.block b) [] :=
          ⟨trivial, hzero b (by simp), by rw [hzero b (by simp)]; exact Nat.zero_le _⟩
        have hbn : (a'.file.block b).nextIndex = 0 := by rw [ha.block]
        have hinv : IndexInv acc g ⟨a', d, b⟩ free' [(b, [])] := by
          refine ⟨ha.ready, ⟨⟨rfl, hb0, hbn⟩, ?_, ?_⟩, by simp, ?_, ?_, ?_, hnot.2, ?_⟩
          · simp only [List.mem_singleton, forall_eq]
            exact hkb
          · simp only [List.mem_singleton, forall_eq]
            exact hlt.1
          · simpa using ha.taken.nodup (by simp)
          · simp only [List.mem_singleton, forall_eq]
            exact ⟨fun e => hdesc.1 (ha.description.symm.trans e.symm), fun e => hnot.1 e.symm⟩
          · exact Nat.lt_of_lt_of_le hd₁ hlt.2
          · exact fun e => hd (e.trans ha.description)
        refine ⟨b, free', hinv.sync, hinv.stored_sync, fun i hi => ?_, ha.description, rfl, ?_, fun i hi h1 h2 => ?_⟩
        · have hid : i ≠ d := fun e => hnot.2 (e ▸ hi)
          show ((a'.file.setField d 0 b).block i).size = 0
          rw [File.block_setField_ne hid]
          exact hzero i (by simp [hi])
        · have ht := ha.taken
          rw [show (Allocator.setFile f a).file.count = max a.file.count (d + 1) from hc] at ht
          simpa [Index.file, Allocator.setFile] using ht
        · show (a'.file.setField d 0 b).block i = a.file.block i
          rw [File.block_setField_ne h2,
            ha.frame i h1 (ha.taken.not_mem (by simp) (Nat.lt_of_lt_of_le hi he.count)), ← he.block]
          rfl
      · rintro e a' ⟨he, -⟩
        exact (Failure.isResize_caught .syncIndexFailed fun _ => rfl).trans he
    · refine absurd ?_ h0
      show File.field f d 0 = 0
      rw [File.field, he.block]
      exact hf
  · rintro e f ⟨rfl, -⟩
    rfl

/-! ## 開き直し -/

def recordKey (key : κ) (firstDataBlock : Nat) (keyAddition : KeyAddition) :
    EStateM Failure (File × List (Call κ)) PUnit :=
  modify fun p => (p.1, p.2 ++ [⟨key, firstDataBlock, keyAddition⟩])

/-- ファイルを開き直して索引を読み込み、`load_key` の呼び出しの並びを返す。 -/
def reloadCalls (acc : KeyAccessor κ) (g : Geometry) (allocatorDescr indexDescr : Nat) :
    EStateM Failure File (List (Call κ)) := do
  let a ← Allocator.create g allocatorDescr
  let s ← within Allocator.file a (Index.create g indexDescr)
  within Prod.fst (s.file, []) do
    load acc Prod.fst recordKey g.mappedSize s.firstKeysBlock
    return (← get).2

theorem reloadCalls_spec {a : Allocator} {free : List Nat} {d : Nat} (hr : a.Ready g free)
    (hd : d < a.file.count) (hda : d ≠ a.description) (hs : a.file.field d 0 = start)
    (hne : kbs ≠ []) (hc : KeyChain acc g a.file start kbs) (hk : ∀ p ∈ kbs, p.1 ≠ a.description) :
    Spec (reloadCalls acc g a.description d) a.destroy (fun calls _ => calls = indexCalls acc kbs)
      (fun _ _ => False) := by
  have hstart : start ≠ 0 ∧ start < a.sync.file.count := by
    cases kbs with
    | nil => exact absurd rfl hne
    | cons p K =>
        rw [hc.chain.head]
        exact ⟨hc.chain.ne_zero p.1 (by simp), by simpa [Allocator.sync] using hc.lt p (by simp)⟩
  have hc' : KeyChain acc g a.sync.file start kbs :=
    hc.congr (fun p hp => Allocator.sync_block_ne (hk p hp)) (by simp [Allocator.sync])
  have hs' : a.sync.file.field d 0 = start := by
    rw [File.field, Allocator.sync_block_ne hda]
    exact hs
  unfold reloadCalls
  refine Spec.bind ((create_destroy_spec hr).mono ?_ (fun _ _ h => h))
  rintro _ _ rfl
  refine Spec.bind (Spec.within ((create_index_spec (by simpa [Allocator.sync] using hd) hs' hstart.1
    hstart.2).mono ?_ (fun _ _ h => h)))
  rintro _ _ ⟨rfl, rfl⟩
  refine Spec.within (Spec.bind ((load_spec (P := fun done p => p = (a.sync.file, done)) hne hc'
    g.availableSize_le_mappedSize ⟨?_, ?_⟩ rfl).mono
    ?_ (fun _ _ h => h)))
  · rintro done _ rfl
    rfl
  · rintro done x rest _ - rfl
    exact Spec.modify rfl
  · rintro _ _ rfl
    exact Spec.bind (Spec.get (Spec.pure rfl))

end UnixCommons.PlainStorage
