import Mathlib.Data.List.Perm.Subperm
import UnixCommons.PlainStorage.Lemmas.Allocator
import UnixCommons.PlainStorage.SyncIndex

/-! # 鎖の読み書きの補題 -/

namespace UnixCommons.PlainStorage

open Lib

variable {g : Geometry} {a a' : Allocator} {free free' c rest own own' : List Nat} {f : File}
  {start cur n off : Nat} {buf : Bytes}

/-- 番号 `start` から始まる鎖 `c` を、空きと交わらずに持っている。 -/
structure Held (g : Geometry) (a : Allocator) (free : List Nat) (start : Nat) (c : List Nat) : Prop where
  ready : a.Ready g free
  free_lt : ∀ i ∈ free, i < a.file.count
  chain : Chain a.file.nextOf start c
  lt : ∀ i ∈ c, i < a.file.count
  not_free : ∀ i ∈ c, i ∉ free
  not_description : ∀ i ∈ c, i ≠ a.description

theorem Held.frame (h : Held g a free start c) (hr : a'.Ready g free') (he : Effect a own a' own')
    (hc : ∀ i ∈ c, i ∉ own) (hf : ∀ i ∈ free', i ∈ own') (hl : ∀ i ∈ free', i < a'.file.count) :
    Held g a' free' start c where
  ready := hr
  free_lt := hl
  chain := h.chain.congr fun i hi => congrArg Block.nextIndex (he.frame i (h.lt i hi) (h.not_description i hi) (hc i hi))
  lt i hi := Nat.lt_of_lt_of_le (h.lt i hi) he.count
  not_free i hi hm := he.not_mem (h.lt i hi) (hc i hi) (hf i hm)
  not_description i hi := by rw [he.description]; exact h.not_description i hi

theorem Held.setFile {c' : List Nat} (h : Held g a free start c) (hc : f.count = a.file.count)
    (hf : ∀ i, i ∉ c → f.block i = a.file.block i) (hch : Chain f.nextOf start c')
    (hsub : ∀ i ∈ c', i ∈ c) : Held g (a.setFile f) free start c' where
  ready := by
    refine ⟨h.ready.chain.congr fun i hi => congrArg Block.nextIndex
      (hf i fun hm => h.not_free i hm hi), ?_, ?_, h.ready.description_free, ?_⟩
    · intro i hi
      show i ≤ f.count
      rw [hc]
      exact h.ready.le_count i hi
    · show a.description < f.count
      rw [hc]
      exact h.ready.description_lt
    · show f.count ≤ g.maxBlocks
      rw [hc]
      exact h.ready.count_le
  free_lt i hi := by
    show i < f.count
    rw [hc]
    exact h.free_lt i hi
  chain := hch
  lt i hi := by
    show i < f.count
    rw [hc]
    exact h.lt i (hsub i hi)
  not_free i hi := h.not_free i (hsub i hi)
  not_description i hi := h.not_description i (hsub i hi)

theorem Held.next_lt (h : Held g a free start (c ++ cur :: rest)) :
    a.file.nextOf cur < a.file.count ∧ Chain a.file.nextOf (a.file.nextOf cur) rest := by
  have hd := h.chain.drop
  refine ⟨?_, hd⟩
  cases rest with
  | nil =>
      rw [Chain.nil_iff.mp hd]
      exact h.ready.pos
  | cons r rest =>
      rw [hd.head]
      exact h.lt r (by simp)

theorem deallocLoop_spec (h : Held g a free start c) (hn : c.length ≤ n) :
    Spec (deallocLoop g n (if start = 0 then none else some start)) a
      (fun _ a' => a'.Ready g (c.reverse ++ free) ∧ (∀ i ∈ c.reverse ++ free, i < a'.file.count) ∧
        Effect a (c ++ free) a' (c.reverse ++ free))
      (fun _ _ => False) := by
  induction c generalizing a free start n with
  | nil =>
      rw [if_pos (Chain.nil_iff.mp h.chain)]
      unfold deallocLoop
      exact Spec.pure ⟨h.ready, h.free_lt, Effect.refl a free⟩
  | cons b c ih =>
      obtain rfl : start = b := h.chain.head
      obtain ⟨n, rfl⟩ : ∃ m, n = m + 1 := ⟨n - 1, by simp only [List.length_cons] at hn; omega⟩
      have hb0 : start ≠ 0 := h.chain.ne_zero start (by simp)
      have hlt : start < a.file.count := h.lt start (by simp)
      have hbf : start ∉ free := h.not_free start (by simp)
      have hbc : start ∉ c := (List.nodup_cons.mp h.chain.nodup).1
      obtain ⟨hnlt, hnext⟩ := h.next_lt (c := [])
      rw [if_neg hb0]
      unfold deallocLoop
      refine Spec.bind (Spec.zoom ((next_spec_lt g hnlt).mono ?_ (fun _ _ h => h)))
      rintro _ _ ⟨rfl, rfl⟩
      refine Spec.bind ((deallocate_spec h.ready hlt hb0 hbf (h.not_description start (by simp))).mono ?_
        (fun _ _ h => h))
      rintro _ a₁ ⟨hr, hcount, hdesc, -, -, hfr⟩
      have he : Effect a (start :: free) a₁ (start :: free) := by
        refine ⟨hdesc, Nat.le_of_eq hcount.symm, by simp [hcount], fun i _ hi ho => hfr i hi ?_⟩
        exact fun e => ho (by simp [e])
      have hlt₁ : ∀ i ∈ start :: free, i < a₁.file.count := by
        intro i hi
        rw [hcount]
        rcases List.mem_cons.mp hi with rfl | hi
        · exact hlt
        · exact h.free_lt i hi
      have hheld : Held g a free (a.file.nextOf start) c :=
        ⟨h.ready, h.free_lt, hnext, fun i hi => h.lt i (by simp [hi]), fun i hi => h.not_free i
          (by simp [hi]), fun i hi => h.not_description i (by simp [hi])⟩
      have hheld₁ : Held g a₁ (start :: free) (a.file.nextOf start) c := by
        refine hheld.frame hr he (fun i hi hm => ?_) (fun i hi => hi) hlt₁
        rcases List.mem_cons.mp hm with rfl | hm
        · exact hbc hi
        · exact h.not_free i (by simp [hi]) hm
      refine (ih hheld₁ (by simp only [List.length_cons] at hn; omega)).mono ?_ (fun _ _ h => h)
      rintro _ a₂ hafter
      have h1 : Effect a (c ++ start :: free) a₁ (c ++ start :: free) := he.append c
      rw [List.reverse_cons, List.append_assoc, List.singleton_append]
      exact ⟨hafter.1, hafter.2.1, (h1.trans hafter.2.2).perm List.perm_middle (List.Perm.refl _)⟩

/-! ## 書き込み -/

structure Advanced (g : Geometry) (a : Allocator) (free : List Nat) (cur : Nat)
    (rest : List Nat) (r : Nat) (a' : Allocator) (free' rest' : List Nat) : Prop where
  held : Held g a' free' cur (cur :: r :: rest')
  effect : Effect a (cur :: rest ++ free) a' (cur :: r :: rest' ++ free')
  bytes : a'.file.blockBytes cur = a.file.blockBytes cur
  extended : rest = r :: rest' ∧ free' = free ∨ rest = [] ∧ rest' = []

theorem Allocated.advanced {b : Nat} (h : Held g a free cur [cur]) (ha : Allocated g a free b a' free') :
    Advanced g a free cur [] b (a'.setFile ((a'.file.setNextIndex cur b).setNextIndex b 0)) free' [] := by
  have hb0 := ha.ne_zero h.ready
  have hlt := ha.taken.lt
  have hbf := ha.taken.nodup h.ready.chain.nodup
  have hcur0 : cur ≠ 0 := h.chain.ne_zero cur (by simp)
  have hcd : cur ≠ a.description := h.not_description cur (by simp)
  have hcurlt : cur < a'.file.count := Nat.lt_of_lt_of_le (h.lt cur (by simp)) hlt.2
  have hcnot := ha.taken.not_mem (h.not_free cur (by simp)) (h.lt cur (by simp))
  have hdesc := ha.taken.not_mem h.ready.description_free h.ready.description_lt
  simp only [List.mem_cons, not_or] at hcnot hdesc
  have hcur : ((a'.file.setNextIndex cur b).setNextIndex b 0).block cur =
      { a.file.block cur with nextIndex := b } := by
    rw [File.block_setNextIndex_ne hcnot.1, File.block_setNextIndex_self hcurlt,
      ha.frame cur hcd (by simp [hcnot])]
  have hnext : ((a'.file.setNextIndex cur b).setNextIndex b 0).nextOf b = 0 := by
    rw [File.nextOf, File.block_setNextIndex_self (by simpa using hlt.1)]
  have hne : ∀ i, i ∉ cur :: b :: free' →
      ((a'.file.setNextIndex cur b).setNextIndex b 0).block i = a'.file.block i := by
    intro i hi
    simp only [List.mem_cons, not_or] at hi
    rw [File.block_setNextIndex_ne hi.2.1, File.block_setNextIndex_ne hi.1]
  have he := (ha.effect h.free_lt).append [cur]
  have hw : Effect a' (cur :: b :: free') (a'.setFile ((a'.file.setNextIndex cur b).setNextIndex b 0))
      (cur :: b :: free') := Effect.write (by simp) hne
  have hlt' := (ha.effect h.free_lt).lt h.free_lt
  have hcount : ((a'.file.setNextIndex cur b).setNextIndex b 0).count = a'.file.count := by simp
  refine ⟨⟨⟨?_, ?_, ?_, ?_, ?_⟩, ?_, ⟨rfl, hcur0, ?_, hb0, hnext⟩, ?_, ?_, ?_⟩, he.trans hw, ?_, Or.inr ⟨rfl, rfl⟩⟩
  · refine ha.ready.chain.congr fun i hi => congrArg Block.nextIndex ?_
    have hib : i ≠ b := fun e => hbf (e ▸ hi)
    have hic : i ≠ cur := fun e => hcnot.2 (e ▸ hi)
    show ((a'.file.setNextIndex cur b).setNextIndex b 0).block i = _
    rw [File.block_setNextIndex_ne hib, File.block_setNextIndex_ne hic]
  · intro i hi
    exact hcount ▸ ha.ready.le_count i hi
  · exact hcount ▸ ha.ready.description_lt
  · exact ha.ready.description_free
  · exact hcount ▸ ha.ready.count_le
  · intro i hi
    exact hcount ▸ hlt' i (by simp [hi])
  · show (((a'.file.setNextIndex cur b).setNextIndex b 0).block cur).nextIndex = b
    rw [hcur]
  · intro i hi
    simp only [List.mem_cons, List.not_mem_nil, or_false] at hi
    rcases hi with rfl | rfl
    · exact hcount ▸ hcurlt
    · exact hcount ▸ hlt.1
  · intro i hi
    simp only [List.mem_cons, List.not_mem_nil, or_false] at hi
    rcases hi with rfl | rfl
    · exact hcnot.2
    · exact hbf
  · intro i hi
    simp only [List.mem_cons, List.not_mem_nil, or_false] at hi
    rcases hi with rfl | rfl
    · exact fun e => hcd (e.trans ha.description)
    · exact fun e => hdesc.1 (ha.description.symm.trans e.symm)
  · show readBytes (((a'.file.setNextIndex cur b).setNextIndex b 0).block cur).content 0
      (((a'.file.setNextIndex cur b).setNextIndex b 0).block cur).size = _
    rw [hcur]
    rfl

theorem advance_spec (h : Held g a free cur (cur :: rest)) :
    Spec (advance g cur) a (fun r a' => ∃ free' rest', Advanced g a free cur rest r a' free' rest')
      (fun e _ => e.isResize ∧ rest = []) := by
  obtain ⟨hnlt, hnext⟩ := h.next_lt (c := [])
  have hcur0 : cur ≠ 0 := h.chain.ne_zero cur (by simp)
  unfold advance
  refine Spec.bind (Spec.get (Spec.ite (fun h0 => ?_) (fun h0 => ?_)))
  · -- 鎖の終わりである。
    obtain rfl : rest = [] := by
      rw [show a.file.nextOf cur = 0 from h0] at hnext
      exact hnext.eq_nil
    refine Spec.bind ((allocate_spec h.ready).mono ?_ (fun _ _ h => ⟨h.1, rfl⟩))
    rintro b a' ⟨free', ha⟩
    have hlt := ha.taken.lt
    have hb0 := ha.ne_zero h.ready
    have hcurlt : cur < a'.file.count := Nat.lt_of_lt_of_le (h.lt cur (by simp)) hlt.2
    have hn : ((a'.file.setNextIndex cur b).block cur).nextIndex = b := by
      rw [File.block_setNextIndex_self hcurlt]
    refine Spec.bind (Spec.zoom (Spec.modify (Spec.bind (Spec.zoom ((next_spec_lt g ?_).mono ?_ (fun _ _ h => h.elim))))))
    · exact lt_of_eq_of_lt hn (by simpa [Allocator.setFile] using hlt.1)
    · rintro _ _ ⟨rfl, rfl⟩
      rw [show (((Allocator.setFile (a'.file.setNextIndex cur b) a').file).block cur).nextIndex = b from hn, if_neg hb0]
      exact Spec.bind (Spec.zoom (Spec.modify (Spec.pure ⟨free', [], ha.advanced h⟩)))
  · refine Spec.bind (Spec.zoom ((next_spec_lt g hnlt).mono ?_ (fun _ _ h => h.elim)))
    rintro _ _ ⟨rfl, rfl⟩
    rw [if_neg h0]
    obtain ⟨rest', rfl⟩ := hnext.cons_of_ne_zero h0
    exact Spec.pure ⟨free, rest', h, Effect.refl a _, rfl, Or.inl ⟨rfl, rfl⟩⟩

theorem Held.fill (bs : Bytes) (h : Held g a free cur (cur :: rest)) :
    let f := a.file.setSize cur bs.length
    let f' := f.setContent cur (writeBytes (f.block cur).content 0 bs)
    Held g (a.setFile f') free cur (cur :: rest) ∧
      Effect a (cur :: rest ++ free) (a.setFile f') (cur :: rest ++ free) ∧ f'.blockBytes cur = bs := by
  intro f f'
  have hlt : cur < a.file.count := h.lt cur (by simp)
  have hne : ∀ i, i ≠ cur → f'.block i = a.file.block i := by
    intro i hi
    rw [File.block_setContent_ne hi, File.block_setSize_ne hi]
  have hself : f'.block cur = { a.file.block cur with
      size := bs.length, content := writeBytes (a.file.block cur).content 0 bs } := by
    rw [File.block_setContent_self (by simpa [f] using hlt), File.block_setSize_self hlt]
  have hc : f'.count = a.file.count := by simp [f', f]
  have hnext : f'.nextOf = a.file.nextOf := by
    funext i
    by_cases hi : i = cur
    · subst hi
      rw [File.nextOf, hself]
      rfl
    · exact congrArg Block.nextIndex (hne i hi)
  refine ⟨h.setFile hc (fun i hi => hne i fun e => hi (by simp [e])) (hnext ▸ h.chain)
    (fun i hi => hi), Effect.write hc (fun i hi => hne i fun e => hi (by simp [e])), ?_⟩
  rw [File.blockBytes, hself]
  exact readBytes_writeBytes

theorem Held.tail {r : Nat} (h : Held g a free cur (cur :: r :: rest)) : Held g a free r (r :: rest) := by
  obtain ⟨-, hnext⟩ := h.next_lt (c := [])
  exact ⟨h.ready, h.free_lt, hnext.head ▸ hnext, fun i hi => h.lt i (List.mem_cons_of_mem _ hi),
    fun i hi => h.not_free i (List.mem_cons_of_mem _ hi), fun i hi => h.not_description i (List.mem_cons_of_mem _ hi)⟩

theorem Held.not_mem_tail {r : Nat} (h : Held g a free cur (cur :: r :: rest)) : cur ∉ r :: rest ++ free := by
  intro hm
  rcases List.mem_append.mp hm with hm | hm
  · exact (List.nodup_cons.mp h.chain.nodup).1 hm
  · exact h.not_free cur (by simp) hm

theorem Held.clear (h : Held g a free cur (cur :: rest)) :
    let f := a.file.setSize cur 0
    Held g (a.setFile f) free cur (cur :: rest) ∧
      Effect a (cur :: rest ++ free) (a.setFile f) (cur :: rest ++ free) ∧ f.blockBytes cur = [] := by
  intro f
  have hlt : cur < a.file.count := h.lt cur (by simp)
  have hne : ∀ i, i ≠ cur → f.block i = a.file.block i := fun i hi => File.block_setSize_ne hi
  have hself : f.block cur = { a.file.block cur with size := 0 } := File.block_setSize_self hlt
  have hc : f.count = a.file.count := by simp [f]
  have hnext : f.nextOf = a.file.nextOf := by
    funext i
    by_cases hi : i = cur
    · subst hi
      rw [File.nextOf, hself]
      rfl
    · exact congrArg Block.nextIndex (hne i hi)
  refine ⟨h.setFile hc (fun i hi => hne i fun e => hi (by simp [e])) (hnext ▸ h.chain)
    (fun i hi => hi), Effect.write hc (fun i hi => hne i fun e => hi (by simp [e])), ?_⟩
  rw [File.blockBytes, hself]
  rfl

def Geometry.blocksFor (g : Geometry) (size : Nat) : Nat :=
  max 1 ((size + g.availableSize - 1) / g.availableSize)

theorem Geometry.blocksFor_of_le {size : Nat} (hg : 0 < g.availableSize)
    (h : size ≤ g.availableSize) : g.blocksFor size = 1 := by
  have hlt : (size + g.availableSize - 1) / g.availableSize < 2 := (Nat.div_lt_iff_lt_mul hg).mpr (by omega)
  unfold Geometry.blocksFor
  omega

theorem Geometry.blocksFor_of_lt {size : Nat} (hg : 0 < g.availableSize)
    (h : g.availableSize < size) : g.blocksFor size = g.blocksFor (size - g.availableSize) + 1 := by
  have hsplit : size + g.availableSize - 1 = size - g.availableSize + g.availableSize - 1 + g.availableSize := by omega
  have hpos : 0 < (size - g.availableSize + g.availableSize - 1) / g.availableSize := Nat.div_pos (by omega) hg
  unfold Geometry.blocksFor
  rw [hsplit, Nat.add_div_right _ hg]
  omega

inductive Rechained (old free : List Nat) : List Nat → List Nat → List Nat → Prop
  | reused {written rest : List Nat} (split : old = written ++ rest) : Rechained old free written rest free
  | extended {added free' : List Nat} : Rechained old free (old ++ added) [] free'

theorem Rechained.cons {free₁ free₂ written : List Nat} {r : Nat} (hne : written ≠ [])
    (hadv : rest = r :: own ∧ free₁ = free ∨ rest = [] ∧ own = []) (h : Rechained (r :: own) free₁ written own' free₂) :
    Rechained (cur :: rest) free (cur :: written) own' free₂ := by
  rcases hadv with ⟨rfl, rfl⟩ | ⟨rfl, rfl⟩
  · cases h with
    | reused split => exact .reused (congrArg (cur :: ·) split)
    | extended => exact (Rechained.extended : Rechained (cur :: r :: own) _ (cur :: r :: own ++ _) [] _)
  · cases h with
    | reused split =>
        rcases List.append_eq_singleton_iff.mp split.symm with ⟨hnil, -⟩ | ⟨rfl, rfl⟩
        · exact absurd hnil hne
        · exact (Rechained.extended : Rechained [cur] _ ([cur] ++ _) [] _)
    | extended => exact (Rechained.extended : Rechained [cur] _ ([cur] ++ _) [] _)

theorem writeLoop_spec (h : Held g a free cur (cur :: rest)) (hg : 0 < g.availableSize)
    (hoff : off < buf.length) (hn : buf.length - off ≤ n) :
    Spec (writeLoop g buf n off cur) a
      (fun r a' => ∃ w rest' free', Held g a' free' cur (w ++ r :: rest') ∧
        Effect a (cur :: rest ++ free) a' (w ++ r :: rest' ++ free') ∧
        (w ++ [r]).flatMap a'.file.blockBytes = buf.drop off ∧
        (w ++ [r]).length = g.blocksFor (buf.length - off) ∧ Rechained (cur :: rest) free (w ++ [r]) rest' free')
      (fun e _ => e.isResize ∧ (cur :: rest).length < g.blocksFor (buf.length - off)) := by
  induction n generalizing a free cur rest off with
  | zero => omega
  | succ n ih =>
      unfold writeLoop
      refine Spec.ite (fun _ => ?_) (fun hlt => absurd hoff hlt)
      have hlen : ((buf.drop off).take (min g.availableSize (buf.length - off))).length =
          min g.availableSize (buf.length - off) := by
        rw [List.length_take, List.length_drop]
        omega
      obtain ⟨hheld, heff, hbytes⟩ := h.fill ((buf.drop off).take (min g.availableSize (buf.length - off)))
      rw [hlen] at hheld heff hbytes
      refine Spec.bind (Spec.zoom (Spec.modify (Spec.bind (Spec.zoom (Spec.modify
        (Spec.ite (fun hmore => ?_) (fun hend => ?_)))))))
      · have hmin : min g.availableSize (buf.length - off) = g.availableSize := by omega
        have hblocks : g.blocksFor (buf.length - off) =
            g.blocksFor (buf.length - (off + min g.availableSize (buf.length - off))) + 1 := by
          rw [hmin, Nat.sub_add_eq]
          exact Geometry.blocksFor_of_lt hg (by omega)
        have hpos : 1 ≤ g.blocksFor (buf.length - (off + min g.availableSize (buf.length - off))) := le_max_left ..
        refine Spec.bind ((advance_spec hheld).mono ?_ ?_)
        rotate_left
        · rintro e a₂ ⟨he, rfl⟩
          exact ⟨he, by rw [hblocks, List.length_singleton]; omega⟩
        rintro r a₂ ⟨free₂, rest₂, hadv⟩
        refine (ih hadv.held.tail hmore (by omega)).mono ?_ ?_
        rotate_left
        · rintro e a₃ ⟨he, hshort⟩
          refine ⟨he, ?_⟩
          rcases hadv.extended with ⟨rfl, -⟩ | ⟨rfl, -⟩
          · rw [hblocks, List.length_cons]
            omega
          · rw [hblocks, List.length_singleton]
            omega
        rintro r' a₃ ⟨w, rest', free', hheld₃, heff₃, hbytes₃, hlength₃, hrechained₃⟩
        have hnot := hadv.held.not_mem_tail
        have hcur := heff₃.frame cur (hadv.held.lt cur (by simp)) (hadv.held.not_description cur (by simp)) hnot
        have hnext₂ : a₂.file.nextOf cur = r := (hadv.held.chain.tail).head
        refine ⟨cur :: w, rest', free', ⟨hheld₃.ready, hheld₃.free_lt, ⟨rfl, h.chain.ne_zero cur (by simp), ?_⟩,
          ?_, ?_, ?_⟩, (heff.trans hadv.effect).trans (heff₃.append [cur]), ?_, ?_, hrechained₃.cons (by simp) hadv.extended⟩
        · rw [File.nextOf, hcur, show (a₂.file.block cur).nextIndex = r from hnext₂]
          exact hheld₃.chain
        · intro i hi
          rcases List.mem_cons.mp hi with rfl | hi
          · exact Nat.lt_of_lt_of_le (hadv.held.lt i (by simp)) heff₃.count
          · exact hheld₃.lt i hi
        · intro i hi
          rcases List.mem_cons.mp hi with rfl | hi
          · exact fun hm => heff₃.not_mem (hadv.held.lt i (by simp)) hnot (List.mem_append_right _ hm)
          · exact hheld₃.not_free i hi
        · intro i hi
          rcases List.mem_cons.mp hi with rfl | hi
          · rw [heff₃.description]
            exact hadv.held.not_description i (by simp)
          · exact hheld₃.not_description i hi
        · have hb : a₃.file.blockBytes cur = (buf.drop off).take (min g.availableSize (buf.length - off)) := by
            rw [File.blockBytes, hcur]
            exact hadv.bytes.trans hbytes
          rw [List.cons_append, List.flatMap_cons, hbytes₃, hb, ← List.drop_drop, List.take_append_drop]
        · rw [List.cons_append, List.length_cons, hlength₃, hblocks]
      · have hdone : min g.availableSize (buf.length - off) = buf.length - off := by omega
        unfold writeLoop
        refine Spec.ite (fun hlt => absurd hlt hend) (fun _ => Spec.pure ?_)
        refine ⟨[], rest, free, hheld, heff, ?_, (Geometry.blocksFor_of_le hg (by omega)).symm, .reused rfl⟩
        simp only [List.nil_append, List.flatMap_cons, List.flatMap_nil, List.append_nil]
        refine hbytes.trans ?_
        rw [hdone]
        exact List.take_of_length_le (by simp)

theorem Held.cut {w : List Nat} {r : Nat} (h : Held g a free start (w ++ r :: rest)) :
    let a' := a.setFile (a.file.setNextIndex r 0)
    Held g a' free start (w ++ [r]) ∧ Held g a' free (a.file.nextOf r) rest ∧
      Effect a (w ++ r :: rest ++ free) a' (w ++ r :: rest ++ free) ∧
      ∀ i, a'.file.blockBytes i = a.file.blockBytes i := by
  intro a'
  have hrlt : r < a.file.count := h.lt r (by simp)
  have hnd := h.chain.nodup
  simp only [List.nodup_append, List.nodup_cons] at hnd
  have hne : ∀ i, i ≠ r → (a.file.setNextIndex r 0).block i = a.file.block i :=
    fun i hi => File.block_setNextIndex_ne hi
  have hself : (a.file.setNextIndex r 0).nextOf r = 0 := by
    rw [File.nextOf, File.block_setNextIndex_self hrlt]
  have hout : ∀ i, i ∉ w ++ r :: rest → (a.file.setNextIndex r 0).block i = a.file.block i :=
    fun i hi => hne i fun e => hi (by simp [e])
  have hs : Held g a' free start (w ++ [r]) := by
    refine h.setFile (by simp) hout ?_ (fun i hi => ?_)
    · exact h.chain.relink (fun y hy => congrArg Block.nextIndex
        (hne y fun e => hnd.2.2 y hy r (by simp) e)) (Chain.nil_iff.mpr hself)
    · rcases List.mem_append.mp hi with hi | hi
      · exact List.mem_append_left _ hi
      · rw [List.mem_singleton.mp hi]
        simp
  have hrest : Held g a' free (a.file.nextOf r) rest := by
    refine ⟨hs.ready, hs.free_lt, h.next_lt.2.congr fun y hy => congrArg Block.nextIndex (hne y fun e => ?_), ?_, ?_, ?_⟩
    · exact hnd.2.1.1 (e ▸ hy)
    · intro i hi
      simpa [a', Allocator.setFile] using h.lt i (by simp [hi])
    · exact fun i hi => h.not_free i (by simp [hi])
    · exact fun i hi => h.not_description i (by simp [hi])
  refine ⟨hs, hrest, Effect.write (by simp) (fun i hi => hout i fun hm => hi (List.mem_append_left _ hm)), fun i => ?_⟩
  · show readBytes ((a.file.setNextIndex r 0).block i).content 0 ((a.file.setNextIndex r 0).block i).size = _
    by_cases hi : i = r
    · subst hi
      rw [File.block_setNextIndex_self hrlt]
      rfl
    · rw [hne i hi]
      rfl

theorem writeData_spec (h : Held g a free start (start :: rest)) (hg : 0 < g.availableSize) :
    Spec (writeData g start buf) a
      (fun r a' => ∃ c' s' rest' free', r = (if s' = 0 then none else some s') ∧
        Held g a' free' start (start :: c') ∧ Held g a' free' s' rest' ∧
        (∀ i ∈ start :: c', i ∉ rest') ∧
        Effect a (start :: rest ++ free) a' (start :: c' ++ (rest' ++ free')) ∧
        (start :: c').flatMap a'.file.blockBytes = buf ∧
        (start :: c').length = g.blocksFor buf.length ∧ Rechained (start :: rest) free (start :: c') rest' free')
      (fun e _ => e.isResize ∧ (start :: rest).length < g.blocksFor buf.length) := by
  have hlt : start < a.file.count := h.lt start (by simp)
  -- 書き終えた鎖を切る部分は、長さによらない。
  have hfinish : ∀ (r : Nat) (a₁ : Allocator) (w rest₁ free₁ : List Nat),
      Held g a₁ free₁ start (w ++ r :: rest₁) → Effect a (start :: rest ++ free) a₁
      (w ++ r :: rest₁ ++ free₁) → (w ++ [r]).flatMap a₁.file.blockBytes = buf → (w ++ [r]).length =
      g.blocksFor buf.length → Rechained (start :: rest) free (w ++ [r]) rest₁ free₁ → Spec (do
        let deallocCur ← onFile (next g r)
        onFile (modify fun f => f.setNextIndex r 0)
        return deallocCur) a₁
      (fun r a' => ∃ c' s' rest' free', r = (if s' = 0 then none else some s') ∧
        Held g a' free' start (start :: c') ∧ Held g a' free' s' rest' ∧
        (∀ i ∈ start :: c', i ∉ rest') ∧ Effect a (start :: rest ++ free) a'
        (start :: c' ++ (rest' ++ free')) ∧ (start :: c').flatMap a'.file.blockBytes = buf ∧
        (start :: c').length = g.blocksFor buf.length ∧ Rechained (start :: rest) free (start :: c') rest' free')
      (fun e _ => e.isResize ∧ (start :: rest).length < g.blocksFor buf.length) := by
    intro r a₁ w rest₁ free₁ hheld heff hbytes hlength hrechained
    obtain ⟨hcut, hrest, hceff, hcbytes⟩ := hheld.cut
    have hnd := hheld.chain.nodup
    simp only [List.nodup_append, List.nodup_cons] at hnd
    refine Spec.bind (Spec.zoom ((next_spec_lt g hheld.next_lt.1).mono ?_ (fun _ _ h => h.elim)))
    rintro _ _ ⟨rfl, rfl⟩
    refine Spec.bind (Spec.zoom (Spec.modify (Spec.pure ?_)))
    obtain ⟨c', hc'⟩ := hcut.chain.cons_of_ne_zero (h.chain.ne_zero start (by simp))
    refine ⟨c', a₁.file.nextOf r, rest₁, free₁, rfl, hc' ▸ hcut, hrest, fun i hi hm => ?_, ?_, ?_,
      hc' ▸ hlength, hc' ▸ hrechained⟩
    · rw [← hc', List.mem_append, List.mem_singleton] at hi
      rcases hi with hi | rfl
      · exact hnd.2.2 i hi i (by simp [hm]) rfl
      · exact hnd.2.1.1 hm
    · have hp : (w ++ r :: rest₁ ++ free₁).Perm (start :: c' ++ (rest₁ ++ free₁)) := by
        rw [← hc']
        simp
      exact (heff.trans hceff).perm (List.Perm.refl _) hp
    · rw [← hc', ← hbytes]
      exact List.flatMap_congr fun i _ => hcbytes i
  unfold writeData
  refine Spec.bind (Spec.zoom ((getBlock_spec_lt g hlt).mono ?_ (fun _ _ h => h.elim)))
  rintro _ f rfl
  refine Spec.ite (fun hne => Spec.bind ?_) (fun he => ?_)
  · refine (writeLoop_spec h hg (by omega) (by omega)).mono ?_ (fun _ _ h => h)
    rintro r a₁ ⟨w, rest₁, free₁, hheld, heff, hbytes, hlength, hrechained⟩
    exact hfinish r a₁ w rest₁ free₁ hheld heff (by simpa using hbytes) hlength hrechained
  · obtain rfl : buf = [] := List.length_eq_zero_iff.mp (by simpa using he)
    refine Spec.bind (Spec.zoom (Spec.modify (Spec.bind (Spec.pure ?_))))
    obtain ⟨hheld, heff, hbytes⟩ := h.clear
    exact hfinish start _ [] rest free hheld heff (by simpa [Allocator.setFile] using hbytes)
      (Geometry.blocksFor_of_le hg (Nat.zero_le _)).symm (.reused rfl)

theorem writeI_spec {w : PlainWriter}
    (h : Held g a free w.firstBlockIndex (w.firstBlockIndex :: rest)) (hg : 0 < g.availableSize) :
    Spec (PlainWriter.writeI g buf) ⟨a, w⟩
      (fun _ s' => s'.writer = { w with dataSize := buf.length } ∧ ∃ c' cut free',
        Held g s'.allocator (cut.reverse ++ free') w.firstBlockIndex (w.firstBlockIndex :: c') ∧
        Effect a (w.firstBlockIndex :: rest ++ free) s'.allocator (w.firstBlockIndex :: c' ++ (cut.reverse ++ free')) ∧
        (w.firstBlockIndex :: c').flatMap s'.allocator.file.blockBytes = buf ∧
        (w.firstBlockIndex :: c').length = g.blocksFor buf.length ∧
        Rechained (w.firstBlockIndex :: rest) free (w.firstBlockIndex :: c') cut free')
      (fun e _ => e.isResize ∧ (w.firstBlockIndex :: rest).length < g.blocksFor buf.length) := by
  unfold PlainWriter.writeI
  refine Spec.adaptExcept (Spec.bind (Spec.get (Spec.bind (Spec.zoom ((writeData_spec h hg).mono ?_ ?_)))))
  · rintro _ a₁ ⟨c', s', rest', free', rfl, hheld, hrest, hdisj, heff, hbytes, hwritten⟩
    refine Spec.bind (Spec.modify (Spec.bind (Spec.get (Spec.zoom ((deallocLoop_spec hrest ?_).mono ?_
      (fun _ _ h => h.elim))))))
    · have hsub : rest' ⊆ List.range a₁.file.count := fun i hi => List.mem_range.mpr (hrest.lt i hi)
      simpa [Writing.setAllocator] using (List.subperm_of_subset hrest.chain.nodup hsub).length_le
    · rintro _ a₂ ⟨hr₂, hlt₂, heff₂⟩
      have hout : ∀ i ∈ w.firstBlockIndex :: c', i ∉ rest' ++ free' := by
        intro i hi hm
        rcases List.mem_append.mp hm with hm | hm
        · exact hdisj i hi hm
        · exact hheld.not_free i hi hm
      refine ⟨rfl, c', rest', free', hheld.frame hr₂ heff₂ hout (fun i hi => hi) hlt₂,
        heff.trans (heff₂.append _), ?_, hwritten⟩
      rw [← hbytes]
      refine List.flatMap_congr fun i hi => ?_
      have := heff₂.frame i (hheld.lt i hi) (hheld.not_description i hi) (hout i hi)
      simp only [File.blockBytes, Writing.setAllocator, this]
  · exact fun e _ he => ⟨(Failure.isResize_caught .writeFailed fun _ => rfl).trans he.1, he.2⟩

theorem readLoop_spec {bufSize : Nat} (done : Bytes) (hc : Chain f.nextOf start c)
    (hlt : ∀ i ∈ c, i < f.count) (hf : 0 < f.count) (hn : c.length ≤ n)
    (hb : (done ++ c.flatMap f.blockBytes).length ≤ bufSize) :
    Spec (readLoop bufSize n (if start = 0 then none else some start) done) f
      (fun bs f' => f' = f ∧ bs = done ++ c.flatMap f.blockBytes) (fun _ _ => False) := by
  induction c generalizing start n done with
  | nil =>
      rw [if_pos (Chain.nil_iff.mp hc)]
      unfold readLoop
      exact Spec.pure ⟨rfl, by simp⟩
  | cons b c ih =>
      obtain rfl : start = b := hc.head
      obtain ⟨n, rfl⟩ : ∃ m, n = m + 1 := ⟨n - 1, by simp only [List.length_cons] at hn; omega⟩
      have hnext : (f.block start).nextIndex < f.count := by
        have ht := hc.tail
        cases c with
        | nil => exact lt_of_eq_of_lt (Chain.nil_iff.mp ht) hf
        | cons r c => exact lt_of_eq_of_lt ht.head (hlt r (by simp))
      have hsz : (f.blockBytes start).length = (f.block start).size := by simp [File.blockBytes]
      rw [if_neg (hc.ne_zero start (by simp))]
      unfold readLoop
      refine Spec.bind (Spec.get (Spec.ite (fun hover => ?_) (fun _ => ?_)))
      · simp only [List.flatMap_cons, List.length_append] at hb
        omega
      · refine Spec.bind ((readNext_spec_lt hnext).mono ?_ (fun _ _ h => h))
        rintro _ _ ⟨rfl, rfl⟩
        refine (ih _ hc.tail (fun i hi => hlt i (by simp [hi]))
          (by simp only [List.length_cons] at hn; omega) ?_).mono ?_ (fun _ _ h => h)
        · simpa [File.blockBytes] using hb
        · rintro bs _ ⟨rfl, rfl⟩
          exact ⟨rfl, by simp [File.blockBytes]⟩

theorem readI_spec {w : PlainWriter} {bufSize : Nat} (hc : Chain f.nextOf w.firstBlockIndex c)
    (hne : w.firstBlockIndex ≠ 0) (hlt : ∀ i ∈ c, i < f.count)
    (hd : w.dataSize = (c.flatMap f.blockBytes).length) (hb : w.dataSize ≤ bufSize) :
    Spec (w.readI bufSize) f (fun r f' => f' = f ∧ r = (w.dataSize, c.flatMap f.blockBytes)) (fun _ _ => False) := by
  obtain ⟨c', rfl⟩ := hc.cons_of_ne_zero hne
  have hw : w.firstBlockIndex < f.count := hlt _ (by simp)
  have hlen : (w.firstBlockIndex :: c').length ≤ f.count := by
    have hsub : w.firstBlockIndex :: c' ⊆ List.range f.count := fun i hi => List.mem_range.mpr (hlt i hi)
    simpa using (List.subperm_of_subset hc.nodup hsub).length_le
  unfold PlainWriter.readI
  refine Spec.ite (fun h => by omega) (fun _ => Spec.bind (Spec.adaptExcept (Spec.bind ?_)))
  unfold getReadBlock
  refine Spec.bind (Spec.get (Spec.ite (fun h => by omega) (fun _ => Spec.pure (Spec.bind (Spec.get ?_)))))
  have hr := readLoop_spec (n := (bufSize + 2) * f.count) [] hc hlt (by omega)
    (Nat.le_trans hlen (Nat.le_mul_of_pos_left _ (by omega))) (by simpa [hd] using hb)
  rw [if_neg hne] at hr
  refine hr.mono ?_ (fun _ _ h => h)
  rintro bs _ ⟨rfl, rfl⟩
  exact Spec.pure ⟨rfl, by simp⟩

end UnixCommons.PlainStorage
