import Mathlib.Data.List.GetD
import Mathlib.Data.List.Count
import Mathlib.Data.List.Perm.Basic
import UnixCommons.PlainStorage.Allocator
import UnixCommons.Lib.Chain

/-! # ファイルと割り当て器の補題 -/

/-! ## ファイルの読み書きの補題 -/

namespace UnixCommons.PlainStorage

open Lib

variable {f f' : File} {g : Geometry} {i j n off v : Nat} {b : Block} {c : Nat → UInt8}

theorem Failure.isResize_caught (wrap : Failure → Failure) (h : ∀ e, (wrap e).isResize = e.isResize)
    {e : Failure} : (Failure.caught wrap e).isResize = e.isResize := by
  unfold Failure.caught
  split
  · exact h e
  · rfl

theorem File.block_of_le (h : f.count ≤ i) : f.block i = Block.zero := by
  unfold File.block
  exact List.getD_eq_default _ _ h

@[simp] theorem File.count_setBlock : (f.setBlock i b).count = f.count := by
  simp [File.count, File.setBlock]

theorem File.block_setBlock_self (h : i < f.count) : (f.setBlock i b).block i = b := by
  have h' : i < f.blocks.length := h
  simp [File.block, File.setBlock, h']

theorem File.block_setBlock_ne (h : j ≠ i) : (f.setBlock i b).block j = f.block j := by
  simp [File.block, File.setBlock, List.getD_eq_getElem?_getD, List.getElem?_set_ne h.symm]

@[simp] theorem File.count_setNextIndex : (f.setNextIndex i n).count = f.count := File.count_setBlock
@[simp] theorem File.count_setSize : (f.setSize i n).count = f.count := File.count_setBlock
@[simp] theorem File.count_setContent : (f.setContent i c).count = f.count := File.count_setBlock
@[simp] theorem File.count_setField : (f.setField i off v).count = f.count := File.count_setBlock

theorem File.block_setNextIndex_ne (h : j ≠ i) : (f.setNextIndex i n).block j = f.block j :=
  File.block_setBlock_ne h

theorem File.block_setNextIndex_self (h : i < f.count) :
    (f.setNextIndex i n).block i = { f.block i with nextIndex := n } := File.block_setBlock_self h

theorem File.block_setSize_ne (h : j ≠ i) : (f.setSize i n).block j = f.block j :=
  File.block_setBlock_ne h

theorem File.block_setSize_self (h : i < f.count) :
    (f.setSize i n).block i = { f.block i with size := n } := File.block_setBlock_self h

theorem File.setSize_setSize {m : Nat} : (f.setSize i m).setSize i n = f.setSize i n := by
  by_cases h : i < f.count
  · unfold File.setSize
    rw [File.block_setBlock_self h]
    simp [File.setBlock]
  · have h' : f.blocks.length ≤ i := Nat.not_lt.mp h
    simp [File.setSize, File.setBlock, List.set_eq_of_length_le h']

theorem File.setSize_eq_self (h : (f.block i).size = n) : f.setSize i n = f := by
  subst h
  by_cases hi : i < f.blocks.length
  · have hg : f.block i = f.blocks[i] := by simp [File.block, hi]
    show (⟨f.blocks.set i (f.block i)⟩ : File) = f
    rw [hg, List.set_getElem_self]
  · simp [File.setSize, File.setBlock, List.set_eq_of_length_le (Nat.not_lt.mp hi)]

theorem File.block_setContent_ne (h : j ≠ i) : (f.setContent i c).block j = f.block j :=
  File.block_setBlock_ne h

theorem File.block_setContent_self (h : i < f.count) :
    (f.setContent i c).block i = { f.block i with content := c } := File.block_setBlock_self h

theorem File.block_setField_ne (h : j ≠ i) : (f.setField i off v).block j = f.block j :=
  File.block_setBlock_ne h

theorem File.block_setField_self (h : i < f.count) :
    (f.setField i off v).block i = { f.block i with content := Lib.setField (f.block i).content off v } :=
  File.block_setBlock_self h

theorem File.field_setField_self (h : i < f.count) (hv : v < 2 ^ 32) :
    (f.setField i off v).field i off = v := by
  unfold File.field
  rw [File.block_setField_self h]
  exact getField_setField hv

structure File.Extends (f f' : File) : Prop where
  block : f'.block = f.block
  count : f.count ≤ f'.count

theorem File.Extends.refl (f : File) : f.Extends f := ⟨rfl, Nat.le_refl _⟩

theorem File.count_append_zero :
    (⟨f.blocks ++ List.replicate n Block.zero⟩ : File).count = f.count + n := by simp [File.count]

theorem File.block_append_zero : (⟨f.blocks ++ List.replicate n Block.zero⟩ : File).block = f.block := by
  funext j
  unfold File.block
  by_cases h : j < f.blocks.length
  · rw [List.getD_append _ _ _ _ h]
  · rw [List.getD_append_right _ _ _ _ (by omega), List.getD_eq_default f.blocks _ (by omega)]
    by_cases h' : j - f.blocks.length < n
    · simp [h']
    · exact List.getD_eq_default _ _ (by simp; omega)

theorem File.block_setBlock_eq (h : f.block i = b) : (f.setBlock i b).block = f.block := by
  funext j
  by_cases hj : j = i
  · subst hj
    by_cases hc : j < f.count
    · rw [File.block_setBlock_self hc, h]
    · rw [File.block_of_le (by simpa using hc), File.block_of_le (Nat.not_lt.mp hc)]
  · exact File.block_setBlock_ne hj

theorem File.init_block_of_zero (h : f.block i = Block.zero) :
    ((f.setNextIndex i 0).setSize i 0).block = f.block := by
  have hn : (f.setNextIndex i 0).block = f.block := File.block_setBlock_eq (by rw [h]; rfl)
  rw [File.setSize, File.block_setBlock_eq (by rw [hn, h]; rfl), hn]

theorem File.clear_block_of_zero (h : f.block i = Block.zero) :
    ((f.setSize i 0).setNextIndex i 0).block = f.block := by
  have hs : (f.setSize i 0).block = f.block := File.block_setBlock_eq (by rw [h]; rfl)
  rw [File.setNextIndex, File.block_setBlock_eq (by rw [hs, h]; rfl), hs]

theorem getBlock_spec (g : Geometry) (f : File) (i : Nat) :
    Spec (getBlock g i) f
      (fun _ f' => f.Extends f' ∧ f'.count = max f.count (i + 1) ∧ (f.count ≤ g.maxBlocks → f'.count ≤ g.maxBlocks))
      (fun e f' => e = .resizeFailure ∧ f' = f ∧ f.count ≤ i) := by
  unfold getBlock
  refine Spec.bind (Spec.get (Spec.ite (fun h => ?_) (fun h => ?_)))
  · refine Spec.bind ?_
    unfold resizeFile
    refine Spec.ite (fun hn => ?_) (fun _ => Spec.throw ⟨rfl, rfl, h⟩)
    refine Spec.modify (Spec.modify ?_)
    have hc : (((⟨f.blocks ++ List.replicate (i + 1 - f.count) Block.zero⟩ : File).setNextIndex
        i 0).setSize i 0).count = i + 1 := by
      rw [File.count_setSize, File.count_setNextIndex, File.count_append_zero]
      omega
    refine ⟨⟨?_, by omega⟩, by omega, fun _ => by omega⟩
    rw [File.init_block_of_zero, File.block_append_zero]
    rw [File.block_append_zero]
    exact File.block_of_le h
  · exact Spec.pure ⟨File.Extends.refl f, by omega, id⟩

theorem getBlock_spec_lt (g : Geometry) (h : i < f.count) :
    Spec (getBlock g i) f (fun _ f' => f' = f) (fun _ _ => False) := by
  unfold getBlock
  exact Spec.bind (Spec.get (Spec.ite (fun h' => by omega) (fun _ => Spec.pure rfl)))

theorem next_spec_lt (g : Geometry) (h : (f.block i).nextIndex < f.count) :
    Spec (next g i) f
      (fun r f' => f' = f ∧ r = if (f.block i).nextIndex = 0 then none else some
      (f.block i).nextIndex) (fun _ _ => False) := by
  unfold next
  refine Spec.bind (Spec.get (Spec.ite (fun h0 => ?_) (fun h0 => ?_)))
  · exact Spec.pure ⟨rfl, by rw [if_pos h0]⟩
  · refine Spec.bind ((getBlock_spec_lt g h).mono ?_ (fun _ _ h => h))
    rintro _ f' rfl
    exact Spec.pure ⟨rfl, by rw [if_neg h0]⟩

theorem readNext_spec_lt (h : (f.block i).nextIndex < f.count) :
    Spec (readNext i) f
      (fun r f' => f' = f ∧ r = if (f.block i).nextIndex = 0 then none else some
      (f.block i).nextIndex) (fun _ _ => False) := by
  unfold readNext
  refine Spec.bind (Spec.get (Spec.ite (fun h0 => ?_) (fun h0 => ?_)))
  · exact Spec.pure ⟨rfl, by rw [if_pos h0]⟩
  · refine Spec.bind (Spec.bind (Spec.get (Spec.ite (fun h' => absurd h (Nat.not_lt.mpr h')) (fun _ => Spec.pure ?_))))
    exact Spec.pure ⟨rfl, by rw [if_neg h0]⟩

end UnixCommons.PlainStorage

namespace UnixCommons.PlainStorage

open Lib

/-!
### 割り当てと返却の補題

`allocate` は空きの鎖の先頭を取り、`deallocate` は先頭に加える。
-/

section

variable {f f' : File} {g : Geometry} {a a' : Allocator} {i j n b : Nat} {free : List Nat}

/-- 番号 `m` から `n` 個のブロックを、続く番号につないだ後のブロック。 -/
def linked (f : File) (m n : Nat) : Nat → Block := fun j =>
  if m ≤ j ∧ j < m + n then { f.block j with size := 0, nextIndex := j + 1 } else f.block j

theorem linked_zero (f : File) (m : Nat) : linked f m 0 = f.block := by
  funext j
  unfold linked
  rw [if_neg (by omega)]

theorem linked_succ (h : i < f.count) (hf : f'.block = ((f.setSize i 0).setNextIndex i (i + 1)).block) :
    linked f' (i + 1) n = linked f i (n + 1) := by
  funext j
  unfold linked
  rw [hf]
  by_cases hj : j = i
  · subst hj
    rw [if_neg (by omega), if_pos (by omega), File.block_setNextIndex_self (by simpa using h),
      File.block_setSize_self h]
  · rw [File.block_setNextIndex_ne hj, File.block_setSize_ne hj]
    by_cases h' : i ≤ j ∧ j < i + (n + 1)
    · rw [if_pos (by omega), if_pos h']
    · rw [if_neg (by omega), if_neg h']

theorem growLoop_spec (n : Nat) (hi : i < f.count) (hn : i + n ≤ f.count) :
    Spec (growLoop g n i (some i)) f
      (fun _ f' => f'.block = linked f i n ∧ f'.count = max f.count (i + n + 1) ∧
        (f.count ≤ g.maxBlocks → f'.count ≤ g.maxBlocks))
      (fun e f' => e = .resizeFailure ∧ f'.block = linked f i n ∧ f'.count = f.count ∧ 0 < n) := by
  induction n generalizing f i with
  | zero => exact Spec.pure ⟨(linked_zero f i).symm, by omega, id⟩
  | succ n ih =>
      unfold growLoop
      refine Spec.bind (Spec.modify (Spec.bind ?_))
      have hnext : (((f.setSize i 0).setNextIndex i (i + 1)).block i).nextIndex = i + 1 := by
        rw [File.block_setNextIndex_self (by simpa using hi)]
      unfold next
      refine Spec.bind (Spec.get (Spec.ite (fun h0 => ?_) (fun _ => ?_)))
      · rw [hnext] at h0
        omega
      · rw [hnext]
        refine Spec.bind ((getBlock_spec g _ (i + 1)).mono ?_ ?_)
        · rintro _ f₁ ⟨he, hc, hm⟩
          simp only [File.count_setNextIndex, File.count_setSize] at hc hm
          refine Spec.pure ((ih (by omega) (by omega)).mono ?_ ?_)
          · rintro _ f₂ ⟨hb, hc₂, hm₂⟩
            exact ⟨by rw [hb, linked_succ hi he.block], by omega, fun h => hm₂ (hm h)⟩
          · rintro e f₂ ⟨rfl, hb, hc₂, hpos⟩
            exact ⟨rfl, by rw [hb, linked_succ hi he.block], by omega, by omega⟩
        · rintro e f₁ ⟨rfl, rfl, hle⟩
          simp only [File.count_setNextIndex, File.count_setSize] at hle
          obtain rfl : n = 0 := by omega
          refine ⟨rfl, ?_, by simp, by omega⟩
          rw [← linked_succ hi rfl, linked_zero]

def grown (f : File) : Nat → Block := fun j =>
  if f.count ≤ j ∧ j < f.count + allocatePortion then ⟨j + 1, 0, fun _ => 0⟩ else f.block j

theorem linked_eq_grown (h : f'.block = f.block) : linked f' f.count allocatePortion = grown f := by
  funext j
  unfold linked grown
  rw [h]
  by_cases hj : f.count ≤ j ∧ j < f.count + allocatePortion
  · rw [if_pos hj, if_pos hj, File.block_of_le hj.1]
    rfl
  · rw [if_neg hj, if_neg hj]

theorem grow_spec (h0 : 0 < a.file.count) :
    Spec (grow g) a
      (fun _ a' => a'.description = a.description ∧ a'.firstFreeBlock = a.file.count ∧
        a'.file.block = grown a.file ∧ a'.file.count = a.file.count + 11 ∧
        (a.file.count ≤ g.maxBlocks → a'.file.count ≤ g.maxBlocks))
      (fun e a' => e = .resizeFailure ∧ (a' = a ∨ a'.description = a.description ∧
        a'.firstFreeBlock = a.file.count ∧ a'.file.block = grown a.file ∧
        a'.file.count = a.file.count + 10 ∧
        (a.file.count ≤ g.maxBlocks → a'.file.count ≤ g.maxBlocks))) := by
  obtain ⟨f, d, ff⟩ := a
  unfold grow
  refine Spec.bind (Spec.get (Spec.bind (Spec.zoom ((getBlock_spec g _ _).mono ?_ ?_))))
  · rintro _ f₁ ⟨he₁, hc₁, hm₁⟩
    dsimp only [Allocator.setFile] at he₁ hc₁ hm₁ ⊢
    -- 最後のブロックは零で始まるので、見出しへの零の書き込みは何も変えない。
    have hz : f₁.block (f.count + allocatePortion - 1) = Block.zero := by
      rw [he₁.block]
      exact File.block_of_le (by simp [allocatePortion])
    generalize hf₂ : (f₁.setSize (f.count + allocatePortion - 1) 0).setNextIndex
      (f.count + allocatePortion - 1) 0 = f₂
    have hb₂ : f₂.block = f.block := by rw [← hf₂, File.clear_block_of_zero hz, he₁.block]
    have hc₂ : f₂.count = f.count + 10 := by
      rw [← hf₂, File.count_setNextIndex, File.count_setSize, hc₁]
      simp only [allocatePortion]
      omega
    have hm₂ : f.count ≤ g.maxBlocks → f₂.count ≤ g.maxBlocks := by
      rw [← hf₂, File.count_setNextIndex, File.count_setSize]
      exact hm₁
    refine Spec.bind (Spec.zoom (Spec.modify ?_))
    dsimp only [Allocator.setFile]
    rw [hf₂]
    refine Spec.bind (Spec.zoom ((getBlock_spec_lt g (by dsimp only; omega)).mono ?_ (fun _ _ h => h.elim)))
    rintro _ _ rfl
    dsimp only [Allocator.setFile]
    refine Spec.bind (Spec.modify (Spec.zoom ((growLoop_spec allocatePortion ?_ ?_).mono ?_ ?_)))
    · exact Nat.lt_of_lt_of_eq (by omega) hc₂.symm
    · exact Nat.le_of_eq hc₂.symm
    · rintro _ f₃ ⟨hb, hc, hm⟩
      dsimp only [Allocator.setFile, allocatePortion] at hb hc hm ⊢
      exact ⟨rfl, rfl, hb.trans (linked_eq_grown hb₂), by omega, fun h => hm (hm₂ h)⟩
    · rintro e f₃ ⟨rfl, hb, hc, -⟩
      dsimp only [Allocator.setFile] at hb hc ⊢
      exact ⟨rfl, Or.inr ⟨rfl, rfl, hb.trans (linked_eq_grown hb₂), by omega,
        fun h => by rw [hc]; exact hm₂ h⟩⟩
  · rintro e f₁ ⟨rfl, rfl, -⟩
    exact ⟨rfl, Or.inl rfl⟩

theorem grown_link (h : i < 10) : grown f (f.count + i) = ⟨f.count + i + 1, 0, fun _ => 0⟩ := by
  unfold grown
  rw [if_pos ⟨by omega, by simp only [allocatePortion]; omega⟩]

theorem grown_size : (grown f i).size = (f.block i).size := by
  by_cases h : f.count ≤ i ∧ i < f.count + allocatePortion
  · simp [grown, if_pos h, File.block_of_le h.1, Block.zero]
  · simp [grown, if_neg h]

theorem grown_outside (h : i < f.count ∨ f.count + 10 ≤ i) : grown f i = f.block i := by
  unfold grown
  rw [if_neg (by simp only [allocatePortion]; omega)]

theorem grown_chain (h0 : 0 < f.count) (h : f'.block = grown f) :
    Chain f'.nextOf f.count (List.range' f.count 11) := by
  refine Chain.range (by omega) (fun i hi => ?_) ?_
  · rw [File.nextOf, h, grown_link hi]
  · rw [File.nextOf, h, grown_outside (by omega), File.block_of_le (by omega)]
    rfl

structure Allocator.Ready (g : Geometry) (a : Allocator) (free : List Nat) : Prop where
  chain : Chain a.file.nextOf a.firstFreeBlock free
  le_count : ∀ b ∈ free, b ≤ a.file.count
  description_lt : a.description < a.file.count
  description_free : a.description ∉ free
  count_le : a.file.count ≤ g.maxBlocks

def Taken (free : List Nat) (count b : Nat) (free' : List Nat) (count' : Nat) : Prop :=
  free = b :: free' ∧ count' = max count (b + 1) ∨
    free = [] ∧ b :: free' = List.range' count 11 ∧ count' = count + 11

structure Allocated (g : Geometry) (a : Allocator) (free : List Nat) (b : Nat) (a' : Allocator)
    (free' : List Nat) : Prop where
  taken : Taken free a.file.count b free' a'.file.count
  ready : a'.Ready g free'
  block : a'.file.block b = { a.file.block b with nextIndex := 0 }
  description : a'.description = a.description
  descriptionBlock : a'.file.block a.description =
    { a.file.block a.description with
      content := Lib.setField (a.file.block a.description).content 0 a'.firstFreeBlock }
  size : ∀ i, (a'.file.block i).size = (a.file.block i).size
  frame : ∀ i, i ≠ a.description → i ∉ b :: free' → a'.file.block i = a.file.block i

theorem Taken.lt {count count' : Nat} {free' : List Nat} (h : Taken free count b free' count') :
    b < count' ∧ count ≤ count' := by
  rcases h with ⟨-, hc⟩ | ⟨-, hr, hc⟩
  · omega
  · have : b ∈ List.range' count 11 := hr ▸ List.mem_cons_self
    have := List.mem_range'_1.mp this
    omega

theorem Taken.not_mem {count count' : Nat} {free' : List Nat} (h : Taken free count b free' count')
    (hi : i ∉ free) (hc : i < count) : i ∉ b :: free' := by
  rcases h with ⟨rfl, -⟩ | ⟨-, hr, -⟩
  · exact hi
  · intro hm
    rw [hr] at hm
    have := List.mem_range'_1.mp hm
    omega

theorem Taken.mem {count count' : Nat} {free' : List Nat} (h : Taken free count b free' count')
    (hi : i ∈ b :: free') : i ∈ free ∨ count ≤ i := by
  rcases h with ⟨rfl, -⟩ | ⟨-, hr, -⟩
  · exact Or.inl hi
  · rw [hr] at hi
    exact Or.inr (List.mem_range'_1.mp hi).1

theorem Taken.nodup {count count' : Nat} {free' : List Nat} (h : Taken free count b free' count')
    (hf : free.Nodup) : b ∉ free' := by
  rcases h with ⟨rfl, -⟩ | ⟨-, hr, -⟩
  · exact (List.nodup_cons.mp hf).1
  · have : (b :: free').Nodup := hr ▸ List.nodup_range'
    exact (List.nodup_cons.mp this).1

theorem Allocator.Ready.pos (h : a.Ready g free) : 0 < a.file.count := by
  have := h.description_lt
  omega

theorem Allocator.sync_block_ne (h : i ≠ a.description) : a.sync.file.block i = a.file.block i :=
  File.block_setField_ne h

theorem Allocator.sync_nextOf : a.sync.file.nextOf = a.file.nextOf := by
  funext i
  simp only [Allocator.sync, File.nextOf]
  by_cases hi : i = a.description
  · subst hi
    by_cases hc : a.description < a.file.count
    · rw [File.block_setField_self hc]
    · rw [File.block_of_le (by simpa using hc), File.block_of_le (Nat.not_lt.mp hc)]
  · rw [File.block_setField_ne hi]

def popFree (g : Geometry) : EStateM Failure Allocator Nat := do
  let firstFreeIndex := (← get).firstFreeBlock
  onFile (getBlock g firstFreeIndex)
  let newFirstFreeIndex := ((← get).file.block firstFreeIndex).nextIndex
  onFile (modify fun f => f.setNextIndex firstFreeIndex 0)
  modify fun a => { a with firstFreeBlock := newFirstFreeIndex }
  modify Allocator.sync
  return firstFreeIndex

theorem allocate_eq (g : Geometry) :
    allocate g = EStateM.adaptExcept (.caught .allocationFailed) (do ensureFree g; popFree g) := rfl

theorem popFree_spec (h : a.Ready g (b :: free)) :
    Spec (popFree g) a
      (fun r a' => r = b ∧ a'.Ready g free ∧ a'.file.count = max a.file.count (b + 1) ∧
        a'.description = a.description ∧
        a'.file.block b = { a.file.block b with nextIndex := 0 } ∧
        a'.file.block a.description = { a.file.block a.description with
          content := Lib.setField (a.file.block a.description).content 0 a'.firstFreeBlock } ∧
        ∀ i, i ≠ a.description → i ≠ b → a'.file.block i = a.file.block i)
      (fun e a' => e = .resizeFailure ∧ a' = a) := by
  have hb := h.chain.head
  have hbd : b ≠ a.description := fun he => h.description_free (by simp [he])
  have hnd := (List.nodup_cons.mp h.chain.nodup).1
  obtain ⟨f, d, ff⟩ := a
  obtain rfl : ff = b := hb
  unfold popFree
  refine Spec.bind (Spec.get (Spec.bind (Spec.zoom ((getBlock_spec g _ _).mono ?_ ?_))))
  · rintro _ f₁ ⟨he, hc, hm⟩
    dsimp only [Allocator.setFile] at he hc hm hbd ⊢
    refine Spec.bind (Spec.get (Spec.bind (Spec.zoom (Spec.modify (Spec.bind (Spec.modify
      (Spec.bind (Spec.modify (Spec.pure ?_)))))))))
    dsimp only [Allocator.setFile, Allocator.sync]
    have hblt : ff < f₁.count := by omega
    have hd₁ : d < f₁.count := by have := he.count; have := h.description_lt; dsimp only at this; omega
    have hother : ∀ i, i ≠ d → i ≠ ff →
        ((f₁.setNextIndex ff 0).setField d 0 (f₁.block ff).nextIndex).block i = f.block i := by
      intro i hi hif
      rw [File.block_setField_ne hi, File.block_setNextIndex_ne hif, he.block]
    refine ⟨rfl, ⟨?_, ?_, ?_, ?_, ?_⟩, ?_, rfl, ?_, ?_, hother⟩
    · have ht : Chain f.nextOf (f₁.block ff).nextIndex free := by
        rw [he.block]
        exact h.chain.tail
      refine ht.congr (fun y hy => ?_)
      have hyd : y ≠ d := fun e => h.description_free (by simp [← e, hy])
      have hyf : y ≠ ff := fun e => hnd (e ▸ hy)
      exact congrArg Block.nextIndex (hother y hyd hyf)
    · intro y hy
      have := h.le_count y (by simp [hy])
      simp only [File.count_setField, File.count_setNextIndex]
      dsimp only at this
      omega
    · simpa using hd₁
    · exact fun hmem => h.description_free (by simp [show d ∈ free from hmem])
    · simpa using hm h.count_le
    · simpa using hc
    · rw [File.block_setField_ne hbd, File.block_setNextIndex_self hblt, he.block]
    · rw [File.block_setField_self (by simpa using hd₁), File.block_setNextIndex_ne hbd.symm, he.block]
  · rintro e f₁ ⟨rfl, rfl, -⟩
    exact ⟨rfl, rfl⟩

theorem popFree_size {f f' : File} {d n : Nat} {c : Nat → UInt8}
    (hb : f'.block b = { f.block b with nextIndex := n }) (hd : f'.block d = { f.block d with content := c })
    (hfr : ∀ i, i ≠ d → i ≠ b → f'.block i = f.block i) (i : Nat) :
    (f'.block i).size = (f.block i).size := by
  by_cases hib : i = b
  · subst hib
    rw [hb]
  · by_cases hid : i = d
    · subst hid
      rw [hd]
    · rw [hfr i hid hib]

theorem Allocator.Ready.grown {k : Nat} (h : a.Ready g []) (hk : 10 ≤ k)
    (hd : a'.description = a.description) (hf : a'.firstFreeBlock = a.file.count)
    (hb : a'.file.block = grown a.file) (hc : a'.file.count = a.file.count + k)
    (hm : a'.file.count ≤ g.maxBlocks) : a'.Ready g (List.range' a.file.count 11) := by
  have hd₁ := h.description_lt
  refine ⟨by rw [hf]; exact grown_chain h.pos hb, fun b hb => ?_, by omega, fun hmem => ?_, hm⟩
  · have := List.mem_range'_1.mp hb
    omega
  · have := List.mem_range'_1.mp hmem
    omega

theorem allocate_spec (h : a.Ready g free) :
    Spec (allocate g) a
      (fun b a' => ∃ free', Allocated g a free b a' free')
      (fun e a' => e.isResize ∧ ∃ free', a'.Ready g free' ∧ a'.description = a.description ∧
        (free' = free ∨ free = [] ∧ free' = List.range' a.file.count 11) ∧
        a.file.count ≤ a'.file.count ∧ (∀ i, i < a.file.count → a'.file.block i = a.file.block i) ∧
        ∀ i, (a'.file.block i).size = (a.file.block i).size) := by
  rw [allocate_eq]
  refine Spec.adaptExcept (Spec.bind (Spec.bind (Spec.get (Spec.ite (fun h0 => ?_) (fun h0 => ?_)))))
  · -- 空きがない。
    have hfree : free = [] := by
      have := h.chain
      rw [h0] at this
      exact this.eq_nil
    subst hfree
    refine (grow_spec h.pos).mono ?_ ?_
    · rintro _ a₁ ⟨hd, hf, hb, hc, hm⟩
      have hr := h.grown (by omega) hd hf hb hc (hm h.count_le)
      rw [List.range'_succ] at hr
      refine (popFree_spec hr).mono ?_ ?_
      · rintro _ a₂ ⟨rfl, hr₂, hc₂, hd₂, hblk, hdesc, hfr⟩
        have hdlt := h.description_lt
        refine ⟨_, Or.inr ⟨rfl, rfl, by omega⟩, hr₂, ?_, by rw [hd₂, hd], ?_, fun i => ?_, ?_⟩
        · rw [hblk, hb]
          have := grown_link (f := a.file) (i := 0) (by omega)
          rw [Nat.add_zero] at this
          rw [this, File.block_of_le (Nat.le_refl _)]
          rfl
        · rw [← hd, hdesc, hb, hd, grown_outside (Or.inl hdlt)]
        · rw [popFree_size hblk hdesc hfr, hb, grown_size]
        · intro i hi hmem
          have hout : i < a.file.count ∨ a.file.count + 11 ≤ i := by
            have : i ∉ List.range' a.file.count 11 := by rwa [List.range'_succ]
            have := mt List.mem_range'_1.mpr this
            omega
          rw [hfr i (by rw [hd]; exact hi) (fun e => hmem (by simp [e])), hb, grown_outside (by omega)]
      · rintro e a₂ ⟨rfl, rfl⟩
        refine ⟨rfl, _, hr, hd, Or.inr ⟨rfl, rfl⟩, by omega, fun i hi => ?_, fun i => ?_⟩
        · rw [hb, grown_outside (Or.inl hi)]
        · rw [hb, grown_size]
    · rintro e a₁ ⟨rfl, rfl | ⟨hd, hf, hb, hc, hm⟩⟩
      · exact ⟨rfl, [], h, rfl, Or.inl rfl, Nat.le_refl _, fun _ _ => rfl, fun _ => rfl⟩
      · refine ⟨rfl, _, h.grown (Nat.le_refl _) hd hf hb hc (hm h.count_le), hd, Or.inr ⟨rfl, rfl⟩,
          by omega, fun i hi => ?_, fun i => ?_⟩
        · rw [hb, grown_outside (Or.inl hi)]
        · rw [hb, grown_size]
  · -- 空きがある。
    obtain ⟨free', rfl⟩ := h.chain.cons_of_ne_zero h0
    refine Spec.pure ((popFree_spec h).mono ?_ ?_)
    · rintro _ a₂ ⟨rfl, hr₂, hc₂, hd₂, hblk, hdesc, hfr⟩
      exact ⟨free', Or.inl ⟨rfl, hc₂⟩, hr₂, hblk, hd₂, hdesc, popFree_size hblk hdesc hfr,
        fun i hi hmem => hfr i hi (fun e => hmem (by simp [e]))⟩
    · rintro e a₂ ⟨rfl, rfl⟩
      exact ⟨rfl, _, h, rfl, Or.inl rfl, Nat.le_refl _, fun _ _ => rfl, fun _ => rfl⟩

theorem Allocated.ne_zero {free' : List Nat} (hr : a.Ready g free)
    (h : Allocated g a free b a' free') : b ≠ 0 := by
  rcases h.taken with ⟨rfl, -⟩ | ⟨-, he, -⟩
  · exact hr.chain.ne_zero b (by simp)
  · have : b ∈ List.range' a.file.count 11 := he ▸ List.mem_cons_self
    have := List.mem_range'_1.mp this
    have := hr.pos
    omega

theorem deallocate_spec (h : a.Ready g free) (hb : b < a.file.count) (hb0 : b ≠ 0)
    (hbf : b ∉ free) (hbd : b ≠ a.description) :
    Spec (deallocate g b) a
      (fun _ a' => a'.Ready g (b :: free) ∧ a'.file.count = a.file.count ∧
        a'.description = a.description ∧
        a'.file.block b = { a.file.block b with nextIndex := a.firstFreeBlock } ∧
        a'.file.block a.description = { a.file.block a.description with
          content := Lib.setField (a.file.block a.description).content 0 a'.firstFreeBlock } ∧
        ∀ i, i ≠ a.description → i ≠ b → a'.file.block i = a.file.block i)
      (fun _ _ => False) := by
  obtain ⟨f, d, ff⟩ := a
  unfold deallocate
  refine Spec.adaptExcept (Spec.bind (Spec.get (Spec.bind (Spec.zoom
    ((getBlock_spec_lt g hb).mono ?_ (fun _ _ h => h.elim))))))
  rintro _ f rfl
  refine Spec.bind (Spec.zoom (Spec.modify (Spec.bind (Spec.modify (Spec.modify ?_)))))
  dsimp only [Allocator.setFile, Allocator.sync] at hb hbd ⊢
  have hd : d < f.count := h.description_lt
  have hother : ∀ i, i ≠ d → i ≠ b → ((f.setNextIndex b ff).setField d 0 b).block i = f.block i := by
    intro i hi hib
    rw [File.block_setField_ne hi, File.block_setNextIndex_ne hib]
  have hself : ((f.setNextIndex b ff).setField d 0 b).block b = { f.block b with nextIndex := ff } := by
    rw [File.block_setField_ne hbd, File.block_setNextIndex_self hb]
  refine ⟨⟨⟨rfl, hb0, ?_⟩, ?_, by simpa using hd, ?_, by simpa using h.count_le⟩, by simp, rfl, hself, ?_, hother⟩
  · show Chain _ (((f.setNextIndex b ff).setField d 0 b).block b).nextIndex free
    rw [hself]
    refine h.chain.congr (fun y hy => ?_)
    have hyd : y ≠ d := fun e => h.description_free (e ▸ hy)
    have hyb : y ≠ b := fun e => hbf (e ▸ hy)
    exact congrArg Block.nextIndex (hother y hyd hyb)
  · intro y hy
    simp only [File.count_setField, File.count_setNextIndex]
    rcases List.mem_cons.mp hy with rfl | hy
    · omega
    · exact h.le_count y hy
  · intro hmem
    rcases List.mem_cons.mp hmem with he | hmem
    · exact hbd he.symm
    · exact h.description_free hmem
  · rw [File.block_setField_self (by simpa using hd), File.block_setNextIndex_ne hbd.symm]

theorem create_fresh_spec {d : Nat} (hz : f.field d 0 = 0) (hm : f.count ≤ g.maxBlocks) :
    Spec (Allocator.create g d) f
      (fun a _ => a.Ready g [] ∧ a.description = d ∧ a.file.block = f.block ∧
      a.file.count = max f.count (d + 1)) (fun e _ => e.isResize) := by
  unfold Allocator.create
  refine Spec.bind ((getBlock_spec g f d).mono ?_ ?_)
  · rintro _ f₁ ⟨he, hc, hm₁⟩
    refine Spec.bind (Spec.get (Spec.pure ⟨⟨?_, by simp, by dsimp only; omega, by simp, hm₁ hm⟩, rfl, he.block, hc⟩))
    show File.field f₁ d 0 = 0
    rw [File.field, he.block]
    exact hz
  · rintro e f₁ ⟨rfl, -⟩
    rfl

theorem Allocator.Ready.firstFreeBlock_lt (h : a.Ready g free) : a.firstFreeBlock < 2 ^ 32 := by
  have := g.index_fits
  have := h.count_le
  cases free with
  | nil => rw [Chain.nil_iff.mp h.chain]; omega
  | cons b free =>
      have := h.le_count b (by simp)
      rw [h.chain.head]
      omega

theorem Allocator.Ready.sync (h : a.Ready g free) : a.sync.Ready g free := by
  refine ⟨?_, ?_, ?_, h.description_free, ?_⟩
  · rw [Allocator.sync_nextOf]
    exact h.chain
  · simpa [Allocator.sync] using h.le_count
  · simpa [Allocator.sync] using h.description_lt
  · simpa [Allocator.sync] using h.count_le

theorem create_destroy_spec (h : a.Ready g free) :
    Spec (Allocator.create g a.description) a.destroy (fun a' _ => a' = a.sync) (fun _ _ => False) := by
  unfold Allocator.create Allocator.destroy
  have hd : a.description < a.sync.file.count := h.sync.description_lt
  refine Spec.bind ((getBlock_spec_lt g hd).mono ?_ (fun _ _ h => h))
  rintro _ _ rfl
  refine Spec.bind (Spec.get (Spec.pure ?_))
  have : a.sync.file.field a.description 0 = a.firstFreeBlock :=
    File.field_setField_self h.description_lt h.firstFreeBlock_lt
  rw [this]
  rfl

end

/-!
### 持ち分の移り変わり

割り当て器を通した操作は、持っているブロックの並び `own` を `own'` に変える。
-/

section

variable {g : Geometry} {a a' a'' : Allocator} {own own' own'' extra free free' : List Nat} {b : Nat}

structure Effect (a : Allocator) (own : List Nat) (a' : Allocator) (own' : List Nat) : Prop where
  description : a'.description = a.description
  count : a.file.count ≤ a'.file.count
  blocks : own'.Perm (own ++ List.range' a.file.count (a'.file.count - a.file.count))
  frame : ∀ i, i < a.file.count → i ≠ a.description → i ∉ own → a'.file.block i = a.file.block i

theorem Effect.refl (a : Allocator) (own : List Nat) : Effect a own a own :=
  ⟨rfl, Nat.le_refl _, by simp, fun _ _ _ _ => rfl⟩

theorem Effect.not_mem (h : Effect a own a' own') {i : Nat} (hi : i < a.file.count) (ho : i ∉ own) :
    i ∉ own' := by
  intro hm
  rcases List.mem_append.mp (h.blocks.mem_iff.mp hm) with hm | hm
  · exact ho hm
  · have := List.mem_range'_1.mp hm
    omega

theorem Effect.lt (h : Effect a own a' own') (ho : ∀ i ∈ own, i < a.file.count) :
    ∀ i ∈ own', i < a'.file.count := by
  intro i hi
  have hc := h.count
  rcases List.mem_append.mp (h.blocks.mem_iff.mp hi) with hm | hm
  · have := ho i hm
    omega
  · have := List.mem_range'_1.mp hm
    omega

theorem range'_append_range' {m n k : Nat} (h₁ : m ≤ n) (h₂ : n ≤ k) :
    List.range' m (n - m) ++ List.range' n (k - n) = List.range' m (k - m) := by
  have := List.range'_append_1 (s := m) (m := n - m) (n := k - n)
  rwa [show m + (n - m) = n by omega, show n - m + (k - n) = k - m by omega] at this

theorem Effect.trans (h : Effect a own a' own') (h' : Effect a' own' a'' own'') : Effect a own a'' own'' where
  description := h'.description.trans h.description
  count := Nat.le_trans h.count h'.count
  blocks := by
    refine h'.blocks.trans ((h.blocks.append_right _).trans ?_)
    rw [List.append_assoc, range'_append_range' h.count h'.count]
  frame i hi hd ho := by
    rw [h'.frame i (Nat.lt_of_lt_of_le hi h.count) (by rw [h.description]; exact hd)
      (h.not_mem hi ho), h.frame i hi hd ho]

theorem Effect.append (h : Effect a own a' own') (extra : List Nat) :
    Effect a (extra ++ own) a' (extra ++ own') where
  description := h.description
  count := h.count
  blocks := by
    rw [List.append_assoc]
    exact h.blocks.append_left extra
  frame i hi hd ho := h.frame i hi hd (fun hm => ho (List.mem_append_right _ hm))

theorem Effect.perm {own₁ own₁' : List Nat} (h : Effect a own a' own') (h₁ : own.Perm own₁)
    (h₁' : own'.Perm own₁') : Effect a own₁ a' own₁' where
  description := h.description
  count := h.count
  blocks := h₁'.symm.trans (h.blocks.trans (h₁.append_right _))
  frame i hi hd ho := h.frame i hi hd (fun hm => ho (h₁.mem_iff.mp hm))

theorem Effect.write {f : File} (hc : f.count = a.file.count)
    (hf : ∀ i, i ∉ own → f.block i = a.file.block i) : Effect a own (a.setFile f) own where
  description := rfl
  count := Nat.le_of_eq hc.symm
  blocks := by
    show own.Perm (own ++ List.range' a.file.count (f.count - a.file.count))
    rw [hc]
    simp
  frame i _ _ ho := hf i ho

theorem Effect.accounted {rest : List Nat} (h : Effect a own a' own')
    (ha : (rest ++ own).Perm (List.range a.file.count)) : (rest ++ own').Perm (List.range a'.file.count) := by
  have hr : List.range a'.file.count =
      List.range a.file.count ++ List.range' a.file.count (a'.file.count - a.file.count) := by
    have := range'_append_range' (Nat.zero_le a.file.count) h.count
    simp only [Nat.sub_zero] at this
    rw [List.range_eq_range', List.range_eq_range', this]
  rw [hr]
  refine (h.blocks.append_left rest).trans ?_
  rw [← List.append_assoc]
  exact ha.append_right _

theorem Allocated.effect (h : Allocated g a free b a' free') (hf : ∀ i ∈ free, i < a.file.count) :
    Effect a free a' (b :: free') := by
  refine ⟨h.description, h.taken.lt.2, ?_, fun i hi hd ho => h.frame i hd (h.taken.not_mem ho hi)⟩
  rcases h.taken with ⟨rfl, hc⟩ | ⟨rfl, hr, hc⟩
  · have := hf b (by simp)
    rw [hc, show max a.file.count (b + 1) - a.file.count = 0 by omega]
    simp
  · rw [hr, hc, Nat.add_sub_cancel_left]
    exact List.Perm.refl _

end

end UnixCommons.PlainStorage
