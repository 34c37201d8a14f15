import Mathlib.Logic.Relation
import UnixCommons.PlainStorage.Lemmas.PlainWriter

/-! # 割り当て器と鎖の書き込みの定理 -/

/-!
## 割り当て器の安全性

使用中のブロックの並び `used` を外に置き、`allocate`、`deallocate`、割り当て器の作り直しを任意の順に行う。
-/

namespace UnixCommons.PlainStorage

open Lib

/-- 割り当て器の一歩。失敗した `allocate` は、途中までの状態を残す。 -/
inductive AllocatorStep (g : Geometry) : Allocator × List Nat → Allocator × List Nat → Prop
  | allocate {a a' b used} : (allocate g).run a = .ok b a' → AllocatorStep g (a, used) (a', b :: used)
  | allocateFailed {a a' e used} :
      (allocate g).run a = .error e a' → AllocatorStep g (a, used) (a', used)
  | deallocate {a a' b used} : b ∈ used → (deallocate g b).run a = .ok .unit a' →
      AllocatorStep g (a, used) (a', used.erase b)
  | rebuild {a a' f used} : (Allocator.create g a.description).run a.destroy = .ok a' f →
      AllocatorStep g (a, used) (a', used)

/-- 空きのないファイルから始めて `s` に着く。`m` は始めのブロックの数である。 -/
def AllocatorReachable (g : Geometry) (m : Nat) (s : Allocator × List Nat) : Prop :=
  ∃ (f f₀ : File) (d : Nat) (a₀ : Allocator), f.field d 0 = 0 ∧ f.count ≤ g.maxBlocks ∧
    (Allocator.create g d).run f = .ok a₀ f₀ ∧ a₀.file.count = m ∧
    Relation.ReflTransGen (AllocatorStep g) (a₀, []) s

structure AllocatorInv (g : Geometry) (m : Nat) (a : Allocator) (used free : List Nat) : Prop where
  ready : a.Ready g free
  description_lt : a.description < m
  count_ge : m ≤ a.file.count
  free_ge : ∀ b ∈ free, m ≤ b
  used_ge : ∀ b ∈ used, m ≤ b ∧ b < a.file.count
  used_nodup : used.Nodup
  disjoint : ∀ b ∈ used, b ∉ free

variable {g : Geometry} {a a' : Allocator} {m d b : Nat} {used free : List Nat} {f : File}

theorem AllocatorInv.init {a₀ : Allocator} {f₀ : File} (hz : f.field d 0 = 0) (hm : f.count ≤ g.maxBlocks)
    (h : (Allocator.create g d).run f = .ok a₀ f₀) : AllocatorInv g a₀.file.count a₀ [] [] := by
  obtain ⟨hr, -⟩ := (create_fresh_spec hz hm).ok h
  exact ⟨hr, hr.description_lt, Nat.le_refl _, by simp, by simp, List.nodup_nil, by simp⟩

theorem AllocatorInv.allocated {free' : List Nat} (h : AllocatorInv g m a used free)
    (ha : Allocated g a free b a' free') : b ∉ used ∧ AllocatorInv g m a' (b :: used) free' := by
  have hnd := ha.ready.chain.nodup
  have hcount := h.count_ge
  have hdesc := h.description_lt
  have hd := ha.description
  rcases ha.taken with ⟨rfl, hc⟩ | ⟨rfl, hr, hc⟩
  · -- 空きの先頭を取った。
    have hb : b ∉ used := fun hu => h.disjoint b hu (by simp)
    have hbf : b ∉ free' := (List.nodup_cons.mp h.ready.chain.nodup).1
    have hbm := h.free_ge b (by simp)
    refine ⟨hb, ha.ready, by omega, by omega, fun y hy => h.free_ge y (by simp [hy]), fun y hy => ?_,
      List.nodup_cons.mpr ⟨hb, h.used_nodup⟩, fun y hy => ?_⟩
    · rcases List.mem_cons.mp hy with rfl | hy
      · omega
      · have := h.used_ge y hy
        omega
    · rcases List.mem_cons.mp hy with rfl | hy
      · exact hbf
      · exact fun hf => h.disjoint y hy (by simp [hf])
  · -- ファイルを伸ばした。
    have hmem : ∀ y ∈ b :: free', a.file.count ≤ y ∧ y < a.file.count + 11 := by
      intro y hy
      rw [hr] at hy
      exact List.mem_range'_1.mp hy
    have hbf : b ∉ free' := by
      have : (b :: free').Nodup := hr ▸ List.nodup_range'
      exact (List.nodup_cons.mp this).1
    have hused : ∀ y ∈ used, y ∉ b :: free' := fun y hy hf => by
      have := h.used_ge y hy
      have := hmem y hf
      omega
    have hb : b ∉ used := fun hu => hused b hu (by simp)
    refine ⟨hb, ha.ready, by omega, by omega, fun y hy => ?_, fun y hy => ?_,
      List.nodup_cons.mpr ⟨hb, h.used_nodup⟩, fun y hy => ?_⟩
    · have := hmem y (by simp [hy])
      omega
    · rcases List.mem_cons.mp hy with rfl | hy
      · have := hmem y (by simp)
        omega
      · have := h.used_ge y hy
        omega
    · rcases List.mem_cons.mp hy with rfl | hy
      · exact hbf
      · exact fun hf => hused y hy (by simp [hf])

theorem AllocatorInv.allocate_spec (h : AllocatorInv g m a used free) :
    Spec (allocate g) a
      (fun b a' => b ∉ used ∧ (a'.file.block b).nextIndex = 0 ∧
        ∃ free', AllocatorInv g m a' (b :: used) free')
      (fun e a' => e.isResize ∧ ∃ free', AllocatorInv g m a' used free') := by
  refine (PlainStorage.allocate_spec h.ready).mono ?_ ?_
  · rintro b a' ⟨free', ha⟩
    obtain ⟨hb, hi⟩ := h.allocated ha
    exact ⟨hb, by rw [ha.block], free', hi⟩
  · rintro e a' ⟨he, free', hr, hd, hfree, hc, -⟩
    have hdesc := h.description_lt
    have hcount := h.count_ge
    have hmem : ∀ y ∈ free', m ≤ y ∧ y ∉ used := by
      intro y hy
      rcases hfree with rfl | ⟨rfl, rfl⟩
      · exact ⟨h.free_ge y hy, fun hu => h.disjoint y hu hy⟩
      · have := List.mem_range'_1.mp hy
        refine ⟨by omega, fun hu => ?_⟩
        have := h.used_ge y hu
        omega
    refine ⟨he, free', hr, by omega, by omega, fun y hy => (hmem y hy).1, fun y hy => ?_, h.used_nodup,
      fun y hy hf => (hmem y hf).2 hy⟩
    have := h.used_ge y hy
    omega

theorem AllocatorInv.deallocate_spec (h : AllocatorInv g m a used free) (hb : b ∈ used) :
    Spec (deallocate g b) a (fun _ a' => AllocatorInv g m a' (used.erase b) (b :: free))
      (fun _ _ => False) := by
  have hu := h.used_ge b hb
  have hdesc := h.description_lt
  refine (PlainStorage.deallocate_spec h.ready hu.2 (by omega) (h.disjoint b hb) (by omega)).mono ?_
    (fun _ _ h => h)
  rintro _ a' ⟨hr, hc, hd, -⟩
  have hcount := h.count_ge
  refine ⟨hr, by omega, by omega, fun y hy => ?_, fun y hy => ?_, h.used_nodup.erase b, fun y hy => ?_⟩
  · rcases List.mem_cons.mp hy with rfl | hy
    · exact hu.1
    · exact h.free_ge y hy
  · rw [hc]
    exact h.used_ge y (List.mem_of_mem_erase hy)
  · obtain ⟨hyb, hyu⟩ := h.used_nodup.mem_erase_iff.mp hy
    simp [hyb, h.disjoint y hyu]

theorem AllocatorInv.sync (h : AllocatorInv g m a used free) : AllocatorInv g m a.sync used free := by
  have hc : a.sync.file.count = a.file.count := by simp [Allocator.sync]
  exact ⟨h.ready.sync, h.description_lt, by rw [hc]; exact h.count_ge, h.free_ge,
    by rw [hc]; exact h.used_ge, h.used_nodup, h.disjoint⟩

theorem AllocatorInv.step {s s' : Allocator × List Nat} (h : ∃ free, AllocatorInv g m s.1 s.2 free)
    (hs : AllocatorStep g s s') : ∃ free, AllocatorInv g m s'.1 s'.2 free := by
  obtain ⟨free, h⟩ := h
  cases hs with
  | allocate hr => exact (h.allocate_spec.ok hr).2.2
  | allocateFailed hr => exact (h.allocate_spec.error hr).2
  | deallocate hb hr => exact ⟨_, (h.deallocate_spec hb).ok hr⟩
  | rebuild hr =>
      obtain rfl := (create_destroy_spec h.ready).ok hr
      exact ⟨free, h.sync⟩

theorem AllocatorReachable.inv {s : Allocator × List Nat} (h : AllocatorReachable g m s) :
    ∃ free, AllocatorInv g m s.1 s.2 free := by
  obtain ⟨f, f₀, d, a₀, hz, hm, hc, rfl, hr⟩ := h
  induction hr with
  | refl => exact ⟨[], AllocatorInv.init hz hm hc⟩
  | tail _ hs ih => exact AllocatorInv.step ih hs

/-- 割り当て器は使用中のブロックを渡さない。

どの状態でも、空きの鎖は同じ番号を二度通らずに終わり、使用中のブロックと始めからあったブロックを含まない。
`allocate` は使用中でないブロックを `next_index` を零にして返すか、ファイルを伸ばせずに失敗する。使用中のブロックの
`deallocate` は失敗せず、壊して作り直した割り当て器は同じ空きの鎖を持つ。 -/
theorem allocator_never_hands_out_used (h : AllocatorReachable g m (a, used)) :
    (∃ free, Chain a.file.nextOf a.firstFreeBlock free ∧ free.Nodup ∧
      (∀ b ∈ free, b ∉ used ∧ m ≤ b) ∧
      Spec (Allocator.create g a.description) a.destroy
        (fun a' _ => Chain a'.file.nextOf a'.firstFreeBlock free) (fun _ _ => False)) ∧
    Spec (allocate g) a (fun b a' => b ∉ used ∧ (a'.file.block b).nextIndex = 0)
      (fun e _ => e.isResize) ∧
    ∀ b ∈ used, Spec (deallocate g b) a (fun _ _ => True) (fun _ _ => False) := by
  obtain ⟨free, hi⟩ := h.inv
  refine ⟨⟨free, hi.ready.chain, hi.ready.chain.nodup,
    fun b hb => ⟨fun hu => hi.disjoint b hu hb, hi.free_ge b hb⟩, ?_⟩, ?_, fun b hb => ?_⟩
  · refine (create_destroy_spec hi.ready).mono ?_ (fun _ _ h => h)
    rintro a' _ rfl
    exact hi.ready.sync.chain
  · exact hi.allocate_spec.mono (fun _ _ h => ⟨h.1, h.2.1⟩) (fun _ _ h => h.1)
  · exact (hi.deallocate_spec hb).mono (fun _ _ _ => trivial) (fun _ _ h => h)

def smallGeometry : Geometry := ⟨16, 13, by decide, by decide, by decide⟩

theorem allocator_never_hands_out_used_after_growth :
    ∃ a, AllocatorReachable smallGeometry 1 (a, [1]) ∧
      Spec (allocate smallGeometry) a (fun b a' => b ∉ [1] ∧ (a'.file.block b).nextIndex = 0)
        (fun e _ => e.isResize) := by
  obtain ⟨a, ha⟩ : ∃ a, (allocate smallGeometry).run ⟨⟨[Block.zero]⟩, 0, 0⟩ = .ok 1 a :=
    exists_of_returns (by decide +kernel)
  have hr : AllocatorReachable smallGeometry 1 (a, [1]) :=
    ⟨⟨[]⟩, _, 0, _, by decide, by decide, rfl, rfl, Relation.ReflTransGen.single (.allocate ha)⟩
  exact ⟨a, hr, (allocator_never_hands_out_used hr).2.1⟩

end UnixCommons.PlainStorage

/-!
## 鎖の書き込みの定理

書き込みの後の鎖は、データの大きさで決まる数のブロックからなり、読み出すと書いたデータに戻る。
-/

namespace UnixCommons.PlainStorage

open Lib

variable {g : Geometry} {a : Allocator} {w : PlainWriter} {s : Writing}
    {free rest old written cut free' : List Nat} {buf : Bytes}

theorem Rechained.cut_eq (h : Rechained old free written cut free') : cut = old.drop written.length := by
  cases h with
  | reused split => rw [split, List.drop_left]
  | extended => simp

theorem Rechained.take_prefix (h : Rechained old free written cut free') : old.take written.length <+: written := by
  cases h with
  | reused split => simp [split]
  | extended =>
      rw [List.take_of_length_le (by simp)]
      exact List.prefix_append ..

theorem Rechained.free_eq (h : Rechained old free written cut free') (hlt : written.length < old.length) : free' = free := by
  cases h with
  | reused => rfl
  | extended =>
      rw [List.length_append] at hlt
      omega

/-- 番号 `w.firstBlockIndex` から始まる鎖 `old` に `buf` を書いた後の状態。 -/
structure Stored (g : Geometry) (a : Allocator) (free old : List Nat) (w : PlainWriter)
    (buf : Bytes) (s : Writing) (written free' : List Nat) : Prop where
  chain : Chain s.allocator.file.nextOf w.firstBlockIndex written
  length : written.length = max 1 ((buf.length + g.availableSize - 1) / g.availableSize)
  reuses : old.take written.length <+: written
  content : written.flatMap s.allocator.file.blockBytes = buf
  readback : ∀ bufSize, buf.length ≤ bufSize →
    Spec (s.writer.readI bufSize) s.allocator.file (fun r f => f = s.allocator.file ∧
    r = (buf.length, buf)) (fun _ _ => False)
  freed : Chain s.allocator.file.nextOf s.allocator.firstFreeBlock ((old.drop written.length).reverse ++ free')
  freedOnce : ((old.drop written.length).reverse ++ free').Nodup
  kept : written.length < old.length → free' = free
  frame : ∀ i < a.file.count, i ∉ old → i ∉ free → i ≠ a.description → s.allocator.file.block i = a.file.block i

/-- `write_i_` の後、鎖は `max(1, ⌈size / available_size⌉)` 個のブロックからなり、内容は `buf` である。

十分な `buf` への `read_i_` は、書いたデータと大きさを返す。鎖から切られたブロックは、切られた順に空きの先頭に一度ずつ加わり、
ほかの鎖のブロックは変わらない。失敗するのは、元の鎖が足りず、ファイルを伸ばせない時だけである。`in_buf_offset` は `unsigned int`
なので、大きさは `2 ^ 32` より小さいものに限る。 -/
theorem write_i_stores (h : Held g a free w.firstBlockIndex (w.firstBlockIndex :: rest))
    (hg : 0 < g.availableSize) (_hsize : buf.length < 2 ^ 32) :
    Spec (PlainWriter.writeI g buf) ⟨a, w⟩
      (fun _ s => ∃ written free', Stored g a free (w.firstBlockIndex :: rest) w buf s
      written free') (fun e _ => e.isResize ∧ (w.firstBlockIndex :: rest).length < max 1
      ((buf.length + g.availableSize - 1) / g.availableSize)) := by
  refine (writeI_spec h hg).mono ?_ (fun _ _ he => he)
  rintro _ s ⟨hwriter, c, cut, free', hheld, heff, hbytes, hlength, hrechained⟩
  have hcut := hrechained.cut_eq
  subst hcut
  refine ⟨w.firstBlockIndex :: c, free', hheld.chain, hlength, hrechained.take_prefix, hbytes, fun bufSize hbuf => ?_,
    hheld.ready.chain, hheld.ready.chain.nodup, hrechained.free_eq, fun i hi hold hfree hdesc => ?_⟩
  · have hdata : s.writer.dataSize = ((w.firstBlockIndex :: c).flatMap s.allocator.file.blockBytes).length := by
      rw [hwriter, hbytes]
    have hchain : Chain s.allocator.file.nextOf s.writer.firstBlockIndex (w.firstBlockIndex :: c) := by
      rw [hwriter]
      exact hheld.chain
    have hne : s.writer.firstBlockIndex ≠ 0 := by
      rw [hwriter]
      exact hheld.chain.ne_zero _ List.mem_cons_self
    have hbound : s.writer.dataSize ≤ bufSize := by
      rw [hwriter]
      exact hbuf
    have hread := readI_spec hchain hne hheld.lt hdata hbound
    have hsize : s.writer.dataSize = buf.length := by rw [hwriter]
    rwa [hbytes, hsize] at hread
  · apply heff.frame i hi hdesc
    intro hmem
    rcases List.mem_append.mp hmem with hmem | hmem
    · exact hold hmem
    · exact hfree hmem

/-- 番号 1 から 2 へ続く鎖を持つファイル。 -/
def twoBlocks : Allocator := ⟨⟨[Block.zero, ⟨2, 8, fun _ => 1⟩, ⟨0, 3, fun _ => 2⟩]⟩, 0, 0⟩

theorem twoBlocks_held : Held smallGeometry twoBlocks [] 1 [1, 2] where
  ready := ⟨rfl, by simp, by decide, by simp, by decide⟩
  free_lt := by simp
  chain := ⟨rfl, by decide, rfl, by decide, rfl⟩
  lt := by decide
  not_free := by simp
  not_description := by decide

theorem write_i_stores_shorter :
    Spec (PlainWriter.writeI smallGeometry [7, 8, 9]) ⟨twoBlocks, ⟨1, 11, 0⟩⟩
      (fun _ s => ∃ written free', Stored smallGeometry twoBlocks [] [1, 2] ⟨1, 11, 0⟩
      [7, 8, 9] s written free') (fun e _ => e.isResize ∧ [1, 2].length < max 1
      (([7, 8, 9].length + smallGeometry.availableSize - 1) / smallGeometry.availableSize)) :=
  write_i_stores (w := ⟨1, 11, 0⟩) twoBlocks_held (by decide) (by decide)

end UnixCommons.PlainStorage
