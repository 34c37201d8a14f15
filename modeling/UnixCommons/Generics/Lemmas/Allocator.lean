import Mathlib.Algebra.BigOperators.Group.List.Basic
import Mathlib.Data.List.Perm.Basic
import UnixCommons.Generics.Allocator

/-!
# 割り当ての補題

置き場の数と大きさの和は、置き場のブロックを渡さず、受け取ったブロックを失わない間だけ、正しく数えられる。
-/

namespace UnixCommons.Generics.Allocator

open Lib

variable {size mask alignCode blocksCount : UInt64} {blocks rest : List MemoryBlock}
    {block : MemoryBlock} {list : VarSizeList} {s t : State}

/-! ## 大きさを揃える -/

theorem align_toNat (size mask : UInt64) :
    (align size mask).toNat = (size.toNat + (-size &&& mask).toNat) % 2 ^ 64 := UInt64.toNat_add _ _

theorem and_mask_le (size mask : UInt64) : (-size &&& mask).toNat ≤ mask.toNat := by
  rw [UInt64.toNat_and]
  exact Nat.and_le_right

theorem le_align (h : size.toNat + mask.toNat < 2 ^ 64) : size ≤ align size mask := by
  have hle := and_mask_le size mask
  rw [UInt64.le_iff_toNat_le, align_toNat, Nat.mod_eq_of_lt (by omega)]
  exact Nat.le_add_right _ _

theorem maskOf_eq (h : maskOf alignCode = some mask) : alignCode.toNat < 31 ∧ mask.toNat = 2 ^ alignCode.toNat - 1 := by
  rw [maskOf] at h
  split_ifs at h with hlt
  obtain rfl := Option.some.inj h
  have hcode : alignCode.toNat < 31 := UInt64.lt_iff_toNat_lt.mp hlt
  have hpow : 2 ^ alignCode.toNat ≤ 2 ^ 30 := Nat.pow_le_pow_right (by decide) (by omega)
  refine ⟨hcode, ?_⟩
  rw [UInt64.toNat_ofNat', Nat.mod_eq_of_lt (by omega)]

theorem and_mask_eq (h : maskOf alignCode = some mask) (size : UInt64) :
    (-size &&& mask).toNat = (2 ^ 64 - size.toNat) % 2 ^ alignCode.toNat := by
  obtain ⟨hcode, hmask⟩ := maskOf_eq h
  have hdvd : 2 ^ alignCode.toNat ∣ 2 ^ 64 := Nat.pow_dvd_pow 2 (by omega)
  rw [UInt64.toNat_and, hmask, Nat.and_two_pow_sub_one_eq_mod, UInt64.toNat_neg]
  exact Nat.mod_mod_of_dvd _ hdvd

theorem align_eq_zero (hmask : maskOf alignCode = some mask)
    (h : 2 ^ 64 ≤ size.toNat + mask.toNat) : (align size mask).toNat = 0 := by
  have hand := and_mask_eq hmask size
  obtain ⟨-, heq⟩ := maskOf_eq hmask
  have hsize := size.toNat_lt
  have hlt := mask.toNat_lt
  rw [Nat.mod_eq_of_lt (by omega)] at hand
  have hzero : size.toNat + (2 ^ 64 - size.toNat) = 2 ^ 64 := by omega
  rw [align_toNat, hand, hzero, Nat.mod_self]

theorem align_lt (hmask : maskOf alignCode = some mask) (h : 2 ^ 64 ≤ size.toNat + mask.toNat) :
    align size mask < size := by
  have hlt := mask.toNat_lt
  rw [UInt64.lt_iff_toNat_lt, align_eq_zero hmask h]
  omega

theorem takeBlock_eq_none_iff : takeBlock size blocks = none ↔ ∀ block ∈ blocks, block.size < size := by
  induction blocks with
  | nil => simp [takeBlock]
  | cons block blocks ih =>
      rw [takeBlock, List.forall_mem_cons]
      split_ifs with hle
      · exact iff_of_false (fun h => nomatch h) fun h => absurd h.1 (UInt64.not_lt.mpr hle)
      · rw [Option.map_eq_none_iff, ih, and_iff_right (UInt64.not_le.mp hle)]

theorem takeBlock_perm (h : takeBlock size blocks = some (block, rest)) :
    blocks.Perm (block :: rest) ∧ size ≤ block.size := by
  induction blocks generalizing rest with
  | nil => cases h
  | cons first blocks ih =>
      rw [takeBlock] at h
      split_ifs at h with hle
      · obtain ⟨rfl, rfl⟩ := Prod.mk.inj (Option.some.inj h)
        exact ⟨.refl _, hle⟩
      · obtain ⟨⟨taken, left⟩, htake, he⟩ := Option.map_eq_some_iff.mp h
        obtain ⟨rfl, rfl⟩ := Prod.mk.inj he
        obtain ⟨hperm, hsize⟩ := ih htake
        exact ⟨(hperm.cons first).trans (.swap _ _ _), hsize⟩

/-! ## 正しく数えた置き場 -/

structure State.Bounded (blocksCount : UInt64) (s : State) : Prop where
  pooled : s.list.poolMemoryBlocks.length ≤ blocksCount.toNat
  limit : s.list.blocksLimit.toNat = blocksCount.toNat - s.list.poolMemoryBlocks.length
  cached : s.list.cached.toNat = totalSize s.list.poolMemoryBlocks
  conserved : (s.live ++ s.list.poolMemoryBlocks ++ s.freed).Perm s.blocks
  distinct : (s.blocks.map MemoryBlock.ptr).Nodup
  granted : ∀ grant ∈ s.grants, grant.1 ≤ grant.2

def Meets (s : State) : Action → Prop
  | .allocate size available =>
      (∀ block ∈ s.list.poolMemoryBlocks, block.size < align size s.list.mask) ∧
        (size.toNat + s.list.mask.toNat < 2 ^ 64 ∨ ¬ (available ∧ s.occupied + (align size s.list.mask).toNat < 2 ^ 64))
  | .deallocate _ _ => s.list.blocksLimit ≠ 0 ∨ s.list.poolMemoryBlocks ≠ []

instance decidableMeets : (s : State) → (action : Action) → Decidable (Meets s action)
  | _, .allocate _ _ => inferInstanceAs (Decidable ((∀ _ ∈ _, _) ∧ (_ ∨ ¬ (_ ∧ _))))
  | _, .deallocate _ _ => inferInstanceAs (Decidable (_ ∨ _))

structure State.Inv (alignCode blocksCount : UInt64) (s : State) : Prop where
  bounded : s.Bounded blocksCount
  mask : maskOf alignCode = some s.list.mask
  numbered : s.blocks.map MemoryBlock.ptr = (List.range s.blocks.length).reverse
  fits : totalSize s.live + totalSize s.list.poolMemoryBlocks < 2 ^ 64

theorem totalSize_cons (block : MemoryBlock) (blocks : List MemoryBlock) :
    totalSize (block :: blocks) = block.size.toNat + totalSize blocks := List.sum_cons

theorem totalSize_append (blocks rest : List MemoryBlock) :
    totalSize (blocks ++ rest) = totalSize blocks + totalSize rest := by
  rw [totalSize, List.map_append, List.sum_append]
  rfl

theorem totalSize_concat (blocks : List MemoryBlock) (block : MemoryBlock) :
    totalSize (blocks ++ [block]) = totalSize blocks + block.size.toNat :=
  totalSize_append blocks [block]

theorem totalSize_perm (h : blocks.Perm rest) : totalSize blocks = totalSize rest := (h.map _).sum_eq

theorem State.Inv.occupied (h : s.Inv alignCode blocksCount) :
    s.occupied = totalSize s.live + totalSize s.list.poolMemoryBlocks := by
  have hsum := totalSize_perm h.bounded.conserved
  rw [totalSize_append, totalSize_append] at hsum
  rw [State.occupied]
  omega

theorem allocate_cases (s : State) (size : UInt64) (available : Bool) :
    (∃ block rest, takeBlock (align size s.list.mask) s.list.poolMemoryBlocks = some (block, rest) ∧
      s.allocate size available =
        { s with
          list := { s.list with poolMemoryBlocks := rest, blocksLimit :=
            s.list.blocksLimit - 1, cached := s.list.cached - block.size }
          live := block :: s.live
          grants := (size, block.size) :: s.grants }) ∨
    (∀ block ∈ s.list.poolMemoryBlocks, block.size < align size s.list.mask) ∧
      ((available = true ∧ s.occupied + (align size s.list.mask).toNat < 2 ^ 64) ∧
          s.allocate size available =
            { s with
              live := ⟨align size s.list.mask, s.blocks.length⟩ :: s.live
              blocks := ⟨align size s.list.mask, s.blocks.length⟩ :: s.blocks
              grants := (size, align size s.list.mask) :: s.grants } ∨
        ¬ (available = true ∧ s.occupied + (align size s.list.mask).toNat < 2 ^ 64) ∧
          s.allocate size available = s) := by
  rw [State.allocate, VarSizeList.allocate]
  cases htake : takeBlock (align size s.list.mask) s.list.poolMemoryBlocks with
  | some r =>
      obtain ⟨block, rest⟩ := r
      exact .inl ⟨block, rest, rfl, rfl⟩
  | none =>
      refine .inr ⟨takeBlock_eq_none_iff.mp htake, ?_⟩
      dsimp only
      split_ifs with hnew
      · exact .inl ⟨hnew, rfl⟩
      · exact .inr ⟨hnew, rfl⟩

theorem deallocate_cases (s : State) (i : Nat) (block : MemoryBlock) (node : Bool) :
    s.list.blocksLimit ≠ 0 ∧ node = true ∧ s.deallocate i block node =
        { s with
          list := { s.list with
            poolMemoryBlocks := block :: s.list.poolMemoryBlocks
            blocksLimit := s.list.blocksLimit - 1
            cached := s.list.cached + block.size }
          live := s.live.eraseIdx i } ∨
    s.list.blocksLimit ≠ 0 ∧ node = false ∧
      s.deallocate i block node = { s with live := s.live.eraseIdx i, freed := block :: s.freed } ∨
    (∃ before last, s.list.blocksLimit = 0 ∧ s.list.poolMemoryBlocks = before ++ [last] ∧ s.deallocate i block node =
        { s with
          list := { s.list with poolMemoryBlocks := block :: before, cached := s.list.cached - last.size + block.size }
          live := s.live.eraseIdx i
          freed := last :: s.freed }) ∨
    s.list.blocksLimit = 0 ∧ s.list.poolMemoryBlocks = [] ∧
      s.deallocate i block node =
      { s with list := { s.list with cached := s.list.cached + block.size }, live := s.live.eraseIdx i } := by
  obtain ⟨⟨mask, pool, limit, cached⟩, live, blocks, freed, grants⟩ := s
  rw [State.deallocate, VarSizeList.deallocate]
  dsimp only
  by_cases hlimit : limit = 0
  · rw [if_neg (not_not.mpr hlimit)]
    refine .inr (.inr ?_)
    rcases List.eq_nil_or_concat pool with rfl | ⟨before, last, hpool⟩
    · exact .inr ⟨hlimit, rfl, rfl⟩
    · rw [List.concat_eq_append] at hpool
      subst hpool
      refine .inl ⟨before, last, hlimit, rfl, ?_⟩
      simp
  · rw [if_pos hlimit]
    cases node with
    | true => exact .inl ⟨hlimit, rfl, rfl⟩
    | false => exact .inr (.inl ⟨hlimit, rfl, rfl⟩)

theorem perm_eraseIdx {i : Nat} {live : List MemoryBlock} (h : live[i]? = some block) :
    live.Perm (block :: live.eraseIdx i) := by
  obtain ⟨hlt, rfl⟩ := List.getElem?_eq_some_iff.mp h
  exact (List.getElem_cons_eraseIdx_perm hlt).symm

theorem nodup_of_numbered (h : blocks.map MemoryBlock.ptr = (List.range blocks.length).reverse) :
    (blocks.map MemoryBlock.ptr).Nodup := by
  rw [h]
  exact (List.reverse_perm _).nodup_iff.mpr List.nodup_range

theorem State.Inv.init (hcreate : VarSizeList.create alignCode blocksCount = some list) :
    (State.init list).Inv alignCode blocksCount := by
  obtain ⟨mask, hmask, hlist⟩ := Option.bind_eq_some_iff.mp hcreate
  obtain rfl := Option.some.inj hlist
  exact ⟨⟨Nat.zero_le _, rfl, rfl, .refl _, List.nodup_nil, fun grant hgrant => nomatch hgrant⟩,
    hmask, rfl, Nat.two_pow_pos 64⟩

theorem toNat_pred (h : size ≠ 0) : (size - 1).toNat = size.toNat - 1 ∧ 0 < size.toNat := by
  have hpos : 0 < size.toNat := Nat.pos_of_ne_zero fun hzero => h (UInt64.toNat_inj.mp hzero)
  exact ⟨UInt64.toNat_sub_of_le size 1 (UInt64.le_iff_toNat_le.mpr hpos), hpos⟩

theorem State.Inv.step {action : Action} (h : s.Inv alignCode blocksCount)
    (hstep : Allocator.step s action = some t) (hok : Meets s action) :
    t.Inv alignCode blocksCount := by
  have hoccupied := h.occupied
  obtain ⟨⟨hpooled, hlimit, hcached, hconserved, hdistinct, hgranted⟩, hmask, hnumbered, hfits⟩ := h
  cases action with
  | allocate size available =>
      obtain rfl := Option.some.inj hstep
      obtain ⟨hmiss, hgrant⟩ := hok
      rcases allocate_cases s size available with ⟨block, rest, htake, -⟩ | ⟨-, ⟨hnew, heq⟩ | ⟨-, heq⟩⟩
      · obtain ⟨hperm, hle⟩ := takeBlock_perm htake
        have hlt := hmiss block (hperm.mem_iff.mpr List.mem_cons_self)
        exact absurd hle (UInt64.not_le.mpr hlt)
      · have hnumbered' : s.blocks.length :: s.blocks.map MemoryBlock.ptr =
            (List.range (s.blocks.length + 1)).reverse := by
          rw [hnumbered, List.range_succ, List.reverse_append]
          rfl
        have hle : size ≤ align size s.list.mask := le_align (hgrant.resolve_right (not_not.mpr hnew))
        rw [heq]
        refine ⟨⟨hpooled, hlimit, hcached, hconserved.cons _, nodup_of_numbered hnumbered', ?_⟩, hmask, hnumbered', ?_⟩
        · exact List.forall_mem_cons.mpr ⟨hle, hgranted⟩
        · rw [totalSize_cons]
          dsimp only
          omega
      · rw [heq]
        exact ⟨⟨hpooled, hlimit, hcached, hconserved, hdistinct, hgranted⟩, hmask, hnumbered, hfits⟩
  | deallocate i node =>
      obtain ⟨block, hblock, hstep⟩ := Option.bind_eq_some_iff.mp hstep
      obtain rfl := Option.some.inj hstep
      have hlive := perm_eraseIdx hblock
      have hsize := totalSize_perm hlive
      rw [totalSize_cons] at hsize
      -- 返したブロックを先頭に出す。
      have hmoved : (block :: (s.live.eraseIdx i ++ s.list.poolMemoryBlocks ++ s.freed)).Perm s.blocks :=
        ((hlive.symm.append_right _).append_right _).trans hconserved
      rcases deallocate_cases s i block node with ⟨hpos, -, heq⟩ | ⟨hpos, -, heq⟩ |
        ⟨before, last, hzero, hpool, heq⟩ | ⟨hzero, hnil, -⟩
      · obtain ⟨hpred, hlt⟩ := toNat_pred hpos
        rw [heq]
        refine ⟨⟨?_, ?_, ?_, ?_, hdistinct, hgranted⟩, hmask, hnumbered, ?_⟩
        · rw [List.length_cons]
          omega
        · dsimp only
          rw [hpred, List.length_cons]
          omega
        · dsimp only
          rw [UInt64.toNat_add, totalSize_cons, hcached, Nat.mod_eq_of_lt (by omega), Nat.add_comm]
        · exact (List.perm_middle.append_right _).trans hmoved
        · dsimp only
          rw [totalSize_cons]
          omega
      · rw [heq]
        exact ⟨⟨hpooled, hlimit, hcached, List.perm_middle.trans hmoved, hdistinct, hgranted⟩,
          hmask, hnumbered, by dsimp only; omega⟩
      · rw [hpool] at hpooled hlimit hcached hfits hmoved
        rw [totalSize_concat] at hcached hfits
        rw [List.length_append, List.length_singleton] at hpooled hlimit
        have hlast : last.size ≤ s.list.cached := by
          rw [UInt64.le_iff_toNat_le, hcached]
          omega
        rw [heq]
        refine ⟨⟨?_, ?_, ?_, ?_, hdistinct, hgranted⟩, hmask, hnumbered, ?_⟩
        · rw [List.length_cons]
          omega
        · rw [List.length_cons]
          exact hlimit
        · dsimp only
          rw [UInt64.toNat_add, UInt64.toNat_sub_of_le _ _ hlast, totalSize_cons, hcached]
          rw [Nat.mod_eq_of_lt (by omega)]
          omega
        · have hsame : s.live.eraseIdx i ++ (before ++ [last]) ++ s.freed = s.live.eraseIdx i ++
              before ++ last :: s.freed := by simp
          rw [hsame] at hmoved
          exact (List.perm_middle.append_right _).trans hmoved
        · dsimp only
          rw [totalSize_cons]
          omega
      · exact absurd hok (not_or.mpr ⟨not_not.mpr hzero, not_not.mpr hnil⟩)

theorem State.Inv.meets {action : Action} (h : s.Inv alignCode blocksCount)
    (hstep : Allocator.step s action = some t) (ht : t.Bounded blocksCount) : Meets s action := by
  obtain ⟨⟨hpooled, hlimit, hcached, hconserved, hdistinct, hgranted⟩, hmask, hnumbered, hfits⟩ := h
  cases action with
  | allocate size available =>
      obtain rfl := Option.some.inj hstep
      rcases allocate_cases s size available with ⟨block, rest, htake, heq⟩ | ⟨hmiss, ⟨hnew, heq⟩ | ⟨hfail, -⟩⟩
      · -- 渡した後の残りの数は、増えるはずであるが、減る。
        obtain ⟨hperm, -⟩ := takeBlock_perm htake
        have hlen := hperm.length_eq
        have hcount := blocksCount.toNat_lt
        rw [heq] at ht
        have hafter : (s.list.blocksLimit - 1).toNat = blocksCount.toNat - rest.length := ht.limit
        rw [List.length_cons] at hlen
        rw [UInt64.toNat_sub] at hafter
        have hone : (1 : UInt64).toNat = 1 := rfl
        omega
      · refine ⟨hmiss, .inl ?_⟩
        by_contra hover
        have hlt := align_lt hmask (Nat.not_lt.mp hover)
        rw [heq] at ht
        exact absurd (ht.granted _ List.mem_cons_self) (UInt64.not_le.mpr hlt)
      · exact ⟨hmiss, .inr hfail⟩
  | deallocate i node =>
      obtain ⟨block, hblock, hstep⟩ := Option.bind_eq_some_iff.mp hstep
      obtain rfl := Option.some.inj hstep
      rcases deallocate_cases s i block node with ⟨hpos, -⟩ | ⟨hpos, -⟩ |
        ⟨before, last, -, hpool, -⟩ | ⟨hzero, hnil, heq⟩
      · exact .inl hpos
      · exact .inl hpos
      · exact .inr (by rw [hpool]; simp)
      · -- 失われたブロックは、どこにもない。
        rw [heq] at ht
        have hbefore := hconserved.length_eq
        have hafter := ht.conserved.length_eq
        have hlive := (perm_eraseIdx hblock).length_eq
        simp only [List.length_append, List.length_cons] at hbefore hafter hlive
        omega

/-! ## 揃えた大きさ -/

theorem align_eq_sub (hmask : maskOf alignCode = some mask) (size : UInt64) :
    (align size mask).toNat = (2 ^ 64 - 2 ^ alignCode.toNat * ((2 ^ 64 - size.toNat) / 2 ^ alignCode.toNat)) % 2 ^ 64 := by
  have hsize := size.toNat_lt
  have hdiv := Nat.div_add_mod (2 ^ 64 - size.toNat) (2 ^ alignCode.toNat)
  rw [align_toNat, and_mask_eq hmask]
  congr 1
  omega

theorem align_dvd (hmask : maskOf alignCode = some mask) (size : UInt64) : 2 ^ alignCode.toNat ∣
    (align size mask).toNat := by
  have hdvd : 2 ^ alignCode.toNat ∣ 2 ^ 64 := Nat.pow_dvd_pow 2 (by have := (maskOf_eq hmask).1; omega)
  rw [align_eq_sub hmask]
  exact (Nat.dvd_mod_iff hdvd).mpr (Nat.dvd_sub hdvd (Nat.dvd_mul_right _ _))

theorem align_eq_zero_or_le (hmask : maskOf alignCode = some mask) (size : UInt64) :
    (align size mask).toNat = 0 ∨ size ≤ align size mask := by
  by_cases hover : 2 ^ 64 ≤ size.toNat + mask.toNat
  · exact .inl (align_eq_zero hmask hover)
  · exact .inr (le_align (Nat.not_le.mp hover))

theorem align_eq_of_lt {x : UInt64} (hmask : maskOf alignCode = some mask) (hle : size ≤ x)
    (hlt : x < align size mask) : align x mask = align size mask := by
  have hx := x.toNat_lt
  have hpow : 0 < 2 ^ alignCode.toNat := Nat.two_pow_pos _
  rw [UInt64.le_iff_toNat_le] at hle
  rw [UInt64.lt_iff_toNat_lt, align_eq_sub hmask] at hlt
  have hdiv := Nat.div_add_mod (2 ^ 64 - size.toNat) (2 ^ alignCode.toNat)
  have hrem := Nat.mod_lt (2 ^ 64 - size.toNat) hpow
  have hmod := Nat.mod_le (2 ^ 64 - 2 ^ alignCode.toNat * ((2 ^ 64 - size.toNat) / 2 ^ alignCode.toNat)) (2 ^ 64)
  have hsame : (2 ^ 64 - x.toNat) / 2 ^ alignCode.toNat = (2 ^ 64 - size.toNat) / 2 ^ alignCode.toNat := by
    refine Nat.div_eq_of_lt_le ?_ ?_
    · rw [Nat.mul_comm]
      omega
    · rw [Nat.add_mul, Nat.one_mul, Nat.mul_comm]
      omega
  rw [← UInt64.toNat_inj, align_eq_sub hmask, align_eq_sub hmask, hsame]

theorem maskOf_default : maskOf 10 = some defaultMask := rfl

theorem and_default_iff (size : UInt64) : size &&& defaultMask = 0 ↔ 1024 ∣ size.toNat := by
  rw [← UInt64.toNat_inj, UInt64.toNat_and, show defaultMask.toNat = 2 ^ 10 - 1 from rfl, Nat.and_two_pow_sub_one_eq_mod]
  exact (Nat.dvd_iff_mod_eq_zero).symm

end UnixCommons.Generics.Allocator
