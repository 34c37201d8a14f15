import UnixCommons.Generics.Lemmas.Universal

/-!
# 割り当ての定理

ブロックの置き場の数え方と、大きさで選ぶ割り当て。
-/

namespace UnixCommons.Generics.Allocator

open Lib

/-!
## 大きさの様々なブロックの置き場の定理

`allocate` は、置き場のブロックを渡す時に、残りの数を増やさずに減らす。満ちた置き場から渡すと、残りの数は零から溢れ、
置き場はいくらでも伸びる。
-/

section

variable {alignCode blocksCount : UInt64} {list : VarSizeList} {actions : List Action} {s : State}

/-- 列の途中のどの状態でも数が正しいのは、どの一歩も、置き場のブロックを渡さず、大きさを溢れさせず、ブロックを失わない時だけである。 -/
theorem var_size_list_bounded_iff (hcreate : VarSizeList.create alignCode blocksCount = some list)
    (hrun : execute step (State.init list) actions = some s) :
    (∀ before t, before <+: actions → execute step (State.init list) before = some t → t.Bounded blocksCount) ↔
      Along step Meets (State.init list) actions :=
  execute_iff_along (I := State.Inv alignCode blocksCount)
    (fun _ _ _ h hstep hok => h.step hstep hok) (fun _ h => h.bounded)
    (fun _ _ _ h hstep ht => h.meets hstep ht) (.init hcreate) hrun

def replacingRun : List Action := [.allocate 100 true, .allocate 200 true, .deallocate 0 true, .deallocate 0 true]

theorem var_size_list_bounded_iff_replacing :
    ∃ list s, VarSizeList.create 4 1 = some list ∧ execute step (State.init list) replacingRun = some s ∧
      s.list.poolMemoryBlocks = [⟨112, 0⟩] ∧ s.freed = [⟨208, 1⟩] ∧ s.Bounded 1 := by
  refine ⟨_, _, rfl, rfl, rfl, rfl, ?_⟩
  refine (@var_size_list_bounded_iff 4 1 _ replacingRun _ rfl rfl).mpr ?_ replacingRun _ (List.prefix_refl _) rfl
  decide

def wrappingRun : List Action :=
  [.allocate 100 true, .allocate 100 true, .deallocate 0 true, .allocate 100 true,
    .deallocate 0 true, .deallocate 0 true]

/-- 一つのブロックの置き場が、二つのブロックを持つ。 -/
theorem var_size_list_overgrows :
    ∃ list s, VarSizeList.create 4 1 = some list ∧ execute step (State.init list) wrappingRun = some s ∧
      s.list.poolMemoryBlocks.length = 2 ∧ ¬ s.Bounded 1 := by
  refine ⟨_, _, rfl, rfl, rfl, fun h => ?_⟩
  exact absurd h.pooled (by decide)

end

/-!
## 大きさで選ぶ割り当ての定理

求めた大きさで選び、知らせた大きさで返すので、揃えた大きさが境を越えると、別の割り当てに返る。
-/

section

variable {p : Parameters} {u : Universal}

/-- どの列でも誤りがなく、置き場のブロックが知らせる大きさ以上であるのは、配列の大きさが切り詰められず、境と格子と揃え方が
合う時だけである。 -/
theorem universal_safe_iff (hp : p.Proper) (hcreate : Universal.create p = some u) :
    (∀ actions heap, execute Heap.step (Heap.init u) actions = some heap → heap.Safe) ↔
      p.Allocated ∧ p.Fits u.unlimited.mask := by
  obtain ⟨unlimited, hlist, hu⟩ := Option.bind_eq_some_iff.mp hcreate
  obtain ⟨mask, hmask, hlist⟩ := Option.bind_eq_some_iff.mp hlist
  obtain rfl := Option.some.inj hlist
  obtain rfl := Option.some.inj hu
  obtain ⟨hsound, hnil, houtside⟩ := Universal.Sound.create rfl hmask hcreate
  exact (safe_iff_grants hp hsound hnil houtside).trans (and_congr_right fun _ => grants_iff hp hmask)

def defaultParameters : Parameters := ⟨32768, 2097152, 65536, 65536, 15, 100, 16, 10, 14, 128⟩

theorem universal_safe_iff_default :
    ∃ u, Universal.create defaultParameters = some u ∧
      ∀ actions heap, execute Heap.step (Heap.init u) actions = some heap → heap.Safe := by
  have hallocated : defaultParameters.Allocated := ⟨by decide, by decide, by decide, fun _ _ _ _ => by decide⟩
  exact ⟨_, rfl, (@universal_safe_iff defaultParameters _ ⟨by decide, by decide⟩ rfl).mpr
    ⟨hallocated, by decide, by decide, by decide⟩⟩

def unalignedParameters : Parameters := { defaultParameters with defaultThresholdLow := 100 }

/-- 既定の割り当てから得た 1024 バイトのブロックが、始めの番号の置き場に入り、65536 バイトとして渡される。 -/
theorem universal_pools_foreign_block :
    ∃ u heap, unalignedParameters.Proper ∧ Universal.create unalignedParameters = some u ∧
      execute Heap.step (Heap.init u) [.allocate 100 true, .deallocate 0 true, .allocate 2000 true] = some heap ∧
      heap.faults = [.blockSize 1024 65536] ∧ heap.live = [⟨65536, 0⟩] ∧ heap.sizes = [1024] ∧ ¬ heap.Safe := by
  refine ⟨_, _, ⟨by decide, by decide⟩, rfl, rfl, rfl, rfl, rfl, fun h => ?_⟩
  cases h.faults

end

end UnixCommons.Generics.Allocator
