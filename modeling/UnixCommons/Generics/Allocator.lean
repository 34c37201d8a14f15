import Mathlib
import UnixCommons.Generics.ArrayAutoPtr
import UnixCommons.Lib.Machine

/-!
# 割り当て

`Allocator.cpp` の `Default`、`VarSizeList`、`ConstSizeArray`、`Universal` の写し。ポインタは、`new` を行った順の番号である。
-/

namespace UnixCommons.Generics.Allocator

open Lib

/-! ## 大きさを揃える -/

def align (number mask : UInt64) : UInt64 := number + (-number &&& mask)

/-- `(1 << align_code) - 1`。`1` は `int` であり、31 以上のずらしには定義がない。 -/
def maskOf (alignCode : UInt64) : Option UInt64 := if alignCode < 31 then some
    (UInt64.ofNat (2 ^ alignCode.toNat - 1)) else none

structure MemoryBlock where
  size : UInt64
  ptr : Nat
  deriving DecidableEq, Repr

/-- `Default::DEF_ALIGN` の `MASK_`。 -/
def defaultMask : UInt64 := 1023

/-! ## 大きさの様々なブロックの置き場 -/

structure VarSizeList where
  mask : UInt64
  poolMemoryBlocks : List MemoryBlock
  blocksLimit : UInt64
  cached : UInt64
  deriving DecidableEq, Repr

def VarSizeList.create (alignCode blocksCount : UInt64) : Option VarSizeList := do
  let mask ← maskOf alignCode
  return ⟨mask, [], blocksCount, 0⟩

def takeBlock (size : UInt64) : List MemoryBlock → Option (MemoryBlock × List MemoryBlock)
  | [] => none
  | block :: blocks => if size ≤ block.size then some (block, blocks)
      else (takeBlock size blocks).map fun r => (r.1, block :: r.2)

/-- 置き場のブロックを渡すか、ブロックが `none` ならば、返した大きさで `new` を行う。 -/
def VarSizeList.allocate (l : VarSizeList) (size : UInt64) : UInt64 × Option Nat × VarSizeList :=
  let size := align size l.mask
  match takeBlock size l.poolMemoryBlocks with
  | some (block, blocks) =>
      (block.size, some block.ptr,
        { l with poolMemoryBlocks := blocks, blocksLimit := l.blocksLimit - 1, cached := l.cached - block.size })
  | none => (size, none, l)

/-- ブロックを受け取る。`delete` したブロックも返す。`node` は、`push_front` が節を得ることであり、得られなければ例外の後始末が解放する。 -/
def VarSizeList.deallocate (l : VarSizeList) (block : MemoryBlock) (node : Bool) : List MemoryBlock × VarSizeList :=
  if l.blocksLimit ≠ 0 then
    if node then
      ([], { l with poolMemoryBlocks := block :: l.poolMemoryBlocks, blocksLimit :=
        l.blocksLimit - 1, cached := l.cached + block.size })
    else
      ([block], l)
  else
    match l.poolMemoryBlocks.getLast? with
    | some last =>
        ([last], { l with poolMemoryBlocks := block :: l.poolMemoryBlocks.dropLast, cached :=
          l.cached - last.size + block.size })
    | none => ([], { l with cached := l.cached + block.size })

/-- `live` は渡したブロック、`blocks` は `new` で得た全てのブロック、`freed` は解放したブロックである。`grants` は、求めた大きさと知らせた大きさを
記す。 -/
structure State where
  list : VarSizeList
  live : List MemoryBlock
  blocks : List MemoryBlock
  freed : List MemoryBlock
  grants : List (UInt64 × UInt64)
  deriving DecidableEq, Repr

def State.init (list : VarSizeList) : State := ⟨list, [], [], [], []⟩

def totalSize (blocks : List MemoryBlock) : Nat := (blocks.map fun block => block.size.toNat).sum

def State.occupied (s : State) : Nat := totalSize s.blocks - totalSize s.freed

/-- `available` は、`new` が成功することである。`deallocate` は、渡したブロックの一つを、知らせた大きさで返す。 -/
inductive Action
  | allocate (size : UInt64) (available : Bool)
  | deallocate (i : Nat) (node : Bool)
  deriving DecidableEq, Repr

/-- ブロックは 64 ビットの番地の上で重ならないので、大きさの和が番地の数に達する `new` は失敗する。 -/
def State.allocate (s : State) (size : UInt64) (available : Bool) : State :=
  match s.list.allocate size with
  | (given, some ptr, list) => { s with list, live := ⟨given, ptr⟩ :: s.live, grants := (size, given) :: s.grants }
  | (given, none, list) =>
      if available ∧ s.occupied + given.toNat < 2 ^ 64 then
        let block : MemoryBlock := ⟨given, s.blocks.length⟩
        { s with list, live := block :: s.live, blocks := block :: s.blocks, grants := (size, given) :: s.grants }
      else
        s

def State.deallocate (s : State) (i : Nat) (block : MemoryBlock) (node : Bool) : State :=
  let (freed, list) := s.list.deallocate block node
  { s with list, live := s.live.eraseIdx i, freed := freed ++ s.freed }

def step (s : State) : Action → Option State
  | .allocate size available => some (s.allocate size available)
  | .deallocate i node => do return s.deallocate i (← s.live[i]?) node

/-! ## 大きさの等しいブロックの置き場 -/

structure ConstSizeArray where
  maxBlocksCount : UInt64
  blockSize : UInt64
  poolMemoryBlocks : List Nat
  hits : UInt64
  misses : UInt64
  deriving DecidableEq, Repr

def ConstSizeArray.create (maxBlocksCount blockSize : UInt64) : ConstSizeArray := ⟨maxBlocksCount, blockSize, [], 0, 0⟩

/-- 求めた大きさが大き過ぎれば、`OutOfMemory` を投げる。 -/
def ConstSizeArray.allocate (a : ConstSizeArray) (size : UInt64) : Option (UInt64 × Option Nat × ConstSizeArray) :=
  if a.blockSize < size then none
  else
    match a.poolMemoryBlocks with
    | ptr :: rest => some (a.blockSize, some ptr, { a with poolMemoryBlocks := rest, hits := a.hits + 1 })
    | [] => some (a.blockSize, none, { a with misses := a.misses + 1 })

/-- 表明 `size == BLOCK_SIZE_` の成否と、受け取った後の置き場。 -/
def ConstSizeArray.deallocate (a : ConstSizeArray) (ptr : Nat) (size : UInt64) : Bool × ConstSizeArray :=
  (size = a.blockSize,
    if a.poolMemoryBlocks.length < a.maxBlocksCount.toNat
    then { a with poolMemoryBlocks := ptr :: a.poolMemoryBlocks } else a)

/-- 受け取る時に、`pool_memory_blocks_` に確保した配列の外に書く。 -/
def ConstSizeArray.outside (a : ConstSizeArray) : Bool :=
  a.poolMemoryBlocks.length < a.maxBlocksCount.toNat ∧ arraySize a.maxBlocksCount.toNat ≤ a.poolMemoryBlocks.length

/-! ## 大きさで選ぶ割り当て -/

structure Parameters where
  defaultThresholdLow : UInt64
  defaultThresholdHigh : UInt64
  stepBetweenBuckets : UInt64
  firstBucket : UInt64
  bucketsNumber : UInt64
  bucketBlocksCount : UInt64
  unlimitedAlign : UInt64
  unlimitedVolume : UInt64
  statisticsPrecision : UInt64
  statisticsLimit : UInt64
  deriving DecidableEq, Repr

/-- `outside` は、構築子が、`blocks_pools_` か `statistics_` に確保した配列の外に書いたことである。 -/
structure Universal where
  params : Parameters
  blocksPools : List ConstSizeArray
  unlimited : VarSizeList
  outside : Bool
  deriving DecidableEq, Repr

def Parameters.bucketSize (p : Parameters) (index : UInt64) : UInt64 := p.firstBucket + index * p.stepBetweenBuckets

/-- `size_t` の大きさの配列を満たすと、確保した配列の外に書く。 -/
def overfills (size : UInt64) : Bool := arraySize size.toNat < size.toNat

/-- 統計の表の中身は、`print_cached` だけが読むので除く。 -/
def Universal.create (p : Parameters) : Option Universal := do
  let unlimited ← VarSizeList.create p.unlimitedAlign p.unlimitedVolume
  return ⟨p, (List.range p.bucketsNumber.toNat).map fun i => .create p.bucketBlocksCount
    (p.bucketSize (UInt64.ofNat i)), unlimited,
    overfills p.bucketsNumber || overfills (p.statisticsLimit + 1)⟩

inductive Place
  | default
  | bucket (index : UInt64)
  | unlimited
  deriving DecidableEq, Repr

def Parameters.getAllocator (p : Parameters) (size : UInt64) : Place :=
  if size ≤ p.defaultThresholdLow ∨ p.defaultThresholdHigh ≤ size then .default
  else if p.firstBucket + p.stepBetweenBuckets * (p.bucketsNumber - 1) < size ∨ p.bucketsNumber = 0 then .unlimited
  else .bucket (if size ≤ p.firstBucket then 0 else (size - p.firstBucket - 1) / p.stepBetweenBuckets + 1)

/-- 誤り。`Default` と `ConstSizeArray` の表明と、`OutOfMemory` と、置き場の番号と、配列の外に触れることと、64 以上のずらしである。 -/
inductive Fault
  | outside
  | shift (precision : UInt64)
  | defaultSize (size : UInt64)
  | blockSize (size blockSize : UInt64)
  | outOfMemory (size blockSize : UInt64)
  | bucketIndex (index : UInt64)
  deriving DecidableEq, Repr

/-- `sizes` は、番号のブロックを `new` で得た時の大きさである。表明に反した後も、表明のない版の通りに続ける。 -/
structure Heap where
  universal : Universal
  live : List MemoryBlock
  sizes : List UInt64
  faults : List Fault
  deriving DecidableEq, Repr

def Heap.init (universal : Universal) : Heap := ⟨universal, [], [], if universal.outside then [.outside] else []⟩

def Heap.fault (h : Heap) (fault : Fault) : Heap := { h with faults := fault :: h.faults }

/-- `statistics_` の要素を一つ増やす。 -/
def Heap.count (h : Heap) (size : UInt64) : Heap :=
  let p := h.universal.params
  if 64 ≤ p.statisticsPrecision then
    h.fault (.shift p.statisticsPrecision)
  else if arraySize (p.statisticsLimit + 1).toNat ≤
    (min (size >>> p.statisticsPrecision) p.statisticsLimit).toNat % 2 ^ 32 then
    h.fault .outside
  else
    h

/-- 置き場のブロックか、`new` で得たブロックを渡す。 -/
def Heap.give (h : Heap) (universal : Universal) (given : UInt64) (ptr : Option Nat) (available : Bool) : Heap :=
  match ptr with
  | some ptr => { h with universal, live := ⟨given, ptr⟩ :: h.live }
  | none =>
      if available then { h with universal, live := ⟨given, h.sizes.length⟩ :: h.live, sizes := h.sizes ++ [given] }
      else { h with universal }

/-- `get_allocator_(size)->allocate(size)`。 -/
def Heap.serve (h : Heap) (size : UInt64) (available : Bool) : Heap :=
  let u := h.universal
  match u.params.getAllocator size with
  | .default => h.give u (align size defaultMask) none available
  | .unlimited =>
      let (given, ptr, unlimited) := u.unlimited.allocate size
      h.give { u with unlimited } given ptr available
  | .bucket index =>
      match u.blocksPools[index.toNat]? with
      | none => h.fault (.bucketIndex index)
      | some array =>
          match array.allocate size with
          | none => h.fault (.outOfMemory size array.blockSize)
          | some (given, ptr, array) =>
              h.give { u with blocksPools := u.blocksPools.set index.toNat array } given ptr available

def Heap.allocate (h : Heap) (size : UInt64) (available : Bool) : Heap := (h.count size).serve size available

def Heap.deallocate (h : Heap) (i : Nat) (block : MemoryBlock) (node : Bool) : Heap :=
  let u := h.universal
  let h := { h with live := h.live.eraseIdx i }
  match u.params.getAllocator block.size with
  | .default => if block.size &&& defaultMask = 0 then h else h.fault (.defaultSize block.size)
  | .unlimited => { h with universal := { u with unlimited := (u.unlimited.deallocate block node).2 } }
  | .bucket index =>
      match u.blocksPools[index.toNat]? with
      | none => h.fault (.bucketIndex index)
      | some array =>
          let (ok, returned) := array.deallocate block.ptr block.size
          let h := { h with universal := { u with blocksPools := u.blocksPools.set index.toNat returned } }
          let h := if array.outside then h.fault .outside else h
          if ok then h else h.fault (.blockSize block.size array.blockSize)

def Heap.step (h : Heap) : Action → Option Heap
  | .allocate size available => some (h.allocate size available)
  | .deallocate i node => do return h.deallocate i (← h.live[i]?) node

end UnixCommons.Generics.Allocator
