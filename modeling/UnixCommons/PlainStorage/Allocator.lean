import UnixCommons.Lib.Bytes
import UnixCommons.Lib.Spec

/-! # ファイルとブロックの割り当て -/

/-!
## ブロックに分けたファイル

`BlockFileAdapter.hpp` と `BlockFileAdapter.cpp` の写し。ファイルはブロックの並びであり、`mmap` した領域は
すべて `MAP_SHARED` なので、ブロックの取っ手（`WriteBlockStruct`、`ReadBlockStruct`）は番号だけで表す。
ファイルの外のブロックは、`ftruncate` で伸ばした後と同じく零で埋まっているものとして読む。番号（`BlockIndex`）は
`Nat` で表す。`Geometry.index_fits` により、番号の計算は 32 ビットを越えない。
-/

namespace UnixCommons.PlainStorage

open Lib

/-- 例外と、C++ の動作が定まらない場合。`cause` は捕まえて包み直した元の例外である。 -/
inductive Failure
  /-- `resize_file_` が投げる `ResizeFailure` と、`ftruncate` の失敗の `PosixException`。 -/
  | resizeFailure
  | allocationFailed (cause : Failure)
  | deallocationFailed (cause : Failure)
  | bufferExhausted
  | readFailed (cause : Failure)
  | writeFailed (cause : Failure)
  | fileFormatError
  | syncIndexFailed (cause : Failure)
  | loadIndexFail (cause : Failure)
  | loadFailed (cause : Failure)
  | corruptedFile (cause : Failure)
  | headerBlockSmall
  | creationFailed (cause : Failure)
  | lengthError
  | nullHandle
  | busError
  /-- 解放した `WriteBlockFileAdapter` を指したままの取っ手。 -/
  | danglingAdapter
  | diverges
  deriving DecidableEq, Repr

def Failure.isResize : Failure → Bool
  | .resizeFailure => true
  | .allocationFailed e | .deallocationFailed e | .readFailed e | .writeFailed e | .syncIndexFailed e
  | .loadIndexFail e | .loadFailed e | .corruptedFile e | .creationFailed e => e.isResize
  | .bufferExhausted | .fileFormatError | .headerBlockSmall | .lengthError | .nullHandle | .busError
  | .danglingAdapter | .diverges => false

/-- `catch (const eh::Exception&)` が捕まえるもの。`eh::Exception` は `std::exception` である。残りは、終わらないか、C++ の動作が
定まらない場合である。 -/
def Failure.isException : Failure → Bool
  | .nullHandle | .busError | .danglingAdapter | .diverges => false
  | _ => true

def Failure.caught (wrap : Failure → Failure) (e : Failure) : Failure :=
  if e.isException then wrap e else e

def blockHeaderSize : Nat := 8

/-- `DefaultBlockAllocator::allocate` の `ALLOCATE_PORTION`。 -/
def allocatePortion : Nat := 10

/-- ブロックの大きさと、ファイルシステムがこのファイルに許すブロックの数。

`maxBlocks` を越える `ftruncate` は失敗する。ブロックの番号と大きさの欄は 32 ビットなので、ファイルシステムの
上限と `block_size_` がその範囲に収まることを前提に置く。 -/
structure Geometry where
  blockSize : Nat
  maxBlocks : Nat
  header_le : blockHeaderSize ≤ blockSize
  size_fits : blockSize - blockHeaderSize < 2 ^ 32
  index_fits : maxBlocks + allocatePortion < 2 ^ 32

/-- `block_data_size` と `available_size`。 -/
def Geometry.availableSize (g : Geometry) : Nat := g.blockSize - blockHeaderSize

def systemPageSize : Nat := 4096

/-- `map_page_size_` から見出しを除いた、一つのブロックの写しの中で読める領域。 -/
def Geometry.mappedSize (g : Geometry) : Nat :=
  g.blockSize - 1 + systemPageSize - (g.blockSize - 1) % systemPageSize - blockHeaderSize

theorem Geometry.availableSize_le_mappedSize (g : Geometry) : g.availableSize ≤ g.mappedSize := by
  unfold availableSize mappedSize systemPageSize
  omega

structure Block where
  nextIndex : Nat
  size : Nat
  content : Nat → UInt8

def Block.zero : Block := ⟨0, 0, fun _ => 0⟩

structure File where
  blocks : List Block

/-- `size_file_` と `max_block_index`。 -/
def File.count (f : File) : Nat := f.blocks.length

def File.block (f : File) (i : Nat) : Block := f.blocks.getD i Block.zero

def File.nextOf (f : File) (i : Nat) : Nat := (f.block i).nextIndex

def File.setBlock (f : File) (i : Nat) (b : Block) : File := ⟨f.blocks.set i b⟩

def File.setNextIndex (f : File) (i : Nat) (n : Nat) : File :=
  f.setBlock i { f.block i with nextIndex := n }

def File.setSize (f : File) (i : Nat) (n : Nat) : File :=
  f.setBlock i { f.block i with size := n }

def File.setContent (f : File) (i : Nat) (c : Nat → UInt8) : File :=
  f.setBlock i { f.block i with content := c }

/-- 利用者の領域の、番地 `off` の `FieldType` の欄。 -/
def File.field (f : File) (i : Nat) (off : Nat) : Nat := getField (f.block i).content off

def File.setField (f : File) (i : Nat) (off v : Nat) : File :=
  f.setContent i (Lib.setField (f.block i).content off v)

def File.blockBytes (f : File) (i : Nat) : Bytes :=
  readBytes (f.block i).content 0 (f.block i).size

def resizeFile (g : Geometry) (newSizeInBlocks : Nat) : EStateM Failure File PUnit := do
  if newSizeInBlocks ≤ g.maxBlocks then
    modify fun f => ⟨f.blocks ++ List.replicate (newSizeInBlocks - f.count) Block.zero⟩
  else
    throw .resizeFailure

/-- `WriteBlockFileAdapter::get_block`。ファイルの外の番号なら、ファイルを伸ばして見出しを零にする。 -/
def getBlock (g : Geometry) (i : Nat) : EStateM Failure File PUnit := do
  if (← get).count ≤ i then
    resizeFile g (i + 1)
    modify fun f => (f.setNextIndex i 0).setSize i 0

def next (g : Geometry) (i : Nat) : EStateM Failure File (Option Nat) := do
  let ind := ((← get).block i).nextIndex
  if ind = 0 then
    return none
  getBlock g ind
  return some ind

/-- `ReadBlockFileAdapter::get_block`。 -/
def getReadBlock (i : Nat) : EStateM Failure File PUnit := do
  if (← get).count ≤ i then
    throw .busError

def readNext (i : Nat) : EStateM Failure File (Option Nat) := do
  let ind := ((← get).block i).nextIndex
  if ind = 0 then
    return none
  getReadBlock ind
  return some ind

end UnixCommons.PlainStorage

/-!
## ブロックの割り当て

`Map.cpp` の `DefaultBlockAllocator` の写し。空きブロックは `first_free_block_` から `next_index` でつながる。
-/

namespace UnixCommons.PlainStorage

open Lib

/-- `DefaultBlockAllocator` と、それが書くファイル。`description` は `block_allocator_description_` の番号である。 -/
structure Allocator where
  file : File
  description : Nat
  firstFreeBlock : Nat

def Allocator.setFile (f : File) (a : Allocator) : Allocator := { a with file := f }

def onFile {α : Type} (x : EStateM Failure File α) : EStateM Failure Allocator α :=
  zoom Allocator.file Allocator.setFile x

def Allocator.create (g : Geometry) (firstDescriptionBlock : Nat) :
    EStateM Failure File Allocator := do
  getBlock g firstDescriptionBlock
  let f ← get
  return { file := f, description := firstDescriptionBlock,
           firstFreeBlock := f.field firstDescriptionBlock 0 }

def Allocator.sync (a : Allocator) : Allocator :=
  { a with file := a.file.setField a.description 0 a.firstFreeBlock }

/-- デストラクタ。最後の `sync_` の後のファイルを残す。 -/
def Allocator.destroy (a : Allocator) : File := a.sync.file

/-- 伸ばした部分をつなぐループ。 -/
def growLoop (g : Geometry) : Nat → Nat → Option Nat → EStateM Failure File PUnit
  | 0, _, _ => pure ()
  | _ + 1, _, none => throw .nullHandle
  | n + 1, i, some cur => do
      modify fun f => (f.setSize cur 0).setNextIndex cur (i + 1)
      let cur' ← next g cur
      growLoop g n (i + 1) cur'

/-- `first_free_block_ == 0` のときにファイルを伸ばす部分。 -/
def grow (g : Geometry) : EStateM Failure Allocator PUnit := do
  let maxBlockIndex := (← get).file.count
  let last := maxBlockIndex + allocatePortion - 1
  onFile (getBlock g last)
  onFile (modify fun f => (f.setSize last 0).setNextIndex last 0)
  onFile (getBlock g maxBlockIndex)
  modify fun a => { a with firstFreeBlock := maxBlockIndex }
  onFile (growLoop g allocatePortion maxBlockIndex (some maxBlockIndex))

def ensureFree (g : Geometry) : EStateM Failure Allocator PUnit := do
  if (← get).firstFreeBlock = 0 then
    grow g

def allocate (g : Geometry) : EStateM Failure Allocator Nat :=
  EStateM.adaptExcept (.caught .allocationFailed) do
    ensureFree g
    let firstFreeIndex := (← get).firstFreeBlock
    onFile (getBlock g firstFreeIndex)
    let newFirstFreeIndex := ((← get).file.block firstFreeIndex).nextIndex
    onFile (modify fun f => f.setNextIndex firstFreeIndex 0)
    modify fun a => { a with firstFreeBlock := newFirstFreeIndex }
    modify Allocator.sync
    return firstFreeIndex

def deallocate (g : Geometry) (blockToFree : Nat) : EStateM Failure Allocator PUnit :=
  EStateM.adaptExcept (.caught .deallocationFailed) do
    let firstFreeBlock := (← get).firstFreeBlock
    onFile (getBlock g blockToFree)
    onFile (modify fun f => f.setNextIndex blockToFree firstFreeBlock)
    modify fun a => { a with firstFreeBlock := blockToFree }
    modify Allocator.sync

end UnixCommons.PlainStorage
