import UnixCommons.PlainStorage.Allocator

/-! # 鎖の読み書きとキーの索引 -/

/-!
## 鎖の読み書き

`Map.cpp` の `PlainReader::read_i_` と `PlainWriter::write_i_` の写し。一つのキーのデータは、ブロックの鎖に分けて置かれる。
鎖が閉路を持たない限り、ループの残りの回数は足りる。
-/

namespace UnixCommons.PlainStorage

open Lib

structure PlainWriter where
  firstBlockIndex : Nat
  dataSize : Nat
  session : Nat
  deriving DecidableEq, Repr

/-- 鎖をたどって `buf` に写すループ。 -/
def readLoop (bufSize : Nat) : Nat → Option Nat → Bytes → EStateM Failure File Bytes
  | _, none, buf => pure buf
  | 0, some _, _ => throw .diverges
  | n + 1, some readCur, buf => do
      let blk := (← get).block readCur
      if buf.length + blk.size > bufSize then
        throw .bufferExhausted
      else
        let readCur ← readNext readCur
        readLoop bufSize n readCur (buf ++ readBytes blk.content 0 blk.size)

def PlainWriter.readI (w : PlainWriter) (bufSize : Nat) : EStateM Failure File (Nat × Bytes) :=
  if w.dataSize > bufSize then
    return (0, [])
  else do
    let buf ← EStateM.adaptExcept (.caught .readFailed) do
      getReadBlock w.firstBlockIndex
      readLoop bufSize ((bufSize + 2) * (← get).count) (some w.firstBlockIndex) []
    return (w.dataSize, buf)

def advance (g : Geometry) (writeCur : Nat) : EStateM Failure Allocator Nat := do
  if ((← get).file.block writeCur).nextIndex = 0 then
    let newBlock ← allocate g
    onFile (modify fun f => f.setNextIndex writeCur newBlock)
    match ← onFile (next g writeCur) with
    | none => throw .nullHandle
    | some writeCur =>
        onFile (modify fun f => f.setNextIndex writeCur 0)
        return writeCur
  else
    match ← onFile (next g writeCur) with
    | none => throw .nullHandle
    | some writeCur => return writeCur

/-- `buf` を鎖に分けて書くループ。 -/
def writeLoop (g : Geometry) (buf : Bytes) : Nat → Nat → Nat → EStateM Failure Allocator Nat
  | n, inBufOffset, writeCur =>
      if inBufOffset < buf.length then
        match n with
        | 0 => throw .diverges
        | n + 1 => do
            let sizeToWrite := min g.availableSize (buf.length - inBufOffset)
            onFile (modify fun f => f.setSize writeCur sizeToWrite)
            onFile (modify fun f => f.setContent writeCur
              (writeBytes (f.block writeCur).content 0 ((buf.drop inBufOffset).take sizeToWrite)))
            let inBufOffset := inBufOffset + sizeToWrite
            if inBufOffset < buf.length then
              let writeCur ← advance g writeCur
              writeLoop g buf n inBufOffset writeCur
            else
              writeLoop g buf n inBufOffset writeCur
      else
        pure writeCur

def deallocLoop (g : Geometry) : Nat → Option Nat → EStateM Failure Allocator PUnit
  | _, none => pure ()
  | 0, some _ => throw .diverges
  | n + 1, some deallocIndex => do
      let deallocCur ← onFile (next g deallocIndex)
      deallocate g deallocIndex
      deallocLoop g n deallocCur

/-- `write_i_` の、データを書いて鎖を切るまで。余った鎖の先頭を返す。 -/
def writeData (g : Geometry) (firstBlockIndex : Nat) (buf : Bytes) : EStateM Failure Allocator (Option Nat) := do
  onFile (getBlock g firstBlockIndex)
  let writeCur ←
    if buf.length ≠ 0 then
      writeLoop g buf (buf.length + g.maxBlocks + 1) 0 firstBlockIndex
    else do
      onFile (modify fun f => f.setSize firstBlockIndex 0)
      pure firstBlockIndex
  let deallocCur ← onFile (next g writeCur)
  onFile (modify fun f => f.setNextIndex writeCur 0)
  return deallocCur

structure Writing where
  allocator : Allocator
  writer : PlainWriter

def Writing.setAllocator (a : Allocator) (s : Writing) : Writing := { s with allocator := a }

def PlainWriter.writeI (g : Geometry) (buf : Bytes) : EStateM Failure Writing PUnit :=
  EStateM.adaptExcept (.caught .writeFailed) do
    let s ← get
    let deallocCur ← zoom Writing.allocator Writing.setAllocator
      (writeData g s.writer.firstBlockIndex buf)
    modify fun s => { s with writer := { s.writer with dataSize := buf.length } }
    let n := (← get).allocator.file.count
    zoom Writing.allocator Writing.setAllocator (deallocLoop g n deallocCur)

end UnixCommons.PlainStorage

/-!
## キーの索引

`DefaultSyncIndexStrategy.tpp` の写し。索引の記述ブロックは、キーの鎖の先頭のブロックの番号を持つ。キーの記録は、
先頭のブロックの使っている部分の後ろに加わり、入らなければ新しいブロックを鎖の前につなぐ。
-/

namespace UnixCommons.PlainStorage

open Lib

/-- `KeyAccessor`。`save` は、`size` バイトの領域に書くバイトである。 -/
structure KeyAccessor (κ : Type) where
  size : κ → Nat
  save : κ → Bytes
  load : Bytes → κ
  length_save : ∀ k, (save k).length = size k
  load_save : ∀ k, load (save k) = k

/-- `DefaultWriteIndexAccessor<std::string>`。 -/
def defaultWriteIndexAccessor : KeyAccessor Bytes := ⟨List.length, id, id, fun _ => rfl, fun _ => rfl⟩

def keyHeaderSize : Nat := 12

/-! `KeyHeader` の欄の番地。 -/

def khKeySize : Nat := 0
def khDataBlock : Nat := 4
def khMark : Nat := 8

def markValid : Nat := 0
def markDeleted : Nat := 1

structure KeyAddition where
  blockIndex : Nat
  blockOffset : Nat
  deriving DecidableEq, Repr

/-- `DefaultSyncIndexStrategy` と、それが使う割り当て器。`descrBlock` と `firstKeysBlock` は取っ手の番号である。 -/
structure Index where
  allocator : Allocator
  descrBlock : Nat
  firstKeysBlock : Nat

def Index.setAllocator (a : Allocator) (s : Index) : Index := { s with allocator := a }

def Index.file (s : Index) : File := s.allocator.file

def Index.setFile (f : File) (s : Index) : Index := s.setAllocator (s.allocator.setFile f)

def onAllocator {α : Type} (x : EStateM Failure Allocator α) : EStateM Failure Index α :=
  zoom Index.allocator Index.setAllocator x

def onIndexFile {α : Type} (x : EStateM Failure File α) : EStateM Failure Index α :=
  zoom Index.file Index.setFile x

def Index.sync (s : Index) : Index :=
  s.setFile (s.file.setField s.descrBlock 0 s.firstKeysBlock)

def Index.create (g : Geometry) (descrBlockIndex : Nat) : EStateM Failure Allocator Index :=
  EStateM.adaptExcept (.caught .syncIndexFailed) do
    onFile (getBlock g descrBlockIndex)
    let firstKeysBlockIndex := (← get).file.field descrBlockIndex 0
    if firstKeysBlockIndex = 0 then
      let firstKeysBlockIndex ← allocate g
      onFile (getBlock g firstKeysBlockIndex)
      onFile (modify fun f => f.setField descrBlockIndex 0 firstKeysBlockIndex)
      return ⟨← get, descrBlockIndex, firstKeysBlockIndex⟩
    else
      onFile (getBlock g firstKeysBlockIndex)
      return ⟨← get, descrBlockIndex, firstKeysBlockIndex⟩

section Operations

variable {κ : Type} (acc : KeyAccessor κ) (g : Geometry)

def putRecord (c : Nat → UInt8) (off : Nat) (key : κ) (firstDataBlock : Nat) : Nat → UInt8 :=
  writeBytes
    (setField
      (setField (setField c (off + khKeySize) (keyHeaderSize + acc.size key)) (off + khDataBlock)
      firstDataBlock) (off + khMark) markValid)
    (off + keyHeaderSize) (acc.save key)

/-- 新しいキーのブロックを鎖の前につなぐ部分。大きさの検査は、つないだ後にある。 -/
def pushKeysBlock (key : κ) : EStateM Failure Index PUnit := do
  let oldFirstKeysBlockIndex := (← get).firstKeysBlock
  let newKeysBlockIndex ← onAllocator (allocate g)
  onIndexFile (getBlock g newKeysBlockIndex)
  modify fun s => { s with firstKeysBlock := newKeysBlockIndex }
  onIndexFile (modify fun f => f.setNextIndex newKeysBlockIndex oldFirstKeysBlockIndex)
  if g.availableSize < acc.size key + keyHeaderSize then
    throw .fileFormatError

/-- `save_` の、書く場所を決める部分。`write_block` は `first_keys_block_` への参照である。 -/
def reserve (key : κ) : EStateM Failure Index Nat := do
  let s ← get
  let usedSize := (s.file.block s.firstKeysBlock).size
  if (g.availableSize + 2 ^ 64 - usedSize) % 2 ^ 64 < acc.size key + keyHeaderSize then
    pushKeysBlock acc g key
    return 0
  else
    return usedSize

/-- `save_`。返す真偽は、先頭のブロックが変わったかどうかである。 -/
def save (key : κ) (firstDataBlock : Nat) : EStateM Failure Index (KeyAddition × Bool) := do
  let oldFirstKeysBlockIndex := (← get).firstKeysBlock
  let usedSize ← reserve acc g key
  let writeBlock := (← get).firstKeysBlock
  onIndexFile (modify fun f => f.setSize writeBlock (usedSize + keyHeaderSize + acc.size key))
  onIndexFile (modify fun f =>
    f.setContent writeBlock (putRecord acc (f.block writeBlock).content usedSize key firstDataBlock))
  return (⟨writeBlock, usedSize⟩, decide (oldFirstKeysBlockIndex ≠ writeBlock))

def Index.insert (key : κ) (firstDataBlock : Nat) : EStateM Failure Index KeyAddition := do
  let (keyAddition, changed) ← save acc g key firstDataBlock
  if changed then
    modify Index.sync
  return keyAddition

def Index.update (firstDataBlock : Nat) (keyAddition : KeyAddition) : EStateM Failure Index PUnit := do
  onIndexFile (getBlock g keyAddition.blockIndex)
  onIndexFile (modify fun f =>
    f.setField keyAddition.blockIndex (keyAddition.blockOffset + khDataBlock) firstDataBlock)

def Index.erase (keyAddition : KeyAddition) : EStateM Failure Index PUnit := do
  let b := keyAddition.blockIndex
  let off := keyAddition.blockOffset
  onIndexFile (getBlock g b)
  let f := (← get).file
  if (f.block b).size = off + f.field b (off + khKeySize) then
    onIndexFile (modify fun f => f.setSize b off)
  else
    onIndexFile (modify fun f => f.setField b (off + khMark) markDeleted)

end Operations

/-! ### 読み込み

`load` は、消されていない記録のそれぞれについて `load_key` を呼ぶ。`load_key` の状態を `σ`、その中のファイルを `file` と
する。ループの残りの回数を使い切るのは、元のループが終わらない場合だけである。 -/

section Load

variable {κ σ : Type} (acc : KeyAccessor κ) (file : σ → File)
  (loadKey : κ → Nat → KeyAddition → EStateM Failure σ PUnit)

/-- 一つのブロックの記録を順に読むループ。 -/
def loadBlock (mapped b sz : Nat) : Nat → Nat → EStateM Failure σ PUnit
  | n, inBlockOffset =>
      if inBlockOffset < sz then
        match n with
        | 0 => throw .diverges
        | n + 1 => do
            let c := ((file (← get)).block b).content
            if mapped < inBlockOffset + keyHeaderSize then
              throw .busError
            let keySize := getField c (inBlockOffset + khKeySize)
            if getField c (inBlockOffset + khMark) ≠ markDeleted then
              -- 見出しより短い記録では、キーの長さの引き算が桁あふれする。
              if keySize < keyHeaderSize then
                throw .lengthError
              if mapped < inBlockOffset + keySize then
                throw .busError
              loadKey (acc.load (readBytes c (inBlockOffset + keyHeaderSize) (keySize - keyHeaderSize)))
                (getField c (inBlockOffset + khDataBlock)) ⟨b, inBlockOffset⟩
            loadBlock mapped b sz n (inBlockOffset + keySize)
      else
        pure ()

def loadBlocks (mapped : Nat) : Nat → Option Nat → EStateM Failure σ PUnit
  | _, none => pure ()
  | 0, some _ => throw .diverges
  | n + 1, some b => do
      let sz := ((file (← get)).block b).size
      loadBlock acc file loadKey mapped b sz sz 0
      let blockCur ← observe file (readNext b)
      loadBlocks mapped n blockCur

def load (mapped firstKeysBlock : Nat) : EStateM Failure σ PUnit :=
  EStateM.adaptExcept (.caught .loadIndexFail) do
    loadBlocks acc file loadKey mapped (file (← get)).count (some firstKeysBlock)

end Load

end UnixCommons.PlainStorage
