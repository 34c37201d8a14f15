import Mathlib.Order.Defs.LinearOrder
import UnixCommons.PlainStorage.SyncIndex

/-!
# キーからデータへの写像

`Map.tpp` の `Map` の写し。開いている `Map` は、索引と、キーから `PlainWriter` への `index_container_` を持つ。
`close` は `index_container_` を空にしないので、同じ `Map` を `load` し直すと、古い `PlainWriter` が残る。
-/

namespace UnixCommons.PlainStorage

open Lib

/-- `ContainerValue` とキーの組。 -/
abbrev Entry (κ : Type) := κ × PlainWriter × KeyAddition

/-- `index_container_`。 -/
abbrev Container (κ : Type) := List (Entry κ)

section Container

variable {κ : Type} [LinearOrder κ]

def Container.find (k : κ) (c : Container κ) : Option (PlainWriter × KeyAddition) :=
  (List.find? (fun e => e.1 = k) c).map Prod.snd

/-- `std::map::insert`。同じキーがあれば何も変えない。 -/
def Container.insert (k : κ) (v : PlainWriter × KeyAddition) : Container κ → Container κ
  | [] => [(k, v)]
  | e :: c =>
      if k = e.1 then e :: c
      else if k < e.1 then (k, v) :: e :: c
      else e :: Container.insert k v c

def Container.erase (k : κ) (c : Container κ) : Container κ := List.filter (fun e => e.1 ≠ k) c

/-- 要素の持つ `PlainWriter` が書き換わる。 -/
def Container.setWriter (k : κ) (w : PlainWriter) (c : Container κ) : Container κ :=
  List.map (fun e => if e.1 = k then (e.1, w, e.2.2) else e) c

end Container

/-- 開いている `Map`。`session` は、今の `write_block_file_adapter_` を作った回である。 -/
structure Map (κ : Type) where
  index : Index
  container : Container κ
  session : Nat

variable {κ : Type}

def Map.file (m : Map κ) : File := m.index.file

def Map.setIndex (s : Index) (m : Map κ) : Map κ := { m with index := s }

def Map.setContainer (c : Container κ) (m : Map κ) : Map κ := { m with container := c }

def onIndex {α : Type} (x : EStateM Failure Index α) : EStateM Failure (Map κ) α :=
  zoom Map.index Map.setIndex x

/-! ## 見出しのブロック -/

def fileHeaderSize : Nat := 12

def fhAllocatorIndex : Nat := 4
def fhFirstIndexBlock : Nat := 8

def genericFieldSize : Nat := 4

def createHead (g : Geometry) : EStateM Failure File (Nat × Nat) :=
  EStateM.adaptExcept (.caught .creationFailed) do
    getBlock g 2
    modify fun f => (f.setSize 2 genericFieldSize).setField 2 0 0
    getBlock g 1
    modify fun f => ((f.setNextIndex 1 0).setSize 1 genericFieldSize).setField 1 0 0
    getBlock g 0
    modify fun f => (f.setNextIndex 0 0).setSize 0 fileHeaderSize
    modify fun f => (f.setField 0 fhAllocatorIndex 1).setField 0 fhFirstIndexBlock 2
    return (1, 2)

def loadHead : EStateM Failure File (Nat × Nat) :=
  EStateM.adaptExcept (.caught .corruptedFile) do
    getReadBlock 0
    let f ← get
    if (f.block 0).size < fileHeaderSize then
      throw (.corruptedFile .headerBlockSmall)
    else
      return (f.field 0 fhAllocatorIndex, f.field 0 fhFirstIndexBlock)

/-! ## 読み込みと終了 -/

/-- `load_key` の、データの大きさを数えるループ。 -/
def countDataSize : Nat → Option Nat → Nat → EStateM Failure File Nat
  | _, none, dataSize => pure dataSize
  | 0, some _, _ => throw .diverges
  | n + 1, some curBlock, dataSize => do
      let size := ((← get).block curBlock).size
      let curBlock ← readNext curBlock
      countDataSize n curBlock (dataSize + size)

/-- `PlainWriter` のコンストラクタ。 -/
def PlainWriter.create (g : Geometry) (firstBlockIndex dataSize session : Nat) :
    EStateM Failure Allocator PlainWriter := do
  if firstBlockIndex ≠ 0 then
    return ⟨firstBlockIndex, dataSize, session⟩
  else
    return ⟨← allocate g, dataSize, session⟩

section Operations

variable [LinearOrder κ] (acc : KeyAccessor κ) (g : Geometry)

def Map.loadKey (key : κ) (firstDataBlock : Nat) (keyAddition : KeyAddition) :
    EStateM Failure (Map κ) PUnit :=
  EStateM.adaptExcept (.caught .loadFailed) do
    onIndex (onIndexFile (getBlock g firstDataBlock))
    let n := (← get).file.count
    let dataSize ← observe Map.file (countDataSize n (some firstDataBlock) 0)
    let session := (← get).session
    let plainWriter ← onIndex (onAllocator (PlainWriter.create g firstDataBlock dataSize session))
    modify fun m => m.setContainer (m.container.insert key (plainWriter, keyAddition))

/-- `load`。`container` は、その `Map` に残っている `index_container_` である。 -/
def Map.load (container : Container κ) (session : Nat) : EStateM Failure File (Map κ) := do
  let (firstAllocatorDescBlock, firstIndexDescBlock) ←
    if (← get).count = 0 then createHead g else loadHead
  let a ← Allocator.create g firstAllocatorDescBlock
  let s ← within Allocator.file a (Index.create g firstIndexDescBlock)
  within Map.file ⟨s, container, session⟩ do
    PlainStorage.load acc Map.file (Map.loadKey g) g.mappedSize s.firstKeysBlock
    get

def Map.close (m : Map κ) : File := m.index.allocator.destroy

/-! ## 操作 -/

def Map.insert (key : κ) : EStateM Failure (Map κ) PUnit := do
  match (← get).container.find key with
  | some _ => pure ()
  | none => do
      let firstIndex ← onIndex (onAllocator (allocate g))
      let session := (← get).session
      let newPlainWriter ← onIndex (onAllocator (PlainWriter.create g firstIndex 0 session))
      let keyAddition ← onIndex (Index.insert acc g key newPlainWriter.firstBlockIndex)
      modify fun m => m.setContainer (m.container.insert key (newPlainWriter, keyAddition))

/-- 要素の `PlainWriter`。 -/
def Map.writer (key : κ) : EStateM Failure (Map κ) PlainWriter := do
  let m ← get
  match m.container.find key with
  | none => throw .nullHandle
  | some (w, _) =>
      if w.session = m.session then
        return w
      else
        throw .danglingAdapter

def Map.size (key : κ) (m : Map κ) : Option Nat := (m.container.find key).map fun v => v.1.dataSize

def Map.read (key : κ) (bufSize : Nat) : EStateM Failure (Map κ) (Nat × Bytes) := do
  let w ← Map.writer key
  observe Map.file (w.readI bufSize)

def Map.setWriting (key : κ) (s : Writing) (m : Map κ) : Map κ :=
  { m with index := m.index.setAllocator s.allocator, container := m.container.setWriter key s.writer }

def Map.writeFound (key : κ) (buf : Bytes) : EStateM Failure (Map κ) PUnit := do
  let w ← Map.writer key
  zoom (fun m => ⟨m.index.allocator, w⟩) (Map.setWriting key) (PlainWriter.writeI g buf)

/-- `operator[]` で得た `PlainWriter` の `write`。 -/
def Map.write (key : κ) (buf : Bytes) : EStateM Failure (Map κ) PUnit := do
  Map.insert acc g key
  Map.writeFound g key buf

def Map.erase (key : κ) : EStateM Failure (Map κ) PUnit := do
  match (← get).container.find key with
  | none => pure ()
  | some (_, keyAddition) => do
      onIndex (Index.erase g keyAddition)
      modify fun m => m.setContainer (m.container.erase key)

def clearLoop : Container κ → EStateM Failure (Map κ) PUnit
  | [] => pure ()
  | e :: c => do
      onIndex (Index.erase g e.2.2)
      clearLoop c

def Map.clear : EStateM Failure (Map κ) PUnit := do
  clearLoop g (← get).container
  modify fun m => m.setContainer []

def Map.reload : EStateM Failure (Map κ) PUnit := fun m =>
  match (Map.load acc g m.container (m.session + 1)).run m.close with
  | .ok m' _ => .ok .unit m'
  | .error e _ => .error e m

/-- `close` の後の、新しい `Map` の `load`。 -/
def Map.reopen : EStateM Failure (Map κ) PUnit := fun m =>
  match (Map.load acc g [] (m.session + 1)).run m.close with
  | .ok m' _ => .ok .unit m'
  | .error e _ => .error e m

end Operations

/-! ## 操作の列 -/

inductive MapOp (κ : Type)
  | insert (key : κ)
  | write (key : κ) (buf : Bytes)
  | erase (key : κ)
  | clear
  | reload
  | reopen

def Map.exec [LinearOrder κ] (acc : KeyAccessor κ) (g : Geometry) : MapOp κ → EStateM Failure (Map κ) PUnit
  | .insert k => Map.insert acc g k
  | .write k buf => Map.write acc g k buf
  | .erase k => Map.erase g k
  | .clear => Map.clear g
  | .reload => Map.reload acc g
  | .reopen => Map.reopen acc g

end UnixCommons.PlainStorage
