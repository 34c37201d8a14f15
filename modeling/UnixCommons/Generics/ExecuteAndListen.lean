import UnixCommons.Lib.Descriptors

/-!
# 子のプロセスの記述子

`Listener.cpp` の `DescriptorsHolder`、`create_pipes`、`child` の写し。`none` は、`execvp` に至らないことである。
-/

namespace UnixCommons.Generics.Execute

open Lib

/-- 記述子の指す物。`pipe i` は `i` 番目の pipe の書く側である。 -/
inductive File
  | devNull
  | readEnd
  | pipe (i : Nat)
  | errorPipe
  | other (id : Nat)
  deriving DecidableEq, Repr

/-! ## `DescriptorsHolder` -/

structure DescriptorsHolder where
  descriptors : List Nat
  allocatedSize : Nat
  fits : descriptors.length ≤ allocatedSize

namespace DescriptorsHolder

def new (count : Nat) : DescriptorsHolder := ⟨[], count, Nat.zero_le _⟩

def pushBack (s : DescriptorsHolder) (fd : Nat) : Option DescriptorsHolder :=
  if h : s.descriptors.length = s.allocatedSize then none
  else some ⟨s.descriptors ++ [fd], s.allocatedSize, by rw [List.length_append]; exact Nat.lt_of_le_of_ne s.fits h⟩

def popBack (s : DescriptorsHolder) : Option (Nat × DescriptorsHolder) :=
  s.descriptors.getLast?.map fun fd => (fd, ⟨s.descriptors.dropLast, s.allocatedSize, Nat.le_trans (by simp) s.fits⟩)

def find (s : DescriptorsHolder) (fd : Nat) : Option Nat := s.descriptors.findIdx? (· = fd)

def set (s : DescriptorsHolder) (i fd : Nat) : DescriptorsHolder :=
  ⟨s.descriptors.set i fd, s.allocatedSize, by rw [List.length_set]; exact s.fits⟩

end DescriptorsHolder

/-! ## 親 -/

def pipe (table : Descriptors File) (piped : Nat × Nat) (file : File) : Option (Descriptors File) :=
  if table.file piped.1 = none ∧ table.file piped.2 = none ∧ piped.1 ≠ piped.2 then
    some ((table.set piped.1 (some .readEnd)).set piped.2 (some file))
  else
    none

def createPipesLoop : List (Nat × Nat) → Nat → Descriptors File → DescriptorsHolder →
    DescriptorsHolder → Option (Descriptors File × DescriptorsHolder × DescriptorsHolder)
  | [], _, table, readDescriptors, writeDescriptors => some (table, readDescriptors, writeDescriptors)
  | piped :: pipes, i, table, readDescriptors, writeDescriptors => do
      let table ← pipe table piped (.pipe i)
      let readDescriptors ← readDescriptors.pushBack piped.1
      let writeDescriptors ← writeDescriptors.pushBack piped.2
      createPipesLoop pipes (i + 1) table readDescriptors writeDescriptors

/-- `create_pipes`。`errorPiped` と `pipes` は、`pipe` の選ぶ番号である。 -/
def createPipes (errorPiped : Option (Nat × Nat)) (pipes : List (Nat × Nat))
    (table : Descriptors File) (readDescriptors writeDescriptors : DescriptorsHolder) :
    Option (Descriptors File × DescriptorsHolder × DescriptorsHolder) :=
  match errorPiped with
  | none => createPipesLoop pipes 0 table readDescriptors writeDescriptors
  | some piped => do
      let table ← pipe table piped .errorPipe
      let writeDescriptors ← writeDescriptors.pushBack piped.2
      let (table, readDescriptors, writeDescriptors) ← createPipesLoop pipes 0 table readDescriptors writeDescriptors
      let readDescriptors ← readDescriptors.pushBack piped.1
      return (table, readDescriptors, writeDescriptors)

/-! ## 子 -/

def redefine (table : Descriptors File) (writeDescriptors : DescriptorsHolder) (descriptor : Nat) :
    Option (Descriptors File × DescriptorsHolder) := do
  let (writeDescriptor, writeDescriptors) ← writeDescriptors.popBack
  if writeDescriptor = descriptor then
    return (table, writeDescriptors)
  else
    let (table, writeDescriptors) ←
      match writeDescriptors.find descriptor with
      | some clashWithPipes => do
          let (table, newFd) ← table.dup descriptor
          pure (table, writeDescriptors.set clashWithPipes newFd)
      | none => pure (table, writeDescriptors)
    let table ← table.dup2 writeDescriptor descriptor
    let table ← table.close writeDescriptor
    return (table, writeDescriptors)

def redefineLoop (descriptors : List Nat) : Nat → Descriptors File → DescriptorsHolder → Option
    (Descriptors File × DescriptorsHolder)
  | 0, table, writeDescriptors => some (table, writeDescriptors)
  | i + 1, table, writeDescriptors => do
      let descriptor ← descriptors[i]?
      let (table, writeDescriptors) ← redefine table writeDescriptors descriptor
      redefineLoop descriptors i table writeDescriptors

def child (descriptors redirectDescriptors : List Nat) (errorPipe : Bool) (devnull : Nat) (table : Descriptors File)
    (readDescriptors writeDescriptors : DescriptorsHolder) : Option (Descriptors File × DescriptorsHolder) := do
  let table ← readDescriptors.descriptors.foldlM Descriptors.close table
  let table ← redirectDescriptors.foldlM (fun table fd => table.dup2 devnull fd) table
  let (table, writeDescriptors) ← redefineLoop descriptors descriptors.length table writeDescriptors
  if errorPipe then
    -- `set_cloexec` は、開いている記述子に印を付ける。
    let first ← writeDescriptors.descriptors.head?
    let _ ← table.file first
    return (table, writeDescriptors)
  else
    return (table, writeDescriptors)

structure Right (descriptors redirectDescriptors : List Nat) (errorPipe : Bool)
    (table : Descriptors File) (writeDescriptors : DescriptorsHolder) : Prop where
  pipes : ∀ i fd, descriptors[i]? = some fd → table.file fd = some (.pipe i)
  redirects : ∀ fd ∈ redirectDescriptors, table.file fd = some .devNull
  error : errorPipe = true → ∃ fd, writeDescriptors.descriptors.head? = some fd ∧ table.file fd = some .errorPipe

end UnixCommons.Generics.Execute
