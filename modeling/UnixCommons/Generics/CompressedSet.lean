import UnixCommons.Lib.Assoc
import UnixCommons.Lib.Intervals

/-!
# 区間で表した整数の集合

`CompressedSet.hpp` の写し。`holder_` は `std::map` であり、鍵の昇順に並んだ区間 `[first, second]` の並びで表す。反復子は並びの分け目で、
`last_found_` は指している要素の鍵で表す。`last_found_` が `end()` であることは `none` である。
-/

namespace UnixCommons.Generics.CompressedSet

open Lib

structure IntegerType where
  min : Int
  max : Int
  min_le_max : min ≤ max

structure IntegerType.Value (T : IntegerType) where
  val : Int
  min_le : T.min ≤ val
  le_max : val ≤ T.max

def IntegerType.safeNext (T : IntegerType) (number : Int) : Int := if number < T.max then number + 1 else number

abbrev Holder := List (Int × Int)

structure State where
  holder : Holder
  lastFound : Option Int
  deriving DecidableEq, Repr

def State.init : State := ⟨[], none⟩

/-! ## `std::map` の操作 -/

def lowerBound (key : Int) (holder : Holder) : Holder × Holder :=
  (holder.takeWhile fun e => e.1 < key, holder.dropWhile fun e => e.1 < key)

/-- `insert` の、入る前の部分、挿入された要素または同じ鍵の要素、後の部分。 -/
def insertAt (key value : Int) (holder : Holder) : Holder × (Int × Int) × Holder :=
  match lowerBound key holder with
  | (left, []) => (left, (key, value), [])
  | (left, e :: right) => if e.1 = key then (left, e, right) else (left, (key, value), e :: right)

def insert (key value : Int) (holder : Holder) : Holder :=
  let (left, e, right) := insertAt key value holder
  left ++ e :: right

/-! ## 加えることと除くこと -/

/-- `max(itor->first) <= low` である要素を探す部分。 -/
def startAt (low : Int) (holder : Holder) : Holder × Holder :=
  let (left, right) := lowerBound low holder
  match left.getLast?, right with
  | none, right => ([], right)
  | some p, [] => (left.dropLast, [p])
  | some p, e :: right => if e.1 ≠ low then (left.dropLast, p :: e :: right) else (left, e :: right)

/-- `add` の、重なる区間を除くループ。 -/
def overlapLoop (high highNext : Int) (base : Int × Int) : Holder → Holder
  | [] => [base]
  | e :: rest =>
      if e.1 ≤ highNext then
        if e.2 > high then (base.1, e.2) :: rest else overlapLoop high highNext base rest
      else
        base :: e :: rest

def State.add (T : IntegerType) (low high : Int) (s : State) : State :=
  if low > high then
    s
  else
    let (left, base, rest) :=
      match startAt low s.holder with
      | (_, []) => insertAt low high s.holder
      | (left, e :: rest) =>
          if e.1 > low ∨ T.safeNext e.2 < low then
            insertAt low high s.holder
          else
            (left, (e.1, if e.2 < high then high else e.2), rest)
    ⟨left ++ overlapLoop high (T.safeNext high) base rest, none⟩

/-- `remove` のループ。一度に一つの反復を行い、`fuel` が尽きれば `none` である。 -/
def removeLoop (low high highNext : Int) : Nat → Holder → Option Holder
  | 0, _ => none
  | _ + 1, [] => some []
  | fuel + 1, e :: rest =>
      if e.1 < highNext then
        if e.1 ≥ low then
          if e.2 ≤ high then
            removeLoop low high highNext fuel rest
          else
            some (insert highNext e.2 rest)
        else if e.2 < low then
          (removeLoop low high highNext fuel rest).map fun rest => e :: rest
        else if e.2 ≤ high then
          removeLoop low high highNext fuel ((e.1, low - 1) :: rest)
        else
          removeLoop low high highNext fuel ((e.1, low - 1) :: insert highNext e.2 rest)
      else
        some (e :: rest)

def State.remove (T : IntegerType) (low high : Int) (s : State) : Option State :=
  if low > high then
    some s
  else
    let (left, right) := startAt low s.holder
    (removeLoop low high (T.safeNext high) (2 * right.length + 3) right).map fun rest => ⟨left ++ rest, none⟩

def State.addAll (T : IntegerType) : Holder → State → State
  | [], s => s
  | e :: cset, s => (s.add T e.1 e.2).addAll T cset

def State.removeAll (T : IntegerType) : Holder → State → Option State
  | [], s => some s
  | e :: cset, s => (s.remove T e.1 e.2).bind (State.removeAll T cset)

def State.clear (_ : State) : State := ⟨[], none⟩

/-! ## 調べること -/

/-- `belongs` の、`last_found_` を探し直す部分。 -/
def State.search (value : Int) (s : State) : State × Bool :=
  let (left, right) := lowerBound value s.holder
  let lastFound := right.head?.map Prod.fst
  if lastFound = some value then
    ({ s with lastFound := lastFound }, true)
  else
    match left.getLast? with
    | none => ({ s with lastFound := lastFound }, false)
    | some p => ({ s with lastFound := some p.1 }, value ≤ p.2)

/-- `belongs`。`none` は、`holder_` にない要素を指す `last_found_` を使うことである。 -/
def State.belongs (value : Int) (s : State) : Option (State × Bool) :=
  match s.lastFound with
  | none => some (s.search value)
  | some first => do
      let second ← lookup first s.holder
      if first ≤ value ∧ second ≥ value then some (s, true) else some (s.search value)

inductive CheckStatus
  | none
  | all
  | some
  deriving DecidableEq, Repr

/-- `check_presence` の、前の区間を調べる部分。 -/
def checkPrevious (low high : Int) (left : Holder) : CheckStatus :=
  match left.getLast? with
  | .none => .none
  | .some p => if p.2 < low then .none else if p.2 ≥ high then .all else .some

def State.checkPresence (low high : Int) (s : State) : CheckStatus :=
  if low > high then
    .none
  else
    match lowerBound low s.holder with
    | (left, []) => checkPrevious low high left
    | (left, e :: _) =>
        if e.1 = low then
          if e.2 ≥ high then .all else .some
        else if e.1 ≤ high then
          .some
        else
          checkPrevious low high left

/-! ## 呼び出し -/

/-- 一つの呼び出し。`ι` は、対象となる集合の名前である。 -/
inductive Op (T : IntegerType) (ι : Type)
  | add (i : ι) (low high : T.Value)
  | addValue (i : ι) (value : T.Value)
  | addSet (i cset : ι)
  | remove (i : ι) (low high : T.Value)
  | removeValue (i : ι) (value : T.Value)
  | removeSet (i cset : ι)
  | clear (i : ι)
  | belongs (i : ι) (value : T.Value)
  | checkPresence (i : ι) (low high : T.Value)

inductive Answer
  | done
  | bool (b : Bool)
  | status (c : CheckStatus)
  deriving DecidableEq, Repr

abbrev Store (ι : Type) := ι → State

variable {T : IntegerType} {ι : Type} [DecidableEq ι]

def Store.put (σ : Store ι) (i : ι) (s : State) : Store ι := Function.update σ i s

def Store.addSet (T : IntegerType) (σ : Store ι) (i cset : ι) : Store ι :=
  if i = cset then σ else σ.put i ((σ i).addAll T (σ cset).holder)

def Store.removeSet (T : IntegerType) (σ : Store ι) (i cset : ι) : Option (Store ι) :=
  if i = cset then some σ else ((σ i).removeAll T (σ cset).holder).map (σ.put i)

def Store.step (σ : Store ι) : Op T ι → Option (Store ι × Answer)
  | .add i low high => some (σ.put i ((σ i).add T low.val high.val), .done)
  | .addValue i value => some (σ.put i ((σ i).add T value.val value.val), .done)
  | .addSet i cset => some (σ.addSet T i cset, .done)
  | .remove i low high => ((σ i).remove T low.val high.val).map fun s => (σ.put i s, .done)
  | .removeValue i value => ((σ i).remove T value.val value.val).map fun s => (σ.put i s, .done)
  | .removeSet i cset => (σ.removeSet T i cset).map fun σ => (σ, .done)
  | .clear i => some (σ.put i (σ i).clear, .done)
  | .belongs i value => ((σ i).belongs value.val).map fun r => (σ.put i r.1, .bool r.2)
  | .checkPresence i low high => some (σ, .status ((σ i).checkPresence low.val high.val))

end UnixCommons.Generics.CompressedSet
