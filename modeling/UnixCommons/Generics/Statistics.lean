import Mathlib
import UnixCommons.Generics.Time
import UnixCommons.Lib.Machine

/-!
# 統計

`Statistics.tpp` の `TimedStatSinkTempl`、`MeasurableStatSink`、`Collection::Item` と、データを溜める方針の写し。
`TimedStatData` の `latest` は、
定義されていない版なので除く。
-/

namespace UnixCommons.Generics.Statistics

variable {α : Type}

/-! ## 値の型 -/

/-- 値の型の計算。定義のない計算は `none` である。`divide` は、`unsigned` の数で割る。 -/
structure Measure (α : Type) where
  zero : α
  less : α → α → Bool
  add : α → α → Option α
  divide : α → UInt32 → Option α

/-- `Time`。`operator /` の引数は `int` である。 -/
def timeMeasure : Measure Time where
  zero := .zero
  less := Time.less
  add tv₁ tv₂ := (tv₁.add tv₂).toOption
  divide tv count := (tv.div (toInt count.toNat)).toOption

structure IntegralType where
  signed : Bool
  bits : Nat
  pos : 0 < bits
  deriving DecidableEq

namespace IntegralType

def store (t : IntegralType) (value : Int) : Int := if t.signed then value.bmod (2 ^ t.bits) else value % 2 ^ t.bits

def holds (t : IntegralType) (value : Int) : Bool :=
  if t.signed then decide (-2 ^ (t.bits - 1) ≤ value) && decide (value < 2 ^ (t.bits - 1))
    else decide (0 ≤ value) && decide (value < 2 ^ t.bits)

/-- 整数の計算。`int` より狭い型の和は `int` で求められ、`int` 以上の符号付きの型の和は、溢れると定義がない。`unsigned` までの型の値は、`unsigned` の
数と割る前に `unsigned` になる。 -/
def measure (t : IntegralType) : Measure Int where
  zero := 0
  less a b := decide (a < b)
  add a b := if t.signed ∧ 32 ≤ t.bits ∧ t.holds (a + b) = false then none else some (t.store (a + b))
  divide a count := some (t.store (if t.bits ≤ 32 then a % 2 ^ 32 / count.toNat else a.tdiv count.toNat))

end IntegralType

/-! ## 溜めるデータ -/

/-- `TimedStatData::Data` と `MeasurableStatData`。 -/
structure StatData (α : Type) where
  maxValue : α
  minValue : α
  sumValue : α
  count : UInt32
  deriving DecidableEq, Repr

def StatData.new (m : Measure α) : StatData α := ⟨m.zero, m.zero, m.zero, 0⟩

inductive Fault
  | invalidArgument
  | undefined
  deriving DecidableEq, Repr

/-- `TimedStatSinkTempl::consider_` と、`MeasurableStatSink::consider` の計算。 -/
def StatData.consider (m : Measure α) (data : StatData α) (value : α) : Except Fault (StatData α) :=
  match m.add data.sumValue value with
  | none => throw .undefined
  | some sumValue =>
      return {
        maxValue := if data.count = 0 ∨ m.less data.maxValue value then value else data.maxValue
        minValue := if data.count = 0 ∨ m.less value data.minValue then value else data.minValue
        sumValue
        count := data.count + 1 }

/-- `average_time_` と `average_value_`。 -/
def StatData.average (m : Measure α) (data : StatData α) : Option α :=
  if data.count ≠ 0 then m.divide data.sumValue data.count else some m.zero

/-! ## 溜める物 -/

/-- `NullDumpPolicy` と `CountBasedDumpPolicy`。 -/
inductive DumpPolicy
  | null
  | countBased (dumpFreq : UInt64)
  deriving DecidableEq, Repr

def DumpPolicy.needDump : DumpPolicy → UInt32 → Option Bool
  | .null, _ => some false
  | .countBased dumpFreq, count => if dumpFreq = 0 then none else some (count.toUInt64 % dumpFreq = 0)

/-- `StatSink` の実装。データを持つ物と、他の `StatSink` に任せる `Collection::Item` である。 -/
inductive StatSink (α : Type)
  | sink (data : StatData α)
  | item (id : String) (stat : StatSink α) (dumpPolicy : DumpPolicy)
  deriving DecidableEq, Repr

namespace StatSink

def data : StatSink α → StatData α
  | .sink data => data
  | .item _ stat _ => stat.data

def consideredCount : StatSink α → UInt32
  | .sink data => data.count
  | .item _ stat _ => stat.consideredCount

/-- `Item::reset` は、任せた物の `considered_count` を呼ぶだけである。 -/
def reset (m : Measure α) : StatSink α → StatSink α
  | .sink _ => .sink (.new m)
  | .item id stat dumpPolicy =>
      let _ := stat.consideredCount
      .item id stat dumpPolicy

def clone : StatSink α → StatSink α
  | .sink data => .sink data
  | .item id stat dumpPolicy => .item id stat.clone dumpPolicy

/-- `subject` は、`dynamic_cast` の結果の値である。`Item` が `execute_dumping` に渡す写しも返す。 -/
def consider (m : Measure α) : StatSink α → Option α → Except Fault (StatSink α × List (StatSink α))
  | .sink _, none => throw .invalidArgument
  | .sink data, some value => do
      let data ← data.consider m value
      return (.sink data, [])
  | .item id stat dumpPolicy, subject => do
      let (stat, dumped) ← stat.consider m subject
      match dumpPolicy.needDump stat.consideredCount with
      | none => throw .undefined
      | some true => return (.item id stat dumpPolicy, dumped ++ [.item id stat.clone dumpPolicy])
      | some false => return (.item id stat dumpPolicy, dumped)

/-- `Item` でない。 -/
def bare : StatSink α → Bool
  | .sink _ => true
  | .item .. => false

end StatSink

/-! ## 呼び出しの列 -/

/-- `recent` は、コードにない記録であり、終わりの `reset` の後に渡された値である。写しは、元の記録を持つ。 -/
structure Entry (α : Type) where
  sink : StatSink α
  recent : List α
  deriving DecidableEq, Repr

/-- `dumped` は、`execute_dumping` に渡された写しである。 -/
structure State (α : Type) where
  entries : List (Entry α)
  dumped : List (Entry α)
  deriving DecidableEq, Repr

def State.init (sinks : List (StatSink α)) : State α := ⟨sinks.map (⟨·, []⟩), []⟩

inductive Action (α : Type)
  | consider (i : Nat) (subject : Option α)
  | reset (i : Nat)
  | clone (i : Nat)
  deriving DecidableEq, Repr

def step (m : Measure α) (s : State α) : Action α → Option (State α)
  | .consider i subject => do
      let entry ← s.entries[i]?
      let recent := entry.recent ++ subject.toList
      match entry.sink.consider m subject with
      | .ok (sink, dumped) => some ⟨s.entries.set i ⟨sink, recent⟩, s.dumped ++ dumped.map (⟨·, recent⟩)⟩
      | .error .invalidArgument => some s
      | .error .undefined => none
  | .reset i => do
      let entry ← s.entries[i]?
      some { s with entries := s.entries.set i ⟨entry.sink.reset m, []⟩ }
  | .clone i => do
      let entry ← s.entries[i]?
      some { s with entries := s.entries ++ [⟨entry.sink.clone, entry.recent⟩] }

end UnixCommons.Generics.Statistics
