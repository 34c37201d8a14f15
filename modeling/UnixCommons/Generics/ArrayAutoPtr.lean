import Mathlib.Algebra.Order.Ring.Nat

/-!
# 配列の大きさ

`ArrayAutoPtr.hpp` の `ArrayAutoPtr` の構築子と `reset` の引数は `unsigned` であり、`size_t` の大きさは切り詰められる。
-/

namespace UnixCommons.Generics

/-- `ArrayAutoPtr(unsigned size)` と `reset(unsigned size)` が確保する要素の数。零ならば確保しない。 -/
def arraySize (size : Nat) : Nat := size % 2 ^ 32

theorem arraySize_lt (size : Nat) : arraySize size < 2 ^ 32 := Nat.mod_lt _ (by decide)

theorem arraySize_eq {size : Nat} (h : size < 2 ^ 32) : arraySize size = size := Nat.mod_eq_of_lt h

theorem le_arraySize_iff {size : Nat} : size ≤ arraySize size ↔ size < 2 ^ 32 := by
  have hlt := arraySize_lt size
  constructor
  · omega
  · exact fun h => Nat.le_of_eq (arraySize_eq h).symm

/-- `reset(size)` の確保する配列。 -/
def resetArray {α : Type} (memory : Nat → α) (size : Nat) : List α := (List.range (arraySize size)).map memory

theorem length_resetArray {α : Type} (memory : Nat → α) (size : Nat) :
    (resetArray memory size).length = arraySize size := by
  rw [resetArray, List.length_map, List.length_range]

end UnixCommons.Generics
