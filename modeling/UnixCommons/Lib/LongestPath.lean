import Mathlib.Order.Bounds.Basic
import Mathlib.Algebra.Order.Monoid.Defs

/-!
# 最も重い道

番号の小さい方から大きい方へ進む辺の道と、Bellman の方程式の解。
-/

namespace Lib

variable {ω : Type} [AddCommMonoid ω] [PartialOrder ω] {edge : Nat → Nat → ω → Prop} {n i j : Nat} {v w : ω} {W V : Nat → ω}

inductive Path (edge : Nat → Nat → ω → Prop) : Nat → Nat → ω → Prop
  | nil (i : Nat) : Path edge i i 0
  | cons {i j k : Nat} {v w : ω} (first : edge i j v) (rest : Path edge j k w) : Path edge i k (v + w)

omit [PartialOrder ω] in
theorem Path.append (hp : Path edge i j v) (hq : Path edge j n w) : Path edge i n (v + w) := by
  induction hp with
  | nil i =>
      rw [zero_add]
      exact hq
  | cons first rest ih =>
      rw [add_assoc]
      exact .cons first (ih hq)

def candidates (edge : Nat → Nat → ω → Prop) (W : Nat → ω) (i : Nat) : Set ω := {x | ∃ j v, edge i j v ∧ x = v + W j}

structure Bellman (edge : Nat → Nat → ω → Prop) (n : Nat) (W : Nat → ω) : Prop where
  last : W n = 0
  best : ∀ i, i < n → IsGreatest (candidates edge W i) (W i)

def Forward (edge : Nat → Nat → ω → Prop) (n : Nat) : Prop := ∀ i j v, edge i j v → i < j ∧ j ≤ n

theorem Bellman.path_le [IsOrderedAddMonoid ω] (h : Bellman edge n W) (hforward : Forward edge n)
    (hp : Path edge i n v) : v ≤ W i := by
  generalize hm : n = m at hp
  induction hp with
  | nil i => rw [← hm, h.last]
  | cons first rest ih =>
      rename_i i j k v w
      obtain ⟨hij, hj⟩ := hforward i j v first
      calc
        v + w ≤ v + W j := add_le_add_right (ih hm) v
        _ ≤ W i := (h.best i (Nat.lt_of_lt_of_le hij hj)).2 ⟨j, v, first, rfl⟩

theorem Bellman.unique (h : Bellman edge n W) (h' : Bellman edge n V) (hforward : Forward edge n)
    (hi : i ≤ n) : W i = V i := by
  induction hd : n - i using Nat.strong_induction_on generalizing i with
  | _ d ih =>
      rcases Nat.eq_or_lt_of_le hi with rfl | hlt
      · rw [h.last, h'.last]
      · have hsame : candidates edge W i = candidates edge V i := by
          ext x
          constructor
          · rintro ⟨j, v, hedge, rfl⟩
            obtain ⟨hij, hj⟩ := hforward i j v hedge
            exact ⟨j, v, hedge, by rw [ih (n - j) (by omega) hj rfl]⟩
          · rintro ⟨j, v, hedge, rfl⟩
            obtain ⟨hij, hj⟩ := hforward i j v hedge
            exact ⟨j, v, hedge, by rw [ih (n - j) (by omega) hj rfl]⟩
        have hbest := h.best i hlt
        rw [hsame] at hbest
        exact hbest.unique (h'.best i hlt)

end Lib
