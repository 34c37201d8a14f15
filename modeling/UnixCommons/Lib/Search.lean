import Mathlib.Data.List.Basic

/-!
# 最初の位置と最後の位置
-/

namespace Lib

variable {p q : Nat → Bool} {bound n x : Nat}

/-- `p` の成り立つ、`bound` より小さい最初の位置。 -/
def lowest (p : Nat → Bool) (bound : Nat) : Option Nat := (List.range bound).find? p

/-- `p` の成り立つ、`bound` より小さい最後の位置。 -/
def highest (p : Nat → Bool) : Nat → Option Nat
  | 0 => none
  | n + 1 => if p n then some n else highest p n

theorem highest_succ : highest p (n + 1) = if p n then some n else highest p n := rfl

theorem lowest_eq_some_iff : lowest p bound = some x ↔ p x = true ∧ x < bound ∧ ∀ y < x, p y = false := by
  simp [lowest, List.find?_range_eq_some]

theorem lowest_eq_none_iff : lowest p bound = none ↔ ∀ y < bound, p y = false := by
  simp [lowest, List.find?_eq_none]

theorem lowest_congr (h : ∀ y < bound, p y = q y) : lowest p bound = lowest q bound := by
  cases hq : lowest q bound with
  | none =>
      rw [lowest_eq_none_iff] at hq ⊢
      intro y hy
      rw [h y hy, hq y hy]
  | some x =>
      rw [lowest_eq_some_iff] at hq ⊢
      obtain ⟨hx, hlt, hmin⟩ := hq
      exact ⟨by rw [h x hlt, hx], hlt, fun y hy => by rw [h y (Nat.lt_trans hy hlt), hmin y hy]⟩

theorem lowest_of_le (hle : n ≤ bound) (h : ∀ y, n ≤ y → y < bound → p y = false) : lowest p bound = lowest p n := by
  cases hn : lowest p n with
  | none =>
      rw [lowest_eq_none_iff] at hn ⊢
      intro y hy
      by_cases hlt : y < n
      · exact hn y hlt
      · exact h y (by omega) hy
  | some x =>
      rw [lowest_eq_some_iff] at hn ⊢
      exact ⟨hn.1, by omega, hn.2.2⟩

theorem highest_eq_none_iff : highest p bound = none ↔ ∀ y < bound, p y = false := by
  induction bound with
  | zero => exact iff_of_true rfl fun _ h => absurd h (Nat.not_lt_zero _)
  | succ n ih =>
      rw [highest_succ]
      by_cases hp : p n = true
      · simp only [hp, if_true, reduceCtorEq, false_iff]
        intro hall
        rw [hall n (Nat.lt_succ_self n)] at hp
        cases hp
      · rw [if_neg hp, ih, Nat.forall_lt_succ_right]
        exact ⟨fun hall => ⟨hall, eq_false_of_ne_true hp⟩, And.left⟩

theorem highest_eq_some_iff : highest p bound = some x ↔ p x = true ∧ x < bound ∧ ∀ y, x < y → y < bound → p y = false := by
  induction bound with
  | zero => exact iff_of_false nofun fun h => absurd h.2.1 (Nat.not_lt_zero _)
  | succ n ih =>
      rw [highest_succ]
      by_cases hp : p n = true
      · rw [if_pos hp, Option.some_inj]
        constructor
        · rintro rfl
          exact ⟨hp, Nat.lt_succ_self _, fun y h₁ h₂ => by omega⟩
        · rintro ⟨hx, hlt, hmax⟩
          by_contra hne
          rw [hmax n (by omega) (Nat.lt_succ_self n)] at hp
          cases hp
      · rw [if_neg hp, ih]
        constructor
        · rintro ⟨hx, hlt, hmax⟩
          refine ⟨hx, by omega, fun y h₁ h₂ => ?_⟩
          by_cases hy : y = n
          · rw [hy]
            exact eq_false_of_ne_true hp
          · exact hmax y h₁ (by omega)
        · rintro ⟨hx, hlt, hmax⟩
          have hne : x ≠ n := by
            rintro rfl
            exact hp hx
          exact ⟨hx, by omega, fun y h₁ h₂ => hmax y h₁ (by omega)⟩

theorem highest_congr (h : ∀ y < bound, p y = q y) : highest p bound = highest q bound := by
  induction bound with
  | zero => rfl
  | succ n ih => rw [highest_succ, highest_succ, h n (Nat.lt_succ_self n), ih fun y hy =>
      h y (Nat.lt_trans hy (Nat.lt_succ_self n))]

theorem highest_of_le (hle : n ≤ bound) (h : ∀ y, n ≤ y → y < bound → p y = false) : highest p bound = highest p n := by
  induction bound with
  | zero => rw [Nat.le_zero.mp hle]
  | succ m ih =>
      by_cases hn : n = m + 1
      · rw [hn]
      · rw [highest_succ, if_neg (by rw [h m (by omega) (Nat.lt_succ_self m)]; decide)]
        exact ih (by omega) fun y h₁ h₂ => h y h₁ (by omega)

end Lib
