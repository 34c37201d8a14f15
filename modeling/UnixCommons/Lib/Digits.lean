import Mathlib.Algebra.Group.Nat.Even
import Mathlib.Algebra.Ring.Nat
import Mathlib.Logic.Function.Basic
import Mathlib.Tactic.Ring

/-!
# 位取りの値

番地から桁への写像の、下から `n` 桁が `B` を底として表す数 `val B a n`。
-/

namespace Lib

def val (B : Nat) (a : Nat → Nat) : Nat → Nat
  | 0 => 0
  | n + 1 => val B a n + a n * B ^ n

variable {B : Nat} {a b : Nat → Nat} {i j k m n x y : Nat}

@[simp] theorem val_zero : val B a 0 = 0 := rfl

theorem val_succ : val B a (n + 1) = val B a n + a n * B ^ n := rfl

theorem val_congr (h : ∀ i < n, a i = b i) : val B a n = val B b n := by
  induction n with
  | zero => rfl
  | succ n ih => rw [val_succ, val_succ, ih fun i hi => h i (by omega), h n (by omega)]

theorem val_const_zero : val B (fun _ => 0) n = 0 := by
  induction n with
  | zero => rfl
  | succ n ih => rw [val_succ, ih, Nat.zero_mul]

theorem val_update_of_le (h : n ≤ i) : val B (Function.update a i x) n = val B a n :=
  val_congr fun j hj => Function.update_of_ne (by omega) _ _

theorem val_update_succ : val B (Function.update a n x) (n + 1) = val B a n + x * B ^ n := by
  rw [val_succ, val_update_of_le (Nat.le_refl n), Function.update_self]

theorem val_update (h : i < n) : val B (Function.update a i x) n + a i * B ^ i = val B a n + x * B ^ i := by
  induction n with
  | zero => omega
  | succ n ih =>
      by_cases hi : i = n
      · subst hi
        rw [val_update_succ, val_succ]
        omega
      · have := ih (by omega)
        rw [val_succ, val_succ, Function.update_of_ne (by omega)]
        omega

theorem val_lt (h : ∀ i < n, a i < B) : val B a n < B ^ n := by
  induction n with
  | zero => simp
  | succ n ih =>
      have h1 := ih fun i hi => h i (by omega)
      have h2 : (a n + 1) * B ^ n ≤ B * B ^ n := Nat.mul_le_mul_right _ (h n (by omega))
      rw [val_succ, Nat.pow_succ, Nat.mul_comm (B ^ n)]
      rw [Nat.succ_mul] at h2
      omega

theorem digits_update (h : ∀ j < n, a j < B) (hx : x < B) : ∀ j < n, Function.update a i x j < B := by
  intro j hj
  by_cases hji : j = i
  · rw [hji, Function.update_self]
    exact hx
  · rw [Function.update_of_ne hji]
    exact h j hj

theorem val_add : val B a (m + n) = val B a m + B ^ m * val B (fun i => a (m + i)) n := by
  induction n with
  | zero => simp
  | succ n ih =>
      rw [← Nat.add_assoc, val_succ, ih, val_succ, Nat.pow_add]
      ring

theorem val_le (h : m ≤ n) : val B a m ≤ val B a n := by
  obtain ⟨k, rfl⟩ := Nat.exists_eq_add_of_le h
  rw [val_add]
  exact Nat.le_add_right _ _

theorem val_succ_left : val B a (n + 1) = a 0 + B * val B (fun i => a (1 + i)) n := by
  rw [Nat.add_comm, val_add]
  simp [val]

theorem val_eq_of_zero (h : m ≤ n) (hz : ∀ i, m ≤ i → i < n → a i = 0) : val B a n = val B a m := by
  obtain ⟨k, rfl⟩ := Nat.exists_eq_add_of_le h
  rw [val_add, val_congr (b := fun _ => 0) fun i hi => hz (m + i) (by omega) (by omega), val_const_zero]
  simp

theorem val_eq_zero_iff (hB : 0 < B) : val B a n = 0 ↔ ∀ i < n, a i = 0 := by
  constructor
  · intro h
    induction n with
    | zero => intro i hi; omega
    | succ n ih =>
        rw [val_succ] at h
        have h1 : val B a n = 0 := by omega
        have h2 : a n * B ^ n = 0 := by omega
        intro i hi
        by_cases hin : i = n
        · subst hin
          rcases Nat.mul_eq_zero.mp h2 with h0 | h0
          · exact h0
          · exact absurd h0 (Nat.pos_iff_ne_zero.mp (Nat.pow_pos hB))
        · exact ih h1 i (by omega)
  · intro h
    rw [val_congr (b := fun _ => 0) h, val_const_zero]

theorem val_mod (h : ∀ i < m, a i < B) (hm : m ≤ n) : val B a n % B ^ m = val B a m := by
  obtain ⟨k, rfl⟩ := Nat.exists_eq_add_of_le hm
  rw [val_add, Nat.add_mul_mod_self_left, Nat.mod_eq_of_lt (val_lt h)]

theorem val_div (hB : 0 < B) (h : ∀ i < m, a i < B) :
    val B a (m + n) / B ^ m = val B (fun i => a (m + i)) n := by
  rw [val_add, Nat.add_mul_div_left _ _ (Nat.pow_pos hB), Nat.div_eq_of_lt (val_lt h), Nat.zero_add]

theorem digit_eq_zero_of_val_lt (h : val B a n < B ^ m) (hm : m ≤ i) (hi : i < n) (hB : 0 < B) : a i = 0 := by
  by_contra hne
  have h1 : B ^ m ≤ B ^ i := Nat.pow_le_pow_right hB hm
  have h2 : 1 * B ^ i ≤ a i * B ^ i := Nat.mul_le_mul_right _ (by omega)
  have h3 : val B a (i + 1) ≤ val B a n := val_le hi
  rw [val_succ] at h3
  omega

theorem digits_eq_of_val_eq (hB : 0 < B) (ha : ∀ i < n, a i < B) (hb : ∀ i < n, b i < B)
    (h : val B a n = val B b n) : ∀ i < n, a i = b i := by
  induction n with
  | zero => intro i hi; omega
  | succ n ih =>
      have hla := val_lt fun i hi => ha i (Nat.lt_succ_of_lt hi)
      have hlb := val_lt fun i hi => hb i (Nat.lt_succ_of_lt hi)
      have hd : a n = b n := by
        have h1 := congrArg (· / B ^ n) h
        simpa only [val_succ, Nat.add_mul_div_right _ _ (Nat.pow_pos hB), Nat.div_eq_of_lt hla,
          Nat.div_eq_of_lt hlb, Nat.zero_add] using h1
      intro i hi
      by_cases hin : i = n
      · rw [hin, hd]
      · rw [val_succ, val_succ, hd] at h
        exact ih (fun i hi => ha i (by omega)) (fun i hi => hb i (by omega)) (by omega) i (by omega)

theorem val_lt_of_digit_lt (ha : ∀ i < n, a i < B) (h : a n < b n) :
    val B a (n + 1) < val B b (n + 1) := by
  have h1 := val_lt ha
  have h2 : (a n + 1) * B ^ n ≤ b n * B ^ n := Nat.mul_le_mul_right _ h
  rw [val_succ, val_succ]
  rw [Nat.succ_mul] at h2
  omega

theorem val_lt_iff_digit_lt (ha : ∀ i < n, a i < B) : val B a (n + 1) < B ^ n * x ↔ a n < x := by
  have h1 := val_lt ha
  rw [val_succ]
  constructor
  · intro h
    by_contra hle
    have : x * B ^ n ≤ a n * B ^ n := Nat.mul_le_mul_right _ (by omega)
    rw [Nat.mul_comm (B ^ n)] at h
    omega
  · intro h
    have : (a n + 1) * B ^ n ≤ x * B ^ n := Nat.mul_le_mul_right _ h
    rw [Nat.succ_mul] at this
    rw [Nat.mul_comm (B ^ n)]
    omega

theorem val_add_eq_of_eq_above (hm : m ≤ n) (h : ∀ i, m ≤ i → i < n → a i = b i) :
    val B a n + val B b m = val B b n + val B a m := by
  obtain ⟨k, rfl⟩ := Nat.exists_eq_add_of_le hm
  have : val B (fun i => a (m + i)) k = val B (fun i => b (m + i)) k :=
    val_congr fun i hi => h (m + i) (by omega) (by omega)
  rw [val_add, val_add, this]
  omega

theorem mul_le_add_mul_iff {P l q : Nat} (hl : l < P) : P * x ≤ l + P * q ↔ x ≤ q := by
  constructor
  · intro h
    by_contra hlt
    have : P * (q + 1) ≤ P * x := Nat.mul_le_mul_left _ (by omega)
    rw [Nat.mul_succ] at this
    omega
  · intro h
    have : P * x ≤ P * q := Nat.mul_le_mul_left _ h
    omega

theorem val_digits : val B (fun i => x / B ^ i % B) n = x % B ^ n := by
  induction n with
  | zero => simp [Nat.mod_one]
  | succ n ih => rw [val_succ, ih, Nat.pow_succ, Nat.mod_mul, Nat.mul_comm (B ^ n)]

theorem ceil_div (hm : 0 < m) : (x + m - 1) / m = x / m + if x % m = 0 then 0 else 1 := by
  have hdm := Nat.div_add_mod x m
  have hlt := Nat.mod_lt x hm
  generalize x / m = q at hdm
  generalize x % m = r at hdm hlt
  rw [← hdm, show m * q + r + m - 1 = r + m - 1 + m * q by omega, Nat.add_mul_div_left _ _ hm, Nat.add_comm]
  congr 1
  split
  · exact Nat.div_eq_of_lt (by omega)
  · rw [Nat.div_eq_of_lt_le] <;> omega

/-! ## 繰り上がりと借りの一段 -/

variable {v X Y c c' d u s : Nat}

theorem carry_step (h : v + B ^ i * c = X) (hd : d + B * c' = x + c) :
    v + d * B ^ i + B ^ (i + 1) * c' = X + x * B ^ i := by
  calc v + d * B ^ i + B ^ (i + 1) * c' = v + B ^ i * (d + B * c') := by ring
    _ = v + B ^ i * c + x * B ^ i := by rw [hd]; ring
    _ = X + x * B ^ i := by rw [h]

theorem borrow_step (h : v + Y = X + B ^ i * c) (hd : d + y + c = x + B * c') :
    v + d * B ^ i + (Y + y * B ^ i) = X + x * B ^ i + B ^ (i + 1) * c' := by
  calc v + d * B ^ i + (Y + y * B ^ i) = v + Y + (d + y) * B ^ i := by ring
    _ = X + (d + y + c) * B ^ i := by rw [h]; ring
    _ = X + x * B ^ i + B ^ (i + 1) * c' := by rw [hd]; ring

/-- 一桁の割り算の一段。 -/
theorem divide_step (h : X = v + x * B ^ i + B ^ (i + 1) * (s * k + u))
    (hd : u * B + x = s * d + c) : X = v + B ^ i * (s * (B * k + d) + c) := by
  calc X = v + B ^ i * (B * (s * k) + (u * B + x)) := by rw [h]; ring
    _ = v + B ^ i * (s * (B * k + d) + c) := by rw [hd]; ring

end Lib

/-!
## 筆算の割り算

被除数 `W` と除数 `V` の上の桁 `u` と `v` から商の一桁を見積もる。見積もりは、上の桁だけで足りなければ正しい商より小さくならず、
上の桁を超えなければ、正しい商を一つしか超えない。
-/

namespace Lib

variable {B P V W u v q r : Nat}

theorem lt_mul_of_top_lt (hW : W < (u + 1) * P) (hV : v * P ≤ V) (h : u < q * v) : W < q * V :=
  calc W < (u + 1) * P := hW
    _ ≤ q * v * P := Nat.mul_le_mul_right _ h
    _ = q * (v * P) := Nat.mul_assoc _ _ _
    _ ≤ q * V := Nat.mul_le_mul_left _ hV

theorem mul_le_add_of_top_le (hW : u * P ≤ W) (hV : V < (v + 1) * P) (hq : q * P ≤ V)
    (h : q * v ≤ u) : q * V ≤ W + V :=
  calc q * V ≤ q * ((v + 1) * P) := Nat.mul_le_mul_left _ (Nat.le_of_lt hV)
    _ = q * v * P + q * P := by ring
    _ ≤ u * P + V := Nat.add_le_add (Nat.mul_le_mul_right _ h) hq
    _ ≤ W + V := Nat.add_le_add_right hW _

theorem exists_remainder_of_borrow (h1 : W < q * V) (h2 : q * V ≤ W + V) :
    ∃ r, r < V ∧ W = (q - 1) * V + r ∧ 0 < q := by
  have hq : 0 < q := by
    rcases Nat.eq_zero_or_pos q with rfl | h
    · omega
    · exact h
  have hmul : q * V = (q - 1) * V + V := by
    rw [← Nat.succ_mul, Nat.succ_eq_add_one, Nat.sub_add_cancel hq]
  exact ⟨W - (q - 1) * V, by omega, by omega, hq⟩

theorem quotient_step {U Q l i : Nat} (hU : l + B ^ i * W + V * (B ^ (i + 1) * Q) = U)
    (hW : W = q * V + r) : l + B ^ i * r + V * (B ^ i * (q + B * Q)) = U := by
  rw [← hU, hW]
  ring

end Lib
