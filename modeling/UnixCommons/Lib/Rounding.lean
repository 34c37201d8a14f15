import Mathlib.Algebra.Order.Ring.Nat
import Mathlib.Tactic.Ring

/-!
# 格子への丸め

自然数を、`2 ^ e` の倍数のうちで最も近い物に丸める。二つの真中では、偶数倍の方を採る。
-/

namespace Lib

def roundEven (e n : Nat) : Nat :=
  let q := n / 2 ^ e
  let r := n % 2 ^ e
  if 2 ^ e < 2 * r ∨ (2 * r = 2 ^ e ∧ q % 2 = 1) then (q + 1) * 2 ^ e else q * 2 ^ e

/-- 仮数が `p` ビットの浮動小数点数への丸め。指数は限らない。 -/
def roundBits (p n : Nat) : Nat := roundEven (n.log2 + 1 - p) n

section

variable {e p m n : Nat}

theorem roundEven_zero : roundEven 0 n = n := by simp [roundEven, Nat.mod_one]

theorem le_roundEven (h : m * 2 ^ e ≤ n) : m * 2 ^ e ≤ roundEven e n := by
  have hm : m ≤ n / 2 ^ e := (Nat.le_div_iff_mul_le (Nat.two_pow_pos e)).mpr h
  unfold roundEven
  dsimp only
  split
  · exact Nat.mul_le_mul_right _ (Nat.le_succ_of_le hm)
  · exact Nat.mul_le_mul_right _ hm

theorem roundEven_le (h : n ≤ m * 2 ^ e) : roundEven e n ≤ m * 2 ^ e := by
  have hdiv := Nat.div_add_mod' n (2 ^ e)
  have hpos := Nat.two_pow_pos e
  unfold roundEven
  dsimp only
  split
  · have hlt : n / 2 ^ e * 2 ^ e < m * 2 ^ e := by omega
    exact Nat.mul_le_mul_right _ (lt_of_mul_lt_mul_right hlt (Nat.zero_le _))
  · exact (Nat.div_mul_le_self n _).trans h

theorem le_roundEven_iff (hm : m % 2 = 0) : m * 2 ^ (e + 1) ≤ roundEven (e + 1) n ↔ m * 2 ^ (e + 1) ≤ n + 2 ^ e := by
  have hdiv := Nat.div_add_mod' n (2 ^ (e + 1))
  have hmod : n % 2 ^ (e + 1) < 2 ^ (e + 1) := Nat.mod_lt _ (Nat.two_pow_pos _)
  have htwo : 2 ^ (e + 1) = 2 * 2 ^ e := by rw [pow_succ, Nat.mul_comm]
  have hstep : ∀ q, (q + 1) * 2 ^ (e + 1) = q * 2 ^ (e + 1) + 2 * 2 ^ e := fun q => by rw [Nat.succ_mul, htwo]
  have hle : ∀ a b, a * 2 ^ (e + 1) ≤ b * 2 ^ (e + 1) ↔ a ≤ b := fun a b => Nat.mul_le_mul_right_iff (Nat.two_pow_pos _)
  -- `k` 倍の点に届かなければ、`k + 1` 倍の点まで一歩ある。
  have hgap : ∀ k, k < m → k * 2 ^ (e + 1) + 2 * 2 ^ e ≤ m * 2 ^ (e + 1) := fun k hk => by
    rw [← hstep, hle]
    exact hk
  unfold roundEven
  dsimp only
  split
  · rename_i hup
    rw [hle]
    constructor
    · intro h
      have := (hle _ _).mpr h
      rw [hstep] at this
      omega
    · intro h
      by_contra hlt
      have := hgap _ (Nat.lt_of_not_le hlt)
      rw [hstep] at this
      omega
  · rename_i hup
    rw [hle]
    constructor
    · intro h
      have := (hle _ _).mpr h
      omega
    · intro h
      by_contra hlt
      have hq := hgap _ (Nat.lt_of_not_le hlt)
      -- 真中で偶数倍へ下がるなら、次の点は奇数倍である。
      have heq : m = n / 2 ^ (e + 1) + 1 := by
        by_contra hne
        have := hgap (n / 2 ^ (e + 1) + 1) (by omega)
        rw [hstep] at this
        omega
      omega

theorem two_pow_le_roundBits (hp : 0 < p) (h : 2 ^ e ≤ n) : 2 ^ e ≤ roundBits p n := by
  have hn : n ≠ 0 := Nat.ne_of_gt (Nat.lt_of_lt_of_le (Nat.two_pow_pos e) h)
  have he : e ≤ n.log2 := (Nat.le_log2 hn).mpr h
  have hsplit : 2 ^ (n.log2 - (n.log2 + 1 - p)) * 2 ^ (n.log2 + 1 - p) = 2 ^ n.log2 := by
    rw [← pow_add]
    congr 1
    omega
  calc 2 ^ e ≤ 2 ^ n.log2 := Nat.pow_le_pow_right (by decide) he
    _ = _ := hsplit.symm
    _ ≤ roundBits p n := le_roundEven (hsplit.le.trans (Nat.log2_self_le hn))

theorem roundBits_le_two_pow (hp : 0 < p) (h : n < 2 ^ e) : roundBits p n ≤ 2 ^ e := by
  rcases Nat.eq_zero_or_pos n with rfl | hn
  · simp [roundBits, roundEven]
  have he : n.log2 < e := (Nat.log2_lt (Nat.ne_of_gt hn)).mpr h
  have hsplit : 2 ^ (e - (n.log2 + 1 - p)) * 2 ^ (n.log2 + 1 - p) = 2 ^ e := by
    rw [← pow_add]
    congr 1
    omega
  rw [roundBits, ← hsplit]
  exact roundEven_le (hsplit ▸ Nat.le_of_lt h)

theorem le_roundBits_iff_of_le (hp : 0 < p) (hm : m ≤ 2 ^ p) : m ≤ roundBits p n ↔ m ≤ n := by
  rcases Nat.lt_or_ge n (2 ^ p) with hlt | hge
  · have hzero : n.log2 + 1 - p = 0 := by
      rcases Nat.eq_zero_or_pos n with rfl | hn
      · exact Nat.sub_eq_zero_of_le hp
      · have := (Nat.log2_lt (Nat.ne_of_gt hn)).mpr hlt
        omega
    rw [roundBits, hzero, roundEven_zero]
  · exact iff_of_true (hm.trans (two_pow_le_roundBits hp hge)) (hm.trans hge)

theorem le_roundBits_iff (hp : 0 < p) (hm : m % 2 = 0) (hlow : 2 ^ (p + e) < m * 2 ^ (e + 1))
    (hhigh : m * 2 ^ (e + 1) ≤ 2 ^ (p + e + 1)) :
    m * 2 ^ (e + 1) ≤ roundBits p n ↔ m * 2 ^ (e + 1) ≤ n + 2 ^ e := by
  rcases Nat.lt_or_ge n (2 ^ (p + e)) with hlt | hge
  · have hround := roundBits_le_two_pow hp hlt
    have hsplit : 2 ^ (p - 1) * 2 ^ (e + 1) = 2 ^ (p + e) := by
      rw [← pow_add]
      congr 1
      omega
    have hgap : (2 ^ (p - 1) + 1) * 2 ^ (e + 1) ≤ m * 2 ^ (e + 1) := by
      rw [← hsplit] at hlow
      exact Nat.mul_le_mul_right _ (lt_of_mul_lt_mul_right hlow (Nat.zero_le _))
    rw [Nat.succ_mul, hsplit, pow_succ] at hgap
    have hpos := Nat.two_pow_pos e
    refine iff_of_false ?_ ?_
    · omega
    · rw [pow_succ] at hlow ⊢
      omega
  · rcases Nat.lt_or_ge n (2 ^ (p + e + 1)) with hlt | hge'
    · have hn : n ≠ 0 := Nat.ne_of_gt (Nat.lt_of_lt_of_le (Nat.two_pow_pos _) hge)
      have hlog : n.log2 = p + e := by
        have := (Nat.le_log2 hn).mpr hge
        have := (Nat.log2_lt hn).mpr hlt
        omega
      have hexp : n.log2 + 1 - p = e + 1 := by omega
      rw [roundBits, hexp]
      exact le_roundEven_iff hm
    · exact iff_of_true (hhigh.trans (two_pow_le_roundBits hp hge')) ((hhigh.trans hge').trans (Nat.le_add_right _ _))

end

end Lib
