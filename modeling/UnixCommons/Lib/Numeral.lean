import Mathlib.Data.Nat.Log
import Mathlib.Data.List.DropRight
import Mathlib.Tactic.Ring

/-!
# 十進の数字の並び

数を、決まった桁数の数字の並び `numeral` にする。
-/

namespace Lib

def digitChar (d : Nat) : Char := Char.ofNat (48 + d)

def numeral (x : Nat) : Nat → List Char
  | 0 => []
  | n + 1 => numeral (x / 10) n ++ [digitChar (x % 10)]

def digitsValue (l : List Char) : Nat := l.foldl (fun x c => x * 10 + (c.toNat - 48)) 0

variable {x n m : Nat} {l l' : List Char} {c : Char}

theorem digitChar_toNat (h : x < 10) : (digitChar x).toNat = 48 + x := by
  revert h
  revert x
  decide

theorem isDigit_iff : c.isDigit = true ↔ 48 ≤ c.toNat ∧ c.toNat ≤ 57 := by
  unfold Char.isDigit Char.toNat
  rw [Bool.and_eq_true, decide_eq_true_eq, decide_eq_true_eq]
  rfl

theorem digitChar_isDigit (h : x < 10) : (digitChar x).isDigit = true := by
  rw [isDigit_iff, digitChar_toNat h]
  omega

theorem eq_digitChar (h : c.isDigit = true) : c = digitChar (c.toNat - 48) := by
  have hd := isDigit_iff.mp h
  rw [← Char.toNat_inj, digitChar_toNat (by omega)]
  omega

/-! ## 並び -/

@[simp] theorem numeral_zero : numeral x 0 = [] := rfl

theorem numeral_succ : numeral x (n + 1) = numeral (x / 10) n ++ [digitChar (x % 10)] := rfl

@[simp] theorem length_numeral : (numeral x n).length = n := by
  induction n generalizing x with
  | zero => rfl
  | succ n ih => rw [numeral_succ, List.length_append, ih, List.length_singleton]

theorem numeral_add : numeral x (m + n) = numeral (x / 10 ^ n) m ++ numeral x n := by
  induction n generalizing x with
  | zero => simp
  | succ n ih =>
      rw [← Nat.add_assoc, numeral_succ, numeral_succ, ih, List.append_assoc, Nat.div_div_eq_div_mul, ← Nat.pow_succ']

theorem numeral_succ_left : numeral x (n + 1) = digitChar (x / 10 ^ n % 10) :: numeral x n := by
  rw [Nat.add_comm, numeral_add]
  rfl

theorem numeral_mod (h : n ≤ m) : numeral (x % 10 ^ m) n = numeral x n := by
  induction n generalizing x m with
  | zero => rfl
  | succ n ih =>
      obtain ⟨k, rfl⟩ : ∃ k, m = k + 1 := ⟨m - 1, by omega⟩
      have h1 : x % 10 ^ (k + 1) % 10 = x % 10 := Nat.mod_mod_of_dvd _ (Dvd.intro_left _ (Nat.pow_succ 10 k).symm)
      have h2 : x % 10 ^ (k + 1) / 10 = x / 10 % 10 ^ k := by
        rw [Nat.pow_succ', Nat.mod_mul_right_div_self]
      rw [numeral_succ, numeral_succ, h1, h2, ih (by omega)]

theorem isDigit_of_mem_numeral (h : c ∈ numeral x n) : c.isDigit = true := by
  induction n generalizing x with
  | zero => cases h
  | succ n ih =>
      rw [numeral_succ, List.mem_append, List.mem_singleton] at h
      rcases h with h | rfl
      · exact ih h
      · exact digitChar_isDigit (Nat.mod_lt _ (by decide))

theorem numeral_of_zero : numeral 0 n = List.replicate n '0' := by
  induction n with
  | zero => rfl
  | succ n ih =>
      rw [numeral_succ, Nat.zero_div, ih, List.replicate_succ']
      rfl

theorem numeral_slice {k : Nat} (h : k + m ≤ n) : ((numeral x n).drop k).take m = numeral (x / 10 ^ (n - k - m)) m := by
  obtain ⟨r, rfl⟩ := Nat.exists_eq_add_of_le h
  rw [Nat.add_assoc, numeral_add, List.drop_left' length_numeral, numeral_add,
    List.take_left' length_numeral, show k + (m + r) - k - m = r by omega]

/-! ## 並びの値 -/

theorem digitsValue_append_singleton : digitsValue (l ++ [c]) = digitsValue l * 10 + (c.toNat - 48) := by
  unfold digitsValue
  rw [List.foldl_append]
  rfl

theorem digitsValue_append : digitsValue (l ++ l') = digitsValue l * 10 ^ l'.length + digitsValue l' := by
  induction l' using List.reverseRecOn with
  | nil => simp [digitsValue]
  | append_singleton l' c ih =>
      rw [← List.append_assoc, digitsValue_append_singleton, digitsValue_append_singleton, ih,
        List.length_append, List.length_singleton, Nat.pow_succ]
      ring

theorem digitsValue_numeral : digitsValue (numeral x n) = x % 10 ^ n := by
  induction n generalizing x with
  | zero => simp [digitsValue, Nat.mod_one]
  | succ n ih =>
      rw [numeral_succ, digitsValue_append_singleton, ih,
        digitChar_toNat (Nat.mod_lt _ (by decide)), Nat.pow_succ', Nat.mod_mul]
      omega

theorem digitsValue_lt (h : ∀ c ∈ l, c.isDigit = true) : digitsValue l < 10 ^ l.length := by
  induction l using List.reverseRecOn with
  | nil => simp [digitsValue]
  | append_singleton l c ih =>
      have h1 := ih fun c hc => h c (List.mem_append_left _ hc)
      have h2 := isDigit_iff.mp (h c (by simp))
      rw [digitsValue_append_singleton, List.length_append, List.length_singleton, Nat.pow_succ]
      omega

theorem numeral_digitsValue (h : ∀ c ∈ l, c.isDigit = true) : numeral (digitsValue l) l.length = l := by
  induction l using List.reverseRecOn with
  | nil => rfl
  | append_singleton l c ih =>
      have hc := h c (by simp)
      have hd := isDigit_iff.mp hc
      rw [digitsValue_append_singleton, List.length_append, List.length_singleton, numeral_succ,
        show (digitsValue l * 10 + (c.toNat - 48)) / 10 = digitsValue l by omega,
        show (digitsValue l * 10 + (c.toNat - 48)) % 10 = c.toNat - 48 by omega, ← eq_digitChar hc,
        ih fun c hc => h c (List.mem_append_left _ hc)]

theorem digitsValue_replicate_zero : digitsValue (List.replicate n '0') = 0 := by
  rw [← numeral_of_zero, digitsValue_numeral, Nat.zero_mod]

/-! ## 上の零を除いた並び -/

def width (x : Nat) : Nat := if x = 0 then 0 else Nat.log 10 x + 1

theorem width_le_iff : width x ≤ n ↔ x < 10 ^ n := by
  unfold width
  split
  · next h =>
    subst h
    exact ⟨fun _ => Nat.pow_pos (by decide), fun _ => Nat.zero_le n⟩
  · next h => exact (Nat.log_lt_iff_lt_pow (by decide) h)

theorem lt_pow_width : x < 10 ^ width x := width_le_iff.mp (Nat.le_refl _)

theorem width_pos (h : x ≠ 0) : 0 < width x := by
  unfold width
  rw [if_neg h]
  exact Nat.succ_pos _

theorem width_div : width (x / 10) = width x - 1 := by
  refine Nat.le_antisymm ?_ ?_
  · rw [width_le_iff]
    refine Nat.div_lt_of_lt_mul ?_
    rw [← Nat.pow_succ']
    exact Nat.lt_of_lt_of_le lt_pow_width (Nat.pow_le_pow_right (by decide) (by omega))
  · have h : width x ≤ width (x / 10) + 1 := by
      rw [width_le_iff, Nat.pow_succ]
      have := lt_pow_width (x := x / 10)
      omega
    omega

def natText (x : Nat) : List Char := numeral x (max 1 (width x))

theorem numeral_eq_replicate_append (h : width x ≤ n) :
    numeral x n = List.replicate (n - width x) '0' ++ numeral x (width x) := by
  conv_lhs => rw [show n = n - width x + width x by omega]
  rw [numeral_add, Nat.div_eq_of_lt lt_pow_width, numeral_of_zero]

/-! ## 下の零を除いた並び -/

def trailingZeros : Nat → Nat → Nat
  | 0, _ => 0
  | n + 1, x => if x % 10 = 0 then trailingZeros n (x / 10) + 1 else 0

theorem trailingZeros_spec (h : x < 10 ^ n) (hx : x ≠ 0) :
    trailingZeros n x < n ∧ 10 ^ trailingZeros n x ∣ x ∧ x / 10 ^ trailingZeros n x % 10 ≠ 0 := by
  induction n generalizing x with
  | zero =>
      rw [Nat.pow_zero] at h
      omega
  | succ n ih =>
      unfold trailingZeros
      split
      · next hz =>
        rw [Nat.pow_succ] at h
        obtain ⟨h1, h2, h3⟩ := ih (x := x / 10) (by omega) (by omega)
        refine ⟨by omega, ?_, ?_⟩
        · rw [Nat.pow_succ']
          exact (Nat.dvd_div_iff_mul_dvd (Nat.dvd_of_mod_eq_zero hz)).mp h2
        · rw [Nat.pow_succ', ← Nat.div_div_eq_div_mul]
          exact h3
      · next hne => exact ⟨Nat.succ_pos n, by simp, by simpa using hne⟩

theorem dvd_of_digits_zero {z : Nat} (h : ∀ q < z, x / 10 ^ q % 10 = 0) : 10 ^ z ∣ x := by
  induction z with
  | zero => simp
  | succ z ih =>
      have h1 := ih fun q hq => h q (by omega)
      have h2 := h z (Nat.lt_succ_self z)
      rw [Nat.pow_succ]
      exact Nat.mul_dvd_of_dvd_div h1 (Nat.dvd_of_mod_eq_zero h2)

theorem trailingZeros_unique {z z' : Nat} (h : 10 ^ z ∣ x) (hz : x / 10 ^ z % 10 ≠ 0)
    (h' : 10 ^ z' ∣ x) (hz' : x / 10 ^ z' % 10 ≠ 0) : z = z' := by
  have key : ∀ z z', 10 ^ z' ∣ x → x / 10 ^ z % 10 ≠ 0 → ¬ z < z' := by
    intro z z' hdvd hne hlt
    obtain ⟨k, rfl⟩ := Nat.exists_eq_add_of_lt hlt
    obtain ⟨y, rfl⟩ := hdvd
    refine hne ?_
    rw [show 10 ^ (z + k + 1) * y = 10 ^ z *
      (10 * (10 ^ k * y)) by ring, Nat.mul_div_cancel_left _ (Nat.pow_pos (by decide)),
      Nat.mul_mod_right]
  have h1 := key z z' h' hz
  have h2 := key z' z h hz'
  omega

/-- 小数点の下の `n` 桁の、下の零を除いた並び。 -/
def fractionText (n x : Nat) : List Char :=
  if x = 0 then ['0'] else numeral (x / 10 ^ trailingZeros n x) (n - trailingZeros n x)

theorem fractionText_eq {z : Nat} (h : x < 10 ^ n) (hx : x ≠ 0) (hd : 10 ^ z ∣ x)
    (hz : x / 10 ^ z % 10 ≠ 0) : fractionText n x = numeral (x / 10 ^ z) (n - z) := by
  obtain ⟨-, h1, h2⟩ := trailingZeros_spec h hx
  rw [fractionText, if_neg hx, trailingZeros_unique h1 h2 hd hz]

theorem length_fractionText_le (hn : 0 < n) : (fractionText n x).length ≤ n := by
  unfold fractionText
  split
  · exact hn
  · rw [length_numeral]
    exact Nat.sub_le _ _

theorem length_natText : (natText x).length = max 1 (width x) := length_numeral

end Lib
