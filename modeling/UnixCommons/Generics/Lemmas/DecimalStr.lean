import UnixCommons.Generics.DecimalConstruct
import UnixCommons.Generics.Lemmas.Decimal

/-! # 文字列との変換の補題 -/

namespace UnixCommons.Generics

open Lib

variable {p : Params} {d : Decimal} {num : Nat → Nat} {first digits elem n i u : Nat} {res : List Char}

def decimalText (F : Nat) (negative : Bool) (u : Nat) : List Char :=
  (if negative ∧ u ≠ 0 then ['-'] else []) ++ natText (u / 10 ^ F) ++
    if F = 0 then [] else '.' :: fractionText F (u % 10 ^ F)

/-! ## 数字の配列 -/

theorem disassembleLoop_spec (num : Nat → Nat) (elem : Nat) :
    (∀ j < n, (forDown (disassembleBody first) n (num, elem)).1 (first + j) = elem / 10 ^ (n - 1 - j) % 10) ∧
      (∀ k, k < first ∨ first + n ≤ k → (forDown (disassembleBody first) n (num, elem)).1 k = num k) := by
  induction n generalizing num elem with
  | zero => exact ⟨fun j hj => by omega, fun _ _ => rfl⟩
  | succ n ih =>
      obtain ⟨h1, h2⟩ := ih (Function.update num (first + n) (elem % 10)) (elem / 10)
      have hrun : forDown (disassembleBody first) (n + 1) (num, elem) =
          forDown (disassembleBody first) n (Function.update num (first + n) (elem % 10), elem / 10) := rfl
      rw [hrun]
      refine ⟨fun j hj => ?_, fun k hk => ?_⟩
      · by_cases hjn : j = n
        · rw [hjn, h2 _ (Or.inr (Nat.le_refl _)), Function.update_self,
            show n + 1 - 1 - n = 0 by omega, Nat.pow_zero, Nat.div_one]
        · rw [h1 j (by omega), Nat.div_div_eq_div_mul, ← Nat.pow_succ', show (n - 1 - j).succ = n + 1 - 1 - j by omega]
      · rw [h2 k (by omega), Function.update_of_ne (by omega)]

theorem disassembleDecimal_spec (digits elem first : Nat) (num : Nat → Nat) :
    (∀ j < digits, disassembleDecimal digits elem first num (first + j) = elem / 10 ^ (digits - 1 - j) % 10) ∧
      (∀ k, k < first ∨ first + digits ≤ k → disassembleDecimal digits elem first num k = num k) := by
  unfold disassembleDecimal
  split
  · exact disassembleLoop_spec num elem
  · next h => exact ⟨fun j hj => by omega, fun _ _ => rfl⟩

theorem digit_of_element {a : Nat → Nat} {r : Nat} (ha : ∀ i < p.size, a i < p.base)
    (hi : i < p.size) (hr : r < p.digitsPerElement) :
    val p.base a p.size / 10 ^ (i * p.digitsPerElement + r) % 10 = a i / 10 ^ r % 10 := by
  have hlow := val_lt (n := i) fun j hj => ha j (by omega)
  have hpos := Params.base_pos (p := p)
  have hpow : 10 ^ (i * p.digitsPerElement + r) = p.base ^ i * 10 ^ r := by
    rw [Params.base_eq, ← Nat.pow_mul, ← Nat.pow_add, Nat.mul_comm i]
  have hB : p.base = 10 ^ r * (10 * 10 ^ (p.digitsPerElement - r - 1)) := by
    rw [Params.base_eq, ← Nat.pow_succ', ← Nat.pow_add]
    congr 1
    omega
  have hsize : p.size = i + 1 + (p.size - (i + 1)) := by omega
  have hval : val p.base a p.size / p.base ^ i =
      a i + p.base * val p.base (fun j => a (i + 1 + j)) (p.size - (i + 1)) := by
    conv_lhs => rw [hsize]
    rw [val_add, val_succ, Nat.pow_succ, Nat.add_assoc, Nat.mul_comm (a i), Nat.mul_assoc, ← Nat.mul_add,
      Nat.add_mul_div_left _ _ (Nat.pow_pos hpos), Nat.div_eq_of_lt hlow, Nat.zero_add]
  rw [hpow, ← Nat.div_div_eq_div_mul, hval]
  generalize val p.base (fun j => a (i + 1 + j)) (p.size - (i + 1)) = h
  rw [hB, Nat.mul_assoc, Nat.add_mul_div_left _ _ (Nat.pow_pos (by decide)), Nat.mul_assoc, Nat.add_mul_mod_self_left]

structure StrInv (p : Params) (a : Nat → Nat) (i : Nat) (s : (Nat → Nat) × Nat × Bool) : Prop where
  digit : ∀ q < p.total - s.2.1, s.1 (p.total - 1 - q) = val p.base a p.size / 10 ^ q % 10
  cur : s.2.1 = if i < p.size then p.total - i * p.digitsPerElement else 0
  notNull : s.2.2 = true ↔ val p.base a i ≠ 0

theorem StrInv.step {a : Nat → Nat} {s : (Nat → Nat) × Nat × Bool} (h : StrInv p a i s)
    (ha : ∀ i < p.size, a i < p.base) (hi : i < p.size) : StrInv p a (i + 1) (strBody p a i s) := by
  obtain ⟨num, cur, notNull⟩ := s
  obtain ⟨hdigit, hcur, hnull⟩ := h
  dsimp only at hdigit hcur hnull
  rw [if_pos hi] at hcur
  have hd := Params.digitsPerElement_pos (p := p)
  have hs := Params.size_spec (p := p)
  have hmul : (i + 1) * p.digitsPerElement = i * p.digitsPerElement + p.digitsPerElement := Nat.succ_mul _ _
  have hlast : i = p.size - 1 → p.size * p.digitsPerElement = i * p.digitsPerElement + p.digitsPerElement := by
    intro he
    rw [← hmul]
    congr 1
    omega
  have hle : i * p.digitsPerElement ≤ (p.size - 1) * p.digitsPerElement := Nat.mul_le_mul_right _ (by omega)
  have hle' : i ≠ p.size - 1 → (i + 1) * p.digitsPerElement ≤ (p.size - 1) * p.digitsPerElement := fun hne =>
    Nat.mul_le_mul_right _ (by omega)
  have hpred : (p.size - 1) * p.digitsPerElement + p.digitsPerElement = p.size * p.digitsPerElement := by
    rw [← Nat.succ_mul]
    congr 1
    omega
  -- この要素の桁数。
  have hdigits : ∃ k, (if i = p.size - 1 then cur else p.digitsPerElement) = k ∧ k ≤ p.digitsPerElement ∧ k ≤ cur ∧
      cur - k = if i + 1 < p.size then p.total - (i + 1) * p.digitsPerElement else 0 := by
    by_cases he : i = p.size - 1
    · have := hlast he
      rw [if_pos he, if_neg (by omega)]
      exact ⟨cur, rfl, by omega, Nat.le_refl _, by omega⟩
    · have := hle' he
      rw [if_neg he, if_pos (by omega)]
      exact ⟨_, rfl, Nat.le_refl _, by omega, by omega⟩
  obtain ⟨k, hk, hkd, hkc, hnext⟩ := hdigits
  unfold strBody
  dsimp only
  rw [hk]
  obtain ⟨h1, h2⟩ := disassembleDecimal_spec k (a i) (cur - k) num
  refine ⟨fun q hq => ?_, hnext, ?_⟩
  · dsimp only at hq ⊢
    rcases Nat.lt_or_ge q (p.total - cur) with hlt | hge
    · rw [h2 _ (Or.inr (by omega))]
      exact hdigit q hlt
    · obtain ⟨r, rfl⟩ : ∃ r, q = i * p.digitsPerElement + r := ⟨q - i * p.digitsPerElement, by omega⟩
      have hj := h1 (k - 1 - r) (by omega)
      rw [show cur - k + (k - 1 - r) = p.total - 1 - (i * p.digitsPerElement + r) by omega,
        show k - 1 - (k - 1 - r) = r by omega] at hj
      rw [hj, digit_of_element ha hi (by omega)]
  · dsimp only
    have hpow : p.base ^ i ≠ 0 := Nat.pos_iff_ne_zero.mp (Nat.pow_pos Params.base_pos)
    rw [val_succ, Bool.or_eq_true, hnull, decide_eq_true_eq, ne_eq, ne_eq, ne_eq, Nat.add_eq_zero_iff, Nat.mul_eq_zero]
    simp only [hpow, or_false]
    omega

theorem strLoop_spec {a : Nat → Nat} (ha : ∀ i < p.size, a i < p.base) :
    StrInv p a p.size (forUp (strBody p a) p.size (fun _ => 0, p.total, false)) := by
  have hs := Params.size_pos (p := p)
  refine forUp_invariant _ ⟨fun q hq => ?_, ?_, by simp⟩ fun i s hi h => h.step ha hi
  · dsimp only at hq
    omega
  · rw [if_pos hs, Nat.zero_mul, Nat.sub_zero]

/-! ## 文字を書く -/

def IsDigits (p : Params) (num : Nat → Nat) (u : Nat) : Prop := ∀ q < p.total, num (p.total - 1 - q) = u / 10 ^ q % 10

theorem IsDigits.map_range (h : IsDigits p num u) (hn : i + n ≤ p.total) :
    (List.range' i n).map (fun k => digitChar (num k)) = numeral (u / 10 ^ (p.total - (i + n))) n := by
  induction n generalizing i with
  | zero => rfl
  | succ n ih =>
      have hnum := h (p.total - 1 - i) (by omega)
      rw [show p.total - 1 - (p.total - 1 - i) = i by omega] at hnum
      rw [List.range'_succ, List.map_cons, ih (by omega), hnum, numeral_succ_left, Nat.div_div_eq_div_mul, ← Nat.pow_add,
        show p.total - (i + (n + 1)) + n = p.total - 1 - i by omega, show i + 1 + n = i + (n + 1) by omega]

theorem skipZeros_spec (num : Nat → Nat) (n i : Nat) : i ≤ skipZeros num n i ∧ skipZeros num n i ≤ i + n ∧
    (∀ k, i ≤ k → k < skipZeros num n i → num k = 0) ∧ (skipZeros num n i = i + n ∨ num (skipZeros num n i) ≠ 0) := by
  induction n generalizing i with
  | zero => exact ⟨Nat.le_refl i, Nat.le_refl i, fun k h1 h2 => by unfold skipZeros at h2; omega, Or.inl rfl⟩
  | succ n ih =>
      unfold skipZeros
      split
      · next hz =>
        obtain ⟨h1, h2, h3, h4⟩ := ih (i + 1)
        refine ⟨by omega, by omega, fun k hk hk' => ?_, by omega⟩
        by_cases hki : k = i
        · rw [hki]
          exact hz
        · exact h3 k (by omega) hk'
      · next hne => exact ⟨Nat.le_refl i, by omega, fun k h1 h2 => by omega, Or.inr hne⟩

theorem lt_of_leading_zeros {x N : Nat} (hx : x < 10 ^ N) (hn : n ≤ N)
    (h : ∀ k < n, x / 10 ^ (N - 1 - k) % 10 = 0) : x < 10 ^ (N - n) := by
  induction n with
  | zero => exact hx
  | succ n ih =>
      have h1 := ih (by omega) fun k hk => h k (by omega)
      have h2 := h n (Nat.lt_succ_self n)
      have h3 : x / 10 ^ (N - 1 - n) < 10 := by
        refine Nat.div_lt_of_lt_mul ?_
        rw [← Nat.pow_succ, show (N - 1 - n).succ = N - n by omega]
        exact h1
      rw [Nat.mod_eq_of_lt h3, Nat.div_eq_zero_iff_lt (Nat.pow_pos (by decide))] at h2
      rw [show N - (n + 1) = N - 1 - n by omega]
      exact h2

theorem strInteger_spec (h : IsDigits p num u) (hu : u < 10 ^ p.total) :
    strInteger p num res = res ++ natText (u / 10 ^ p.fraction) := by
  have hF := p.fraction_le
  have hI : p.integer + p.fraction = p.total := Nat.sub_add_cancel hF
  have hlt : u / 10 ^ p.fraction < 10 ^ p.integer := by
    refine Nat.div_lt_of_lt_mul ?_
    rw [← Nat.pow_add, Nat.add_comm, hI]
    exact hu
  have hdigit : ∀ k < p.integer, num k = u / 10 ^ p.fraction / 10 ^ (p.integer - 1 - k) % 10 := fun k hk => by
    have := h (p.total - 1 - k) (by omega)
    rw [show p.total - 1 - (p.total - 1 - k) = k by omega] at this
    rw [this, Nat.div_div_eq_div_mul, ← Nat.pow_add, show p.fraction + (p.integer - 1 - k) = p.total - 1 - k by omega]
  obtain ⟨-, h2, h3, h4⟩ := skipZeros_spec num p.integer 0
  rw [Nat.zero_add] at h2 h4
  unfold strInteger
  generalize skipZeros num p.integer 0 = k at h2 h3 h4
  have hsmall : u / 10 ^ p.fraction < 10 ^ (p.integer - k) := by
    refine lt_of_leading_zeros hlt h2 fun j hj => ?_
    rw [← hdigit j (by omega)]
    exact h3 j (Nat.zero_le j) hj
  dsimp only
  by_cases hk : k = p.integer
  · have hzero : u / 10 ^ p.fraction = 0 := by
      rw [hk, Nat.sub_self, Nat.pow_zero] at hsmall
      exact Nat.lt_one_iff.mp hsmall
    rw [if_pos hk, hzero]
    rfl
  · rw [if_neg hk]
    have hne := h4.resolve_left hk
    have hwidth : width (u / 10 ^ p.fraction) = p.integer - k := by
      refine Nat.le_antisymm (width_le_iff.mpr hsmall) ?_
      by_contra hgt
      have hlt' := width_le_iff.mp (show width (u / 10 ^ p.fraction) ≤ p.integer - 1 - k by omega)
      rw [hdigit k (by omega), Nat.div_eq_of_lt hlt'] at hne
      exact hne rfl
    rw [h.map_range (by omega), natText, hwidth, show p.total - (k + (p.integer - k)) = p.fraction by omega,
      show max 1 (p.integer - k) = p.integer - k by omega]

structure FractionInv (p : Params) (num : Nat → Nat) (u : Nat) (res : List Char) (i : Nat) (s : List Char × Nat) : Prop where
  text : s.1 = res ++ numeral (u / 10 ^ (p.fraction - i)) i
  last : ((∀ k < i, num (p.integer + k) = 0) ∧ s.2 = res.length) ∨
    ∃ m < i, num (p.integer + m) ≠ 0 ∧ (∀ k, m < k → k < i → num (p.integer + k) = 0) ∧ s.2 = res.length + m

theorem FractionInv.step {s : List Char × Nat} (h : FractionInv p num u res i s) (hnum : IsDigits p num u)
    (hi : i < p.fraction) : FractionInv p num u res (i + 1) (strFraction p num i s) := by
  obtain ⟨text, last⟩ := s
  obtain ⟨htext, hlast⟩ := h
  dsimp only at htext hlast
  have hF := p.fraction_le
  have hI : p.integer + p.fraction = p.total := Nat.sub_add_cancel hF
  have hdigit : num (p.integer + i) = u / 10 ^ (p.fraction - (i + 1)) % 10 := by
    have := hnum (p.total - 1 - (p.integer + i)) (by omega)
    rw [show p.total - 1 - (p.total - 1 - (p.integer + i)) = p.integer + i by omega,
      show p.total - 1 - (p.integer + i) = p.fraction - (i + 1) by omega] at this
    exact this
  have hlen : text.length = res.length + i := by
    rw [htext, List.length_append, length_numeral]
  unfold strFraction
  refine ⟨?_, ?_⟩
  · dsimp only
    rw [htext, List.append_assoc, numeral_succ, ← hdigit, Nat.div_div_eq_div_mul, ← Nat.pow_succ,
      show (p.fraction - (i + 1)).succ = p.fraction - i by omega]
  · dsimp only
    split
    · next hne =>
      exact Or.inr ⟨i, Nat.lt_succ_self i, hne, fun k h1 h2 => by omega, hlen⟩
    · next hz =>
      have hz : num (p.integer + i) = 0 := by omega
      rcases hlast with ⟨hall, hl⟩ | ⟨m, hm, hne, hall, hl⟩
      · refine Or.inl ⟨fun k hk => ?_, hl⟩
        by_cases hki : k = i
        · rw [hki]
          exact hz
        · exact hall k (by omega)
      · refine Or.inr ⟨m, by omega, hne, fun k h1 h2 => ?_, hl⟩
        by_cases hki : k = i
        · rw [hki]
          exact hz
        · exact hall k h1 (by omega)

theorem take_append_numeral (res : List Char) (x : Nat) {m N : Nat} (hm : m < N) :
    (res ++ numeral x N).take (res.length + m + 1) = res ++ numeral (x / 10 ^ (N - 1 - m)) (m + 1) := by
  conv_lhs => rw [show N = m + 1 + (N - 1 - m) by omega]
  rw [numeral_add, ← List.append_assoc, List.take_left']
  rw [List.length_append, length_numeral, Nat.add_assoc]

theorem strFraction_spec (res : List Char) (hnum : IsDigits p num u) (hF : 0 < p.fraction) :
    (forUp (strFraction p num) p.fraction (res, res.length)).1.take
        ((forUp (strFraction p num) p.fraction (res, res.length)).2 + 1) =
      res ++ fractionText p.fraction (u % 10 ^ p.fraction) ∧
    (forUp (strFraction p num) p.fraction (res, res.length)).1.length = res.length + p.fraction ∧
    (forUp (strFraction p num) p.fraction (res, res.length)).2 < res.length + p.fraction := by
  have hle := p.fraction_le
  have hI : p.integer + p.fraction = p.total := Nat.sub_add_cancel hle
  have hdigit : ∀ k < p.fraction, num (p.integer + k) = u % 10 ^ p.fraction / 10 ^
      (p.fraction - 1 - k) % 10 := fun k hk => by
    have := hnum (p.fraction - 1 - k) (by omega)
    rw [show p.total - 1 - (p.fraction - 1 - k) = p.integer + k by omega] at this
    rw [this, show (10 : Nat) ^ p.fraction = 10 ^ (p.fraction - 1 - k) * 10 ^ (k + 1) by rw [← Nat.pow_add]; congr 1; omega,
      Nat.mod_mul_right_div_self, Nat.mod_mod_of_dvd _ (Dvd.intro_left _ (Nat.pow_succ 10 k).symm)]
  have hinv : FractionInv p num u res p.fraction (forUp (strFraction p num) p.fraction (res, res.length)) :=
    forUp_invariant _ ⟨by simp, Or.inl ⟨fun k hk => by omega, rfl⟩⟩ fun i s hi h => h.step hnum hi
  generalize forUp (strFraction p num) p.fraction (res, res.length) = s at hinv
  obtain ⟨text, last⟩ := s
  obtain ⟨htext, hlast⟩ := hinv
  dsimp only at htext hlast ⊢
  rw [Nat.sub_self, Nat.pow_zero, Nat.div_one] at htext
  have hlen : text.length = res.length + p.fraction := by
    rw [htext, List.length_append, length_numeral]
  have hlt : u % 10 ^ p.fraction < 10 ^ p.fraction := Nat.mod_lt _ (Nat.pow_pos (by decide))
  rw [htext, ← numeral_mod (Nat.le_refl p.fraction)]
  rcases hlast with ⟨hall, rfl⟩ | ⟨m, hm, hne, hall, rfl⟩
  · have hzero : u % 10 ^ p.fraction = 0 := by
      have hd := dvd_of_digits_zero (x := u % 10 ^ p.fraction) (z := p.fraction) fun q hq => by
        have := hdigit (p.fraction - 1 - q) (by omega)
        rw [show p.fraction - 1 - (p.fraction - 1 - q) = q by omega] at this
        rw [← this]
        exact hall _ (by omega)
      exact Nat.eq_zero_of_dvd_of_lt hd hlt
    refine ⟨?_, by rw [← htext, hzero] at *; simp, by omega⟩
    have htake := take_append_numeral res (u % 10 ^ p.fraction) hF
    rw [Nat.add_zero] at htake
    rw [htake, hzero, Nat.zero_div]
    rfl
  · have hne' : u % 10 ^ p.fraction ≠ 0 := fun h0 => by
      rw [hdigit m hm, h0, Nat.zero_div] at hne
      exact hne rfl
    have hd : 10 ^ (p.fraction - 1 - m) ∣ u % 10 ^ p.fraction := dvd_of_digits_zero fun q hq => by
      have := hdigit (p.fraction - 1 - q) (by omega)
      rw [show p.fraction - 1 - (p.fraction - 1 - q) = q by omega] at this
      rw [← this]
      exact hall _ (by omega) (by omega)
    refine ⟨?_, by rw [List.length_append, length_numeral], by omega⟩
    rw [take_append_numeral res _ hm, fractionText_eq hlt hne' hd (by rw [← hdigit m hm]; exact hne),
      show p.fraction - (p.fraction - 1 - m) = m + 1 by omega]

theorem Decimal.str_spec (h : d.Valid p) : d.str p = .ok (decimalText p.fraction d.negative (d.magnitude p)) := by
  have hle := p.fraction_le
  have hI : p.integer + p.fraction = p.total := Nat.sub_add_cancel hle
  have hlt := h.magnitude_lt
  obtain ⟨hdigit, hcur, hnull⟩ := strLoop_spec h.digit
  unfold Decimal.str
  generalize forUp (strBody p d.array) p.size (fun _ => 0, p.total, false) = s at hdigit hcur hnull
  obtain ⟨num, cur, notNull⟩ := s
  dsimp only at hdigit hcur hnull ⊢
  rw [if_neg (Nat.lt_irrefl _)] at hcur
  rw [hcur, Nat.sub_zero] at hdigit
  have hnum : IsDigits p num (d.magnitude p) := hdigit
  have hsign : (if d.negative = true ∧ notNull = true then ['-'] else []) =
      if d.negative = true ∧ d.magnitude p ≠ 0 then ['-'] else [] := if_congr (and_congr_right fun _ => hnull) rfl rfl
  have hwidth : width (d.magnitude p / 10 ^ p.fraction) ≤ p.integer := by
    rw [width_le_iff]
    refine Nat.div_lt_of_lt_mul ?_
    rw [← Nat.pow_add, Nat.add_comm, hI]
    exact hlt
  have hlen : ((if d.negative = true ∧ d.magnitude p ≠ 0 then ['-'] else []) ++
      natText (d.magnitude p / 10 ^ p.fraction)).length ≤ 1 + max 1 p.integer := by
    rw [List.length_append, length_natText]
    split <;> simp <;> omega
  have hmax : max 1 p.integer ≤ p.integer + if p.integer = 0 then 1 else 0 := by
    split <;> omega
  rw [strInteger_spec hnum hlt, hsign]
  unfold decimalText Params.strSize
  generalize (if d.negative = true ∧ d.magnitude p ≠ 0 then ['-'] else []) ++
    natText (d.magnitude p / 10 ^ p.fraction) = head at hlen
  by_cases hF : p.fraction = 0
  · rw [if_neg (by omega), if_pos hF, List.append_nil, if_neg (by omega)]
    rfl
  · obtain ⟨h1, h2, h3⟩ := strFraction_spec (head ++ ['.']) hnum (Nat.pos_of_ne_zero hF)
    rw [if_pos hF, if_neg hF]
    generalize forUp (strFraction p num) p.fraction (head ++ ['.'], (head ++ ['.']).length) = r at h1 h2 h3
    obtain ⟨text, last⟩ := r
    dsimp only at h1 h2 h3 ⊢
    rw [List.length_append, List.length_singleton] at h2 h3
    rw [if_neg (by omega), h1, List.append_assoc]
    rfl

end UnixCommons.Generics
