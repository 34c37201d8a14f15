import UnixCommons.Generics.SimpleDecimal
import UnixCommons.Generics.Lemmas.DecimalDiv
import UnixCommons.Generics.Lemmas.DecimalFloor
import UnixCommons.Generics.Lemmas.DecimalStr

/-! # 一つの整数による十進数の補題 -/

namespace UnixCommons.Generics

open Lib

variable {s : SimpleParams} {x y : SimpleDecimal} {n z i : Nat} {buf : List Char}

def SimpleDecimal.value (d : SimpleDecimal) : Int := if d.negative then -d.data else d.data

def SimpleDecimal.Valid (s : SimpleParams) (d : SimpleDecimal) : Prop := d.data < 10 ^ s.total

/-! ## 定数 -/

theorem Element.pow_digits10_lt (e : Element) : 10 ^ e.digits10 < e.modulus - 1 := by cases e <;> decide

theorem Element.pow_digits10_lt_calc (e : Element) : 10 ^ e.digits10 < 2 ^ 64 := by cases e <;> decide

theorem SimpleParams.pow_lt_modulus (h : n ≤ s.total) : 10 ^ n < s.base.modulus - 1 :=
  Nat.lt_of_le_of_lt (Nat.pow_le_pow_right (by decide) (Nat.le_trans h s.total_fits)) s.base.pow_digits10_lt

theorem SimpleParams.pow_lt_calc : 10 ^ s.total < 2 ^ 64 :=
  Nat.lt_of_le_of_lt (Nat.pow_le_pow_right (by decide) s.total_fits) s.base.pow_digits10_lt_calc

theorem SimpleParams.integer_add : s.integer + s.fraction = s.total := Nat.sub_add_cancel s.fraction_le

theorem SimpleParams.pow_split : 10 ^ s.fraction * 10 ^ s.integer = 10 ^ s.total := by
  rw [← Nat.pow_add, Nat.add_comm, SimpleParams.integer_add]

theorem SimpleDecimal.value_natAbs : x.value.natAbs = x.data := by
  unfold SimpleDecimal.value
  split <;> omega

/-! ## 文字列にする -/

theorem trimLoop_eq (h : z < 10 ^ n) (hz : z ≠ 0) (i : Nat) :
    trimLoop n z i = .ok (z / 10 ^ trailingZeros n z % 10, z / 10 ^ trailingZeros n z / 10, i + trailingZeros n z + 1) := by
  induction n generalizing z i with
  | zero =>
      rw [Nat.pow_zero] at h
      omega
  | succ n ih =>
      rw [Nat.pow_succ] at h
      unfold trimLoop trailingZeros
      split
      · next h0 =>
        rw [ih (by omega) (by omega) (i + 1), Nat.pow_succ', ← Nat.div_div_eq_div_mul,
          show i + 1 + trailingZeros n (z / 10) + 1 = i + (trailingZeros n (z / 10) + 1) + 1 by omega]
      · simp
        rfl

theorem fractionLoop_eq (h : width z ≤ n) (i : Nat) (buf : List Char) :
    fractionLoop n z i buf = .ok (numeral z (width z) ++ buf, i + width z) := by
  induction n generalizing z i buf with
  | zero =>
      have h0 : z = 0 := Nat.lt_one_iff.mp (width_le_iff.mp h)
      subst h0
      rfl
  | succ n ih =>
      unfold fractionLoop
      split
      · next hz =>
        have hd := width_div (x := z)
        have hp := width_pos hz
        rw [ih (by omega), hd, show i + 1 + (width z - 1) = i + width z by omega]
        conv_rhs => rw [show width z = width z - 1 + 1 by omega, numeral_succ, List.append_assoc]
        rw [show width z - 1 + 1 = width z by omega]
        rfl
      · next hz =>
        have h0 : z = 0 := by omega
        subst h0
        rfl

theorem integerLoop_eq (h : width z ≤ n) (buf : List Char) : integerLoop (n + 1) z buf = .ok (natText z ++ buf) := by
  induction n generalizing z buf with
  | zero =>
      have h0 : z = 0 := Nat.lt_one_iff.mp (width_le_iff.mp h)
      subst h0
      rfl
  | succ n ih =>
      unfold integerLoop
      dsimp only
      have hd := width_div (x := z)
      split
      · next hz =>
        have hp := width_pos hz
        rw [ih (by omega), natText, natText, hd]
        conv_rhs => rw [show max 1 (width z) = max 1 (width z - 1) + 1 by omega, numeral_succ, List.append_assoc]
        rfl
      · next hz =>
        have hw : width z ≤ 1 := by
          rw [width_le_iff]
          omega
        rw [natText, show max 1 (width z) = 1 by omega, numeral_succ]
        rfl

theorem fractionToChar_eq (h : z < 10 ^ s.fraction) : fractionToChar s z = .ok (fractionText s.fraction z) := by
  unfold fractionToChar
  split
  · next hz =>
    obtain ⟨h1, h2, h3⟩ := trailingZeros_spec h hz
    rw [trimLoop_eq h hz 0, fractionText, if_neg hz]
    generalize trailingZeros s.fraction z = k at h1 h2 h3
    have hq : z / 10 ^ k < 10 ^ (s.fraction - k) := by
      refine Nat.div_lt_of_lt_mul ?_
      rw [← Nat.pow_add, show k + (s.fraction - k) = s.fraction by omega]
      exact h
    generalize z / 10 ^ k = q at h3 hq
    have hw : width (q / 10) ≤ s.fraction - k - 1 := by
      have := width_le_iff.mpr hq
      rw [width_div]
      omega
    show (fractionLoop s.fraction (q / 10) (0 + k + 1) [digitChar (q % 10)] >>= fun r =>
      Except.ok (List.replicate (s.fraction - r.2) '0' ++ r.1)) = _
    rw [fractionLoop_eq (by omega)]
    refine congrArg Except.ok ?_
    obtain ⟨m, hm⟩ : ∃ m, s.fraction - k = m + 1 := ⟨s.fraction - k - 1, by omega⟩
    rw [hm, numeral_succ, numeral_eq_replicate_append (n := m) (by omega), List.append_assoc,
      show s.fraction - (0 + k + 1 + width (q / 10)) = m - width (q / 10) by omega]
  · next hz =>
    rw [fractionText, if_pos (by omega)]
    rfl

theorem SimpleDecimal.decimalToChar_eq (h : x.Valid s) :
    x.decimalToChar s = .ok (decimalText s.fraction x.negative x.data) := by
  have hlt : x.data < 10 ^ s.total := h
  have hvalid : (decide (x.data ≠ s.invalidFlag)) = true := by
    have := SimpleParams.pow_lt_modulus (Nat.le_refl s.total)
    refine decide_eq_true ?_
    unfold SimpleParams.invalidFlag
    omega
  unfold SimpleDecimal.decimalToChar
  rw [assert, if_pos hvalid]
  show (if x.data = 0 then _ else _) = _
  by_cases h0 : x.data = 0
  · rw [if_pos h0, h0]
    unfold decimalText
    by_cases hF : s.fraction = 0
    · rw [if_neg (by omega), if_neg (by simp), if_pos hF, hF]
      rfl
    · rw [if_pos hF, if_neg (by simp), if_neg hF, Nat.zero_div, Nat.zero_mod]
      rfl
  · rw [if_neg h0]
    have hint : ∀ z, z ≤ x.data → ∀ buf, integerLoop (s.total + 1) z buf = .ok (natText z ++ buf) := fun z hz buf =>
      integerLoop_eq (width_le_iff.mpr (Nat.lt_of_le_of_lt hz hlt)) buf
    have hsign : ∀ buf : List Char, (if x.negative then '-' :: buf else buf) =
        (if x.negative = true ∧ x.data ≠ 0 then ['-'] else []) ++ buf := fun buf => by
      cases x.negative with
      | true => rw [if_pos rfl, if_pos ⟨rfl, h0⟩]; rfl
      | false => rw [if_neg (by decide), if_neg (by simp)]; rfl
    unfold decimalText
    by_cases hF : s.fraction = 0
    · rw [if_neg (by omega), if_pos hF, hF, Nat.pow_zero, Nat.div_one]
      show (integerLoop (s.total + 1) x.data [] >>= fun buf => Except.ok (if x.negative then '-' :: buf else buf)) = _
      rw [hint _ (Nat.le_refl _)]
      refine congrArg Except.ok ?_
      rw [hsign, List.append_assoc]
    · rw [if_pos hF, if_neg hF]
      unfold SimpleParams.maxFraction
      rw [fractionToChar_eq (Nat.mod_lt _ (Nat.pow_pos (by decide)))]
      show (integerLoop (s.total + 1) (x.data / 10 ^ s.fraction)
          ('.' :: fractionText s.fraction (x.data % 10 ^ s.fraction)) >>=
        fun buf => Except.ok (if x.negative then '-' :: buf else buf)) = _
      rw [hint _ (Nat.div_le_self _ _)]
      refine congrArg Except.ok ?_
      rw [hsign, List.append_assoc]

def Printable (r : Ranks) (u : Int) : Prop := r.integer ≠ 0 ∨ 0 ≤ u ∨ u.natAbs % 10 = 0

instance (r : Ranks) (u : Int) : Decidable (Printable r u) :=
  inferInstanceAs (Decidable (r.integer ≠ 0 ∨ 0 ≤ u ∨ u.natAbs % 10 = 0))

theorem trailingZeros_pos_iff (h : z < 10 ^ n) (hz : z ≠ 0) : 0 < trailingZeros n z ↔ z % 10 = 0 := by
  cases n with
  | zero =>
      rw [Nat.pow_zero] at h
      omega
  | succ n =>
      unfold trailingZeros
      split <;> omega

theorem SimpleDecimal.length_le_iff (h : x.Valid s) :
    (decimalText s.fraction x.negative x.data).length ≤ s.total + 2 ↔ Printable s.toRanks x.value := by
  have hT := s.total_pos
  have hI := SimpleParams.integer_add (s := s)
  have hlt : x.data < 10 ^ s.total := h
  have hwidth : width (x.data / 10 ^ s.fraction) ≤ s.integer := by
    rw [width_le_iff]
    refine Nat.div_lt_of_lt_mul ?_
    rw [SimpleParams.pow_split]
    exact hlt
  have hsign : ((if x.negative = true ∧ x.data ≠ 0 then ['-'] else []) : List Char).length =
      if x.value < 0 then 1 else 0 := by
    unfold SimpleDecimal.value
    cases x.negative with
    | true =>
        by_cases h0 : x.data = 0
        · simp [h0]
        · rw [if_pos ⟨rfl, h0⟩, if_pos rfl, if_pos (by omega)]
          rfl
    | false => simp
  have hlen : (decimalText s.fraction x.negative x.data).length = (if x.value < 0 then 1 else 0) +
      max 1 (width (x.data / 10 ^ s.fraction)) +
      if s.fraction = 0 then 0 else (fractionText s.fraction (x.data % 10 ^ s.fraction)).length + 1 := by
    unfold decimalText
    rw [List.length_append, List.length_append, hsign, length_natText]
    congr 1
    split <;> rfl
  rw [hlen]
  unfold Printable
  by_cases hF : s.fraction = 0
  · rw [if_pos hF]
    refine ⟨fun _ => Or.inl (by omega), fun _ => ?_⟩
    split <;> omega
  · have hfrac := length_fractionText_le (x := x.data % 10 ^ s.fraction) (Nat.pos_of_ne_zero hF)
    rw [if_neg hF]
    by_cases hi : s.integer = 0
    · have hFT : s.fraction = s.total := by omega
      have hw : max 1 (width (x.data / 10 ^ s.fraction)) = 1 := by omega
      rw [hw]
      by_cases hneg : x.value < 0
      · have hne : x.data ≠ 0 := by
          have := SimpleDecimal.value_natAbs (x := x)
          omega
        have hpos := trailingZeros_pos_iff hlt hne
        rw [if_pos hneg, hFT, Nat.mod_eq_of_lt hlt, fractionText, if_neg hne, length_numeral, SimpleDecimal.value_natAbs]
        omega
      · rw [if_neg hneg]
        omega
    · refine ⟨fun _ => Or.inl hi, fun _ => ?_⟩
      split <;> omega

theorem SimpleDecimal.str_eq (h : x.Valid s) : x.str s =
    if Printable s.toRanks x.value then .ok (decimalText s.fraction x.negative x.data) else .error .outOfBuffer := by
  unfold SimpleDecimal.str
  rw [SimpleDecimal.decimalToChar_eq h]
  show (if (decimalText s.fraction x.negative x.data).length > s.total + 2 then _ else _) = _
  by_cases hp : Printable s.toRanks x.value
  · rw [if_pos hp, if_neg (Nat.not_lt.mpr ((SimpleDecimal.length_le_iff h).mpr hp))]
    rfl
  · rw [if_neg hp, if_pos (Nat.not_le.mp (mt (SimpleDecimal.length_le_iff h).mp hp))]
    rfl

def printFault (r : Ranks) (u v : Int) : Fault := if Printable r u ∧ Printable r v then .overflow else .outOfBuffer

theorem printFault_comm {r : Ranks} {u v : Int} : printFault r u v = printFault r v u := by
  unfold printFault
  exact if_congr and_comm rfl rfl

theorem throwOverflow_eq {α : Type} (hx : x.Valid s) (hy : y.Valid s) :
    (throwOverflow s x y : Except Fault α) = .error (printFault s.toRanks x.value y.value) := by
  unfold throwOverflow printFault
  rw [SimpleDecimal.str_eq hx, SimpleDecimal.str_eq hy]
  by_cases h1 : Printable s.toRanks x.value
  · rw [if_pos h1]
    by_cases h2 : Printable s.toRanks y.value
    · rw [if_pos h2, if_pos ⟨h1, h2⟩]
      rfl
    · rw [if_neg h2, if_neg fun h => h2 h.2]
      rfl
  · have hno : ¬ (Printable s.toRanks x.value ∧ Printable s.toRanks y.value) := fun h => h1 h.1
    rw [if_neg h1, if_neg hno]
    rfl

theorem SimpleDecimal.eq_iff : x.eq y = true ↔ x.value = y.value := by
  unfold SimpleDecimal.eq SimpleDecimal.value
  cases x.negative <;> cases y.negative <;> simp

theorem SimpleDecimal.lt_iff : x.lt y = true ↔ x.value < y.value := by
  unfold SimpleDecimal.lt SimpleDecimal.value
  cases x.negative <;> cases y.negative <;> simp <;> omega

/-! ## 足し算と引き算 -/

theorem SimpleParams.add_of_lt (h : n + z < 10 ^ s.total) : s.base.add n z = n + z := by
  have := SimpleParams.pow_lt_modulus (Nat.le_refl s.total)
  exact Element.cast_of_lt (by omega)

theorem SimpleParams.sub_of_le (h : z ≤ n) (hn : n ≤ 10 ^ s.total) : s.base.sub n z = n - z := by
  have := SimpleParams.pow_lt_modulus (Nat.le_refl s.total)
  exact Element.sub_of_le h (by omega)

theorem SimpleDecimal.add_spec (hx : x.Valid s) (hy : y.Valid s) :
    Returns (x.add s y) (fun d => d.Valid s ∧ d.value = x.value + y.value)
      fun e => e = printFault s.toRanks x.value y.value ∧ 10 ^ s.total ≤ (x.value + y.value).natAbs := by
  have hlx : x.data < 10 ^ s.total := hx
  have hly : y.data < 10 ^ s.total := hy
  unfold SimpleDecimal.add
  rw [throwOverflow_eq hx hy, show s.base.sub s.maxValue x.data = 10 ^ s.total - x.data from
    SimpleParams.sub_of_le (Nat.le_of_lt hlx) (Nat.le_refl _)]
  refine Returns.ite (fun hn => Returns.ite (fun hover => ⟨rfl, ?_⟩) (fun hok => Returns.pure ?_))
    (fun hn => Returns.ite (fun hlt => Returns.pure ?_) (fun hge => Returns.pure ?_))
  · unfold SimpleDecimal.value
    rw [hn]
    cases y.negative <;> simp <;> omega
  · rw [SimpleParams.add_of_lt (by omega)]
    refine ⟨show x.data + y.data < 10 ^ s.total by omega, ?_⟩
    unfold SimpleDecimal.value
    rw [hn]
    cases y.negative <;> simp
    omega
  · rw [SimpleParams.sub_of_le (Nat.le_of_lt hlt) (Nat.le_of_lt hly)]
    refine ⟨show y.data - x.data < 10 ^ s.total by omega, ?_⟩
    unfold SimpleDecimal.value
    cases hnx : x.negative <;> cases hny : y.negative <;> simp_all <;> omega
  · rw [SimpleParams.sub_of_le (Nat.not_lt.mp hge) (Nat.le_of_lt hlx)]
    refine ⟨show x.data - y.data < 10 ^ s.total by omega, ?_⟩
    unfold SimpleDecimal.value
    cases hnx : x.negative <;> cases hny : y.negative <;> simp_all <;> omega

theorem SimpleDecimal.sub_spec (hx : x.Valid s) (hy : y.Valid s) :
    Returns (x.sub s y) (fun d => d.Valid s ∧ d.value = x.value - y.value)
      fun e => e = printFault s.toRanks x.value y.value ∧ 10 ^ s.total ≤ (x.value - y.value).natAbs := by
  have hlx : x.data < 10 ^ s.total := hx
  have hly : y.data < 10 ^ s.total := hy
  unfold SimpleDecimal.sub
  rw [throwOverflow_eq hy hx, printFault_comm, show s.base.sub s.maxValue x.data = 10 ^ s.total - x.data from
    SimpleParams.sub_of_le (Nat.le_of_lt hlx) (Nat.le_refl _)]
  refine Returns.ite (fun hn => Returns.ite (fun hover => ⟨rfl, ?_⟩) (fun hok => Returns.pure ?_))
    (fun hn => Returns.ite (fun hlt => Returns.pure ?_) (fun hge => Returns.pure ?_))
  · unfold SimpleDecimal.value
    cases hnx : x.negative <;> cases hny : y.negative <;> simp_all <;> omega
  · rw [SimpleParams.add_of_lt (by omega)]
    refine ⟨show x.data + y.data < 10 ^ s.total by omega, ?_⟩
    unfold SimpleDecimal.value
    cases hnx : x.negative <;> cases hny : y.negative <;> simp_all <;> omega
  · rw [SimpleParams.sub_of_le (Nat.le_of_lt hlt) (Nat.le_of_lt hly)]
    refine ⟨show y.data - x.data < 10 ^ s.total by omega, ?_⟩
    unfold SimpleDecimal.value
    cases hnx : x.negative <;> cases hny : y.negative <;> simp_all <;> omega
  · rw [SimpleParams.sub_of_le (Nat.not_lt.mp hge) (Nat.le_of_lt hlx)]
    refine ⟨show x.data - y.data < 10 ^ s.total by omega, ?_⟩
    unfold SimpleDecimal.value
    cases hnx : x.negative <;> cases hny : y.negative <;> simp_all <;> omega

/-! ## 掛け算と割り算 -/

theorem muldiv_spec {a b d : Nat} (hd : d ≠ 0) :
    ((DecimalHelper.muldiv a b d).1 = true ∧ 2 ^ 64 ≤ a * b / d) ∨
      DecimalHelper.muldiv a b d = (false, a * b / d, a * b % d) := by
  unfold DecimalHelper.muldiv
  dsimp only
  split
  · next hge =>
    refine Or.inl ⟨decide_eq_true hd, ?_⟩
    rw [ge_iff_le, Nat.le_div_iff_mul_le (by decide)] at hge
    rw [Nat.le_div_iff_mul_le (Nat.pos_of_ne_zero hd), Nat.mul_comm]
    exact hge
  · exact Or.inr rfl

theorem increment_spec (hx : x.Valid s) (hy : y.Valid s) {q : Nat} {negative : Bool} (up : Prop)
    [Decidable up] (hq : ¬ q ≥ s.maxValue) :
    Returns (if up then
        if (q + 1) % 2 ^ 64 = s.maxValue then throwOverflow s x y
        else pure ⟨negative, s.base.cast ((q + 1) % 2 ^ 64)⟩
      else pure ⟨negative, s.base.cast q⟩ : Except Fault SimpleDecimal)
      (fun d => d.Valid s ∧ d.data = q + (if up then 1 else 0) ∧ d.negative = negative)
      fun e => e = printFault s.toRanks x.value y.value ∧ 10 ^ s.total ≤ q + if up then 1 else 0 := by
  have hmax : s.maxValue = 10 ^ s.total := rfl
  have hcalc := SimpleParams.pow_lt_calc (s := s)
  have hmod := SimpleParams.pow_lt_modulus (Nat.le_refl s.total)
  rw [Nat.mod_eq_of_lt (show q + 1 < 2 ^ 64 by omega), throwOverflow_eq hx hy]
  refine Returns.ite (fun hup => ?_) (fun hup => Returns.pure ?_)
  · rw [if_pos hup]
    refine Returns.ite (fun hover => ⟨rfl, by omega⟩) (fun hok => Returns.pure ?_)
    rw [Element.cast_of_lt (by omega)]
    exact ⟨show q + 1 < 10 ^ s.total by omega, rfl, rfl⟩
  · rw [if_neg hup, Element.cast_of_lt (by omega)]
    exact ⟨show q < 10 ^ s.total by omega, rfl, rfl⟩

variable {p : Params}

theorem exactProduct_eq {dmr : DecimalMulRemainder} {X : Nat} :
    exactProduct p dmr X = X / 10 ^ p.fraction + if dmr ≠ .floor ∧ p.fraction ≠ 0 ∧
      (if dmr = .round then X % 10 ^ p.fraction ≥ 10 ^ p.fraction / 2 else X % 10 ^ p.fraction ≠ 0) then 1 else 0 := by
  cases dmr with
  | floor =>
      rw [if_neg fun h => h.1 rfl]
      rfl
  | round =>
      rw [exactProduct_round, mulResult]
      congr 1
      refine if_congr ?_ rfl rfl
      rw [if_pos rfl]
      exact ⟨fun h => ⟨by decide, h⟩, fun h => h.2⟩
  | ceil =>
      rw [exactProduct_ceil]
      congr 1
      by_cases h0 : X % 10 ^ p.fraction = 0
      · rw [if_pos h0, if_neg fun h => ?_]
        rw [if_neg (by decide)] at h
        exact h.2.2 h0
      · have hF : p.fraction ≠ 0 := fun hF => by
          rw [hF, Nat.pow_zero] at h0
          omega
        rw [if_neg h0, if_pos ⟨by decide, hF, h0⟩]

theorem muldiv_increment_spec (hx : x.Valid s) (hy : y.Valid s) {a b d : Nat} {negative : Bool}
    (hd : d ≠ 0) (up : Nat → Prop) [DecidablePred up] :
    Returns (let (overflow, q, rem) := DecimalHelper.muldiv a b d
      if overflow ∨ q ≥ s.maxValue then throwOverflow s x y
      else if up rem then
        if (q + 1) % 2 ^ 64 = s.maxValue then throwOverflow s x y
        else pure ⟨negative, s.base.cast ((q + 1) % 2 ^ 64)⟩
      else pure ⟨negative, s.base.cast q⟩ : Except Fault SimpleDecimal)
      (fun r => r.Valid s ∧ r.data = a * b / d + (if up (a * b % d) then 1 else 0) ∧ r.negative = negative)
      fun e => e = printFault s.toRanks x.value y.value ∧ 10 ^ s.total ≤ a * b / d + if up (a * b % d) then 1 else 0 := by
  have hmax : s.maxValue = 10 ^ s.total := rfl
  have hcalc := SimpleParams.pow_lt_calc (s := s)
  rcases muldiv_spec (a := a) (b := b) hd with ⟨hover, hle⟩ | heq
  · generalize DecimalHelper.muldiv a b d = r at hover
    obtain ⟨overflow, q, rem⟩ := r
    dsimp only at hover ⊢
    rw [if_pos (Or.inl hover), throwOverflow_eq hx hy]
    exact ⟨rfl, by omega⟩
  · rw [heq]
    dsimp only
    refine Returns.ite (fun hbig => ?_) (fun hsmall => ?_)
    · rw [throwOverflow_eq hx hy]
      rcases hbig with h | h
      · exact absurd h (by decide)
      · exact ⟨rfl, by omega⟩
    · exact increment_spec hx hy _ fun h => hsmall (Or.inr h)

theorem SimpleDecimal.mul_spec (hr : s.toRanks = p.toRanks) (hx : x.Valid s) (hy : y.Valid s)
    (dmr : DecimalMulRemainder) : Returns (x.mul s y dmr)
      (fun d => d.Valid s ∧ d.data = exactProduct p dmr (x.data * y.data) ∧ d.negative = (x.negative != y.negative))
      fun e => e = printFault s.toRanks x.value y.value ∧ 10 ^ s.total ≤ exactProduct p dmr (x.data * y.data) := by
  have hF : p.fraction = s.fraction := (congrArg Ranks.fraction hr).symm
  have hpos : 10 ^ s.fraction ≠ 0 := Nat.ne_of_gt (Nat.pow_pos (by decide))
  rw [exactProduct_eq, hF]
  exact muldiv_increment_spec hx hy hpos fun rem =>
    dmr ≠ .floor ∧ s.fraction ≠ 0 ∧ (if dmr = .round then rem ≥ s.maxFraction / 2 else rem ≠ 0)

theorem exactQuotient_eq {ddr : DecimalDivRemainder} {a b : Nat} (hb : 0 < b) : exactQuotient p ddr a b =
    a * 10 ^ p.fraction / b + if ddr = .ceil ∧ a * 10 ^ p.fraction % b ≠ 0 then 1 else 0 := by
  cases ddr with
  | floor =>
      rw [if_neg fun h => absurd h.1 (by decide)]
      rfl
  | ceil =>
      rw [exactQuotient_ceil hb]
      congr 1
      by_cases h0 : a * 10 ^ p.fraction % b = 0
      · rw [if_pos h0, if_neg fun h => h.2 h0]
      · rw [if_neg h0, if_pos ⟨rfl, h0⟩]

theorem SimpleDecimal.div_spec (hr : s.toRanks = p.toRanks) (hx : x.Valid s) (hy : y.Valid s)
    (hz : y.data ≠ 0) (ddr : DecimalDivRemainder) :
    Returns (x.div s y ddr)
      (fun d => d.Valid s ∧ d.data = exactQuotient p ddr x.data y.data ∧ d.negative = (x.negative != y.negative))
      fun e => e = printFault s.toRanks x.value y.value ∧ 10 ^ s.total ≤ exactQuotient p ddr x.data y.data := by
  have hF : p.fraction = s.fraction := (congrArg Ranks.fraction hr).symm
  rw [exactQuotient_eq (Nat.pos_of_ne_zero hz), hF]
  unfold SimpleDecimal.div
  rw [if_neg hz]
  exact muldiv_increment_spec hx hy hz fun rem => ddr = .ceil ∧ rem ≠ 0

/-! ## 端数の切り捨てと切り上げ -/

theorem SimpleParams.pow10_eq (h : n ≤ s.total) : DecimalHelper.pow10 s.base n = 10 ^ n := by
  have := SimpleParams.pow_lt_modulus h
  exact Element.cast_of_lt (by omega)

theorem SimpleDecimal.floor_spec (hx : x.Valid s) (n : Nat) : (x.floor s n).Valid s ∧
    (x.floor s n).data = x.data / 10 ^ (s.fraction - n) * 10 ^ (s.fraction - n) ∧ (x.floor s n).negative = x.negative := by
  have hlt : x.data < 10 ^ s.total := hx
  have hle := Nat.div_mul_le_self x.data (10 ^ (s.fraction - n))
  have hmod := SimpleParams.pow_lt_modulus (Nat.le_refl s.total)
  unfold SimpleDecimal.floor
  split
  · next hn =>
    rw [show s.fraction - n = 0 by omega, Nat.pow_zero, Nat.div_one, Nat.mul_one]
    exact ⟨hx, rfl, rfl⟩
  · dsimp only
    rw [SimpleParams.pow10_eq (Nat.le_trans (Nat.sub_le _ _) s.fraction_le)]
    split
    · rw [Element.cast_of_lt (by omega)]
      exact ⟨Nat.lt_of_le_of_lt hle hlt, rfl, rfl⟩
    · next hz =>
      have hdm := Nat.div_add_mod x.data (10 ^ (s.fraction - n))
      rw [Nat.mul_comm] at hdm
      exact ⟨hx, by omega, rfl⟩

theorem SimpleDecimal.ceil_spec (hx : x.Valid s) (n : Nat) :
    Returns (x.ceil s n)
      (fun d => d.Valid s ∧ d.data = ceilMagnitude (s.fraction - n) x.data ∧ d.negative = x.negative)
      fun e => e = printFault s.toRanks x.value x.value ∧ 10 ^ s.total ≤ ceilMagnitude (s.fraction - n) x.data := by
  have hlt : x.data < 10 ^ s.total := hx
  have hmod := SimpleParams.pow_lt_modulus (Nat.le_refl s.total)
  have hmax : s.maxValue = 10 ^ s.total := rfl
  have hk : s.fraction - n ≤ s.total := Nat.le_trans (Nat.sub_le _ _) s.fraction_le
  unfold SimpleDecimal.ceil
  refine Returns.ite (fun hn => Returns.pure ?_) (fun hn => ?_)
  · rw [show s.fraction - n = 0 by omega, ceilMagnitude, Nat.pow_zero, Nat.div_one, Nat.mul_one, Nat.add_sub_cancel]
    exact ⟨hx, rfl, rfl⟩
  · dsimp only
    rw [SimpleParams.pow10_eq hk, ceilMagnitude_eq]
    refine Returns.ite (fun hne => ?_) (fun hz => Returns.pure ?_)
    · rw [if_neg hne]
      -- 切り上げた値は、`10 ^ TOTAL` を超えない。
      have hle : (x.data / 10 ^ (s.fraction - n) + 1) * 10 ^ (s.fraction - n) ≤ 10 ^ s.total := by
        have hsplit : 10 ^ (s.fraction - n) * 10 ^ (s.total - (s.fraction - n)) = 10 ^ s.total := by
          rw [← Nat.pow_add]
          congr 1
          omega
        rw [← hsplit, Nat.mul_comm]
        refine Nat.mul_le_mul_left _ (Nat.div_lt_of_lt_mul ?_)
        rw [hsplit]
        exact hlt
      rw [Element.cast_of_lt (by omega)]
      refine Returns.ite (fun hover => ?_) (fun hok => Returns.pure ⟨?_, rfl, rfl⟩)
      · rw [SimpleDecimal.str_eq hx]
        unfold printFault
        by_cases hp : Printable s.toRanks x.value
        · rw [if_pos hp, if_pos ⟨hp, hp⟩]
          exact ⟨rfl, by omega⟩
        · have hno : ¬ (Printable s.toRanks x.value ∧ Printable s.toRanks x.value) := fun h => hp h.1
          rw [if_neg hp, if_neg hno]
          exact ⟨rfl, by omega⟩
      · exact Nat.lt_of_le_of_ne hle hok
    · have hdm := Nat.div_add_mod x.data (10 ^ (s.fraction - n))
      rw [Nat.mul_comm] at hdm
      rw [if_pos (by omega), Nat.add_zero]
      exact ⟨hx, by omega, rfl⟩

end UnixCommons.Generics
