import Mathlib.Algebra.Order.Ring.Int
import Mathlib.Tactic.Positivity
import UnixCommons.Lib.Numeral
import UnixCommons.String.AsciiStringManip
import UnixCommons.String.IntText
import UnixCommons.Lib.Spec

/-! # 整数の文字列の補題 -/

/-! ## 整数の読み取りの補題 -/

namespace UnixCommons.String.StrToInt

open Lib AsciiStringManip

variable {T : IntegerType} {str : Bytes} {value w : Int}

def decimalFrom (value : Int) (str : Bytes) : Int := str.foldl (fun v ch => v * 10 + digit ch) value

theorem le_decimalFrom (str : Bytes) (h : 0 ≤ value) : value ≤ decimalFrom value str := by
  induction str generalizing value with
  | nil => exact Int.le_refl _
  | cons ch str ih =>
      have hstep : value ≤ value * 10 + digit ch := by omega
      exact Int.le_trans hstep (ih (by omega))

theorem fits_iff {d : Nat} (hd : d ≤ 9) :
    ¬ (value > T.limit ∨ (value = T.limit ∧ (d : Int) > (T.max - T.limit * 10) % 256)) ↔ value * 10 + d ≤ T.max := by
  unfold IntegerType.limit
  omega

theorem positiveLoop_iff (h : 0 ≤ value) (hle : value ≤ T.max) :
    positiveLoop T str value = (true, w) ↔ (∀ ch ∈ str, digit ch ≤ 9) ∧ w = decimalFrom value str ∧ w ≤ T.max := by
  induction str generalizing value with
  | nil =>
      rw [positiveLoop, Prod.mk.injEq]
      constructor
      · rintro ⟨-, rfl⟩
        exact ⟨by simp, rfl, hle⟩
      · rintro ⟨-, rfl, -⟩
        exact ⟨rfl, rfl⟩
  | cons ch str ih =>
      rw [positiveLoop, List.forall_mem_cons]
      by_cases hd : digit ch ≤ 9
      · have hiff : _ ↔ value * 10 + digit ch ≤ T.max := fits_iff hd
        split
        next hbad =>
            refine iff_of_false (by simp) ?_
            rintro ⟨-, rfl, hw⟩
            have hlt := (hiff.mpr (Int.le_trans (le_decimalFrom str (by omega)) hw))
            rcases hbad with h₁ | h₁
            · omega
            · exact hlt h₁
        next hgood =>
            have hfit : value * 10 + digit ch ≤ T.max := hiff.mp fun h₁ => hgood (.inr h₁)
            rw [ih (by omega) hfit]
            exact ⟨fun h₁ => ⟨⟨hd, h₁.1⟩, h₁.2⟩, fun h₁ => ⟨h₁.1.2, h₁.2⟩⟩
      · rw [if_pos (.inl (by omega))]
        exact iff_of_false (by simp) fun h₁ => hd h₁.1.1

theorem fits_below_iff {d : Nat} (hd : d ≤ 9) (hmin : T.min = -T.max - 1) (hlast : T.max % 10 ≠ 9) :
    ¬ (value < -T.limit ∨ (value = -T.limit ∧ (d : Int) > (-(T.min + T.limit * 10)) % 256)) ↔ T.min ≤ value * 10 - d := by
  unfold IntegerType.limit
  omega

theorem negativeLoop_iff (hmin : T.min = -T.max - 1) (hlast : T.max % 10 ≠ 9) (h : value ≤ 0) (hle : T.min ≤ value) :
    negativeLoop T str value = (true, w) ↔ (∀ ch ∈ str, digit ch ≤ 9) ∧ w = -decimalFrom (-value) str ∧ T.min ≤ w := by
  induction str generalizing value with
  | nil =>
      rw [negativeLoop, Prod.mk.injEq]
      constructor
      · rintro ⟨-, rfl⟩
        exact ⟨by simp, (Int.neg_neg value).symm, hle⟩
      · rintro ⟨-, rfl, -⟩
        exact ⟨rfl, (Int.neg_neg value).symm⟩
  | cons ch str ih =>
      have hnext : decimalFrom (-value) (ch :: str) = decimalFrom (-(value * 10 - digit ch)) str := by
        show decimalFrom (-value * 10 + digit ch) str = _
        congr 1
        omega
      rw [negativeLoop, List.forall_mem_cons, hnext]
      by_cases hd : digit ch ≤ 9
      · have hiff : _ ↔ T.min ≤ value * 10 - digit ch := fits_below_iff hd hmin hlast
        split
        next hbad =>
            refine iff_of_false (by simp) ?_
            rintro ⟨-, rfl, hw⟩
            have hgrow : -(value * 10 - digit ch) ≤ decimalFrom (-(value * 10 - digit ch)) str :=
              le_decimalFrom str (by omega)
            rcases hbad with h₁ | h₁
            · omega
            · exact hiff.mpr (by omega) h₁
        next hgood =>
            have hfit : T.min ≤ value * 10 - digit ch := hiff.mp fun h₁ => hgood (.inr h₁)
            rw [ih (by omega) hfit]
            exact ⟨fun h₁ => ⟨⟨hd, h₁.1⟩, h₁.2⟩, fun h₁ => ⟨h₁.1.2, h₁.2⟩⟩
      · rw [if_pos (.inl (by omega))]
        exact iff_of_false (by simp) fun h₁ => hd h₁.1.1

theorem strToInt_iff (hmax : 0 ≤ T.max) (hne : str ≠ []) (hdigits : ∀ ch ∈ str, digit ch ≤ 9) :
    strToInt T str value = (true, w) ↔ w = decimalFrom 0 str ∧ w ≤ T.max := by
  obtain ⟨ch, src, rfl⟩ := List.exists_cons_of_ne_nil hne
  have hch := hdigits ch List.mem_cons_self
  have hsign : ch ≠ 0x2D ∧ ch ≠ 0x2B := by
    constructor
    · rintro rfl
      exact absurd hch (by decide)
    · rintro rfl
      exact absurd hch (by decide)
  rw [strToInt, if_neg (fun h => hsign.1 h.1), if_neg (by simp [hsign]), positiveLoop_iff (Int.le_refl 0) hmax]
  exact ⟨fun h => h.2, fun h => ⟨hdigits, h⟩⟩

theorem digit_digitChar {d : Nat} (h : d < 10) : digit (ascii (digitChar d)) = d := by
  revert d
  decide

theorem digit_numeral (x n : Nat) : ∀ ch ∈ (numeral x n).map ascii, digit ch ≤ 9 := by
  induction n generalizing x with
  | zero => simp
  | succ n ih =>
      intro ch hch
      rw [numeral_succ, List.map_append, List.mem_append] at hch
      rcases hch with hch | hch
      · exact ih _ ch hch
      · rw [List.map_singleton, List.mem_singleton] at hch
        rw [hch, digit_digitChar (Nat.mod_lt _ (by decide))]
        omega

theorem decimalFrom_numeral (x n : Nat) : decimalFrom 0 ((numeral x n).map ascii) = (x % 10 ^ n : Nat) := by
  induction n generalizing x with
  | zero =>
      rw [Nat.pow_zero, Nat.mod_one]
      rfl
  | succ n ih =>
      have hsplit : x % 10 ^ (n + 1) = x / 10 % 10 ^ n * 10 + x % 10 := by
        rw [Nat.pow_succ', Nat.mod_mul]
        omega
      rw [numeral_succ, List.map_append, List.map_singleton, decimalFrom, List.foldl_append]
      show decimalFrom 0 ((numeral (x / 10) n).map ascii) * 10 + (digit (ascii (digitChar (x % 10))) : Int) = _
      rw [ih, digit_digitChar (Nat.mod_lt _ (by decide)), hsplit]
      omega

theorem decimalFrom_natText (x : Nat) : decimalFrom 0 ((natText x).map ascii) = x := by
  have hlt : x < 10 ^ max 1 (width x) := width_le_iff.mp (Nat.le_max_right _ _)
  rw [natText, decimalFrom_numeral, Nat.mod_eq_of_lt hlt]

end UnixCommons.String.StrToInt

/-! ## 整数の文字列の補題 -/

namespace UnixCommons.String.IntText

open Lib AsciiStringManip StrToInt

variable {B : BinaryType} {str src : Bytes} {value w x : Int} {d n k i j ptr : Nat} {memory : Memory}

theorem checked_of_fits (h : B.min ≤ x ∧ x ≤ B.max) : checked B x = .ok x := if_pos h

theorem BinaryType.bounds (B : BinaryType) :
    B.max = 2 ^ B.digits - 1 ∧ (B.min = -2 ^ B.digits ∨ B.min = 0) ∧ (B.isSigned = true ↔ B.min ≠ 0) ∧
      ((B.digits = 1 ∧ B.isSigned = false ∧ (2 : Int) ^ B.digits = 2) ∨ (B.digits ≠ 1 ∧ (128 : Int) ≤ 2 ^ B.digits)) := by
  have hpos : (0 : Int) < 2 ^ B.digits := by positivity
  refine ⟨rfl, ?_, ?_, ?_⟩
  · unfold BinaryType.min BinaryType.limits
    split_ifs
    · exact .inl rfl
    · exact .inr rfl
  · unfold BinaryType.min BinaryType.limits
    split_ifs with h <;> simp [h]
  · rcases B.valid with h | ⟨h, hs⟩
    · have hle : (2 : Int) ^ 7 ≤ 2 ^ B.digits := pow_le_pow_right₀ (by decide) h
      exact .inr ⟨by omega, hle⟩
    · exact .inl ⟨h, hs, by rw [h]; rfl⟩

theorem BinaryType.promoted_bounds (B : BinaryType) : B.promoted.min ≤ B.min ∧ B.max ≤ B.promoted.max := by
  unfold BinaryType.promoted
  split_ifs with h
  · have hle : (2 : Int) ^ B.digits ≤ 2 ^ 31 := pow_le_pow_right₀ (by decide) h
    obtain ⟨hmax, hmin, -, -⟩ := B.bounds
    have hpos : (0 : Int) < 2 ^ B.digits := by positivity
    rw [hmax]
    have hint : BinaryType.int.min = -2 ^ 31 ∧ BinaryType.int.max = 2 ^ 31 - 1 := ⟨rfl, rfl⟩
    rw [hint.1, hint.2]
    rcases hmin with hmin | hmin <;> rw [hmin] <;> constructor <;> omega
  · exact ⟨Int.le_refl _, Int.le_refl _⟩

theorem checked_promoted (h : B.min ≤ x ∧ x ≤ B.max) : checked B.promoted x = .ok x := by
  obtain ⟨hmin, hmax⟩ := B.promoted_bounds
  exact checked_of_fits ⟨Int.le_trans hmin h.1, Int.le_trans h.2 hmax⟩

theorem BinaryType.limit_eq (B : BinaryType) : B.limit = B.max / 10 := rfl

theorem BinaryType.max_mod (B : BinaryType) : B.limits.max % 10 ≠ 9 := by
  have hmod : ∀ d : Nat, (2 : Int) ^ d % 5 ≠ 0 := by
    intro d
    induction d with
    | zero => decide
    | succ d ih =>
        rw [pow_succ]
        omega
  have := hmod B.digits
  show (2 ^ B.digits - 1 : Int) % 10 ≠ 9
  omega

theorem BinaryType.cast_of_le (B : BinaryType) (h : (d : Int) ≤ B.max) : B.cast d = d := by
  obtain ⟨hmax, -, -, hsize⟩ := B.bounds
  unfold BinaryType.cast
  split_ifs with h1 h0
  · simp [h0]
  · have : (d : Int) ≤ 1 := by
      rcases hsize with ⟨-, -, hpow⟩ | ⟨hne, -⟩
      · omega
      · exact absurd h1 hne
    omega
  · rfl

theorem BinaryType.mul_cast (B : BinaryType) (h : -B.limit ≤ value ∧ value ≤ B.limit) : value * B.cast 10 = value * 10 := by
  obtain ⟨hmax, -, -, hsize⟩ := B.bounds
  rw [B.limit_eq] at h
  rcases hsize with ⟨-, -, hpow⟩ | ⟨-, hpow⟩
  · obtain rfl : value = 0 := by omega
    simp
  · rw [B.cast_of_le (d := 10) (by omega)]
    rfl

theorem guard_eq {p q r s : Prop} [Decidable p] [Decidable q] [Decidable r] [Decidable s] :
    (if p then pure true else if q then pure true else if r then pure (decide s) else pure false : Except Fault Bool) =
      .ok (decide (p ∨ q ∨ (r ∧ s))) := by
  split_ifs with hp hq hr
  · rw [decide_eq_true (.inl hp)]
    rfl
  · rw [decide_eq_true (.inr (.inl hq))]
    rfl
  · simp only [hp, hq, hr, false_or, true_and]
    rfl
  · simp only [hp, hq, hr, false_or, false_and, decide_false]
    rfl

theorem positiveGuard_eq (value : Int) (ch : Nat) :
    positiveGuard B value ch =
      .ok (decide (ch > 9 ∨ value > B.limit ∨ (value = B.limit ∧ (ch : Int) > (B.max - B.limit * 10) % 256))) := by
  obtain ⟨hmax, hmin, -, hsize⟩ := B.bounds
  have hlimit := B.limit_eq
  have htens : checked B.promoted (B.limit * 10) = .ok (B.limit * 10) := checked_promoted (by omega)
  have hlast : checked B.promoted (B.max - B.limit * 10) = .ok (B.max - B.limit * 10) := checked_promoted (by omega)
  rw [positiveGuard, htens, ok_bind, hlast, ok_bind]
  exact guard_eq

theorem negativeGuard_eq (hsigned : B.isSigned = true) (value : Int) (ch : Nat) :
    negativeGuard B value ch =
      .ok (decide (ch > 9 ∨ value < -B.limit ∨ (value = -B.limit ∧ (ch : Int) > (-(B.min + B.limit * 10)) % 256))) := by
  obtain ⟨hmax, hmin, hsign, hsize⟩ := B.bounds
  have hne := hsign.mp hsigned
  have hlimit := B.limit_eq
  have hlow : checked B.promoted (-B.limit) = .ok (-B.limit) := checked_promoted (by omega)
  have htens : checked B.promoted (B.limit * 10) = .ok (B.limit * 10) := checked_promoted (by omega)
  have hrest : checked B.promoted (B.min + B.limit * 10) = .ok (B.min + B.limit * 10) := checked_promoted (by omega)
  have hlast : checked B.promoted (-(B.min + B.limit * 10)) = .ok (-(B.min + B.limit * 10)) := by
    rcases hsize with ⟨-, hunsigned, -⟩ | ⟨-, hpow⟩
    · rw [hsigned] at hunsigned
      cases hunsigned
    · exact checked_promoted (by omega)
  rw [negativeGuard, hlow, ok_bind, htens, ok_bind, hrest, ok_bind, hlast, ok_bind]
  exact guard_eq

theorem positiveLoop_eq (h : 0 ≤ value ∧ value ≤ B.max) : positiveLoop B src value = .ok
    (StrToInt.positiveLoop B.limits src value) := by
  obtain ⟨hmax, hmin, -, hsize⟩ := B.bounds
  have hlimit := B.limit_eq
  induction src generalizing value with
  | nil => rfl
  | cons ch src ih =>
      have hguard : ∀ d : Nat, d ≤ 9 → (¬ (value > B.limit ∨ (value = B.limit ∧ (d : Int) > (B.max - B.limit * 10) % 256)) ↔
          value * 10 + d ≤ B.max) := fun d hd => fits_iff (T := B.limits) hd
      rw [positiveLoop, positiveGuard_eq, ok_bind, StrToInt.positiveLoop]
      by_cases hbad : digit ch > 9 ∨ value > B.limit ∨ (value = B.limit ∧ (digit ch : Int) > (B.max - B.limit * 10) % 256)
      · rw [decide_eq_true hbad, if_pos rfl]
        exact congrArg Except.ok (if_pos hbad).symm
      · rw [not_or] at hbad
        have hd : digit ch ≤ 9 := Nat.not_lt.mp hbad.1
        have hfit : value * 10 + digit ch ≤ B.max := (hguard _ hd).mp hbad.2
        have hproduct : value * B.cast 10 = value * 10 := B.mul_cast (by rw [not_or] at hbad; omega)
        have hdigit : B.cast (digit ch) = digit ch := B.cast_of_le (by omega)
        have hnext := @ih (value * 10 + digit ch) (by omega)
        rw [decide_eq_false (not_or.mpr hbad), if_neg (by decide), hproduct, checked_promoted (by omega), ok_bind, hdigit,
          checked_promoted (by omega), ok_bind, checked_of_fits (by omega), ok_bind, hnext]
        exact congrArg Except.ok (if_neg (not_or.mpr hbad)).symm

theorem negativeLoop_eq (hsigned : B.isSigned = true) (h : B.min ≤ value ∧ value ≤ 0) :
    negativeLoop B src value = .ok (StrToInt.negativeLoop B.limits src value) := by
  obtain ⟨hmax, hmin, hsign, hsize⟩ := B.bounds
  have hne := hsign.mp hsigned
  have hlimit := B.limit_eq
  have hmin' : B.min = -B.max - 1 := by omega
  induction src generalizing value with
  | nil => rfl
  | cons ch src ih =>
      have hguard : ∀ d : Nat, d ≤ 9 →
          (¬ (value < -B.limit ∨ (value = -B.limit ∧ (d : Int) > (-(B.min + B.limit * 10)) % 256)) ↔
          B.min ≤ value * 10 - d) := fun d hd => fits_below_iff (T := B.limits) hd hmin' B.max_mod
      rw [negativeLoop, negativeGuard_eq hsigned, ok_bind, StrToInt.negativeLoop]
      by_cases hbad : digit ch > 9 ∨ value < -B.limit ∨
        (value = -B.limit ∧ (digit ch : Int) > (-(B.min + B.limit * 10)) % 256)
      · rw [decide_eq_true hbad, if_pos rfl]
        exact congrArg Except.ok (if_pos hbad).symm
      · rw [not_or] at hbad
        have hd : digit ch ≤ 9 := Nat.not_lt.mp hbad.1
        have hfit : B.min ≤ value * 10 - digit ch := (hguard _ hd).mp hbad.2
        have hbits : (digit ch : Int) ≤ B.max := by
          rcases hsize with ⟨-, hunsigned, -⟩ | ⟨-, hpow⟩
          · rw [hsigned] at hunsigned
            cases hunsigned
          · omega
        have hproduct : value * B.cast 10 = value * 10 := B.mul_cast (by rw [not_or] at hbad; omega)
        have hdigit : B.cast (digit ch) = digit ch := B.cast_of_le hbits
        have hnext := @ih (value * 10 - digit ch) (by omega)
        rw [decide_eq_false (not_or.mpr hbad), if_neg (by decide), hproduct, checked_promoted (by omega), ok_bind, hdigit,
          checked_promoted (by omega), ok_bind, checked_of_fits (by omega), ok_bind, hnext]
        exact congrArg Except.ok (if_neg (not_or.mpr hbad)).symm

theorem strToInt_eq (B : BinaryType) (str : Bytes) (value : Int) : strToInt B str value = .ok
    (StrToInt.strToInt B.limits str value) := by
  obtain ⟨hmax, hmin, -, hsize⟩ := B.bounds
  have hsigned : B.limits.isSigned = B.isSigned := rfl
  have hzero : 0 ≤ (0 : Int) ∧ (0 : Int) ≤ B.max := by omega
  unfold strToInt StrToInt.strToInt
  rw [hsigned]
  cases str with
  | nil => rfl
  | cons ch src =>
      dsimp only
      by_cases h₁ : ch = 0x2D ∧ ¬ B.isSigned = true
      · rw [if_pos h₁, if_pos h₁]
        rfl
      · rw [if_neg h₁, if_neg h₁]
        by_cases h₂ : ch = 0x2D ∨ ch = 0x2B
        · rw [if_pos h₂, if_pos h₂]
          by_cases h₃ : src = []
          · rw [if_pos h₃, if_pos h₃]
            rfl
          · rw [if_neg h₃, if_neg h₃]
            by_cases h₄ : ch = 0x2D
            · rw [if_pos h₄, if_pos h₄]
              exact negativeLoop_eq (by simpa [h₄] using h₁) (by omega)
            · rw [if_neg h₄, if_neg h₄, positiveLoop_eq hzero]
        · rw [if_neg h₂, if_neg h₂, positiveLoop_eq hzero]

def IsDigit (ch : UInt8) : Prop := 0x30 ≤ ch.toNat ∧ ch.toNat ≤ 0x39

instance (ch : UInt8) : Decidable (IsDigit ch) := inferInstanceAs (Decidable (_ ∧ _))

def Denotes (isSigned : Bool) (s : Bytes) (n : Int) : Prop :=
  ∃ digits : Bytes, digits ≠ [] ∧ (∀ ch ∈ digits, IsDigit ch) ∧
    ((s = digits ∧ n = decimalFrom 0 digits) ∨ (s = 0x2B :: digits ∧ n = decimalFrom 0 digits) ∨
      (isSigned = true ∧ s = 0x2D :: digits ∧ n = -decimalFrom 0 digits))

theorem digit_le_iff (ch : UInt8) : digit ch ≤ 9 ↔ IsDigit ch :=
  forall_uint8 (P := fun ch => digit ch ≤ 9 ↔ IsDigit ch) (by decide +kernel) ch

theorem digits_iff : (∀ ch ∈ str, digit ch ≤ 9) ↔ ∀ ch ∈ str, IsDigit ch := forall₂_congr fun ch _ => digit_le_iff ch

theorem positiveLoop_denotes : StrToInt.positiveLoop B.limits str 0 = (true, w) ↔
    (∀ ch ∈ str, IsDigit ch) ∧ w = decimalFrom 0 str ∧ B.min ≤ w ∧ w ≤ B.max := by
  obtain ⟨hmax, hmin, -, hsize⟩ := B.bounds
  have hzero : (0 : Int) ≤ B.limits.max := by
    change (0 : Int) ≤ B.max
    omega
  rw [positiveLoop_iff (Int.le_refl 0) hzero, digits_iff]
  refine and_congr_right fun _ => and_congr_right fun hw => ?_
  have hge : 0 ≤ w := by
    rw [hw]
    exact le_decimalFrom str (Int.le_refl 0)
  exact ⟨fun h => ⟨by omega, h⟩, fun h => h.2⟩

theorem negativeLoop_denotes (hsigned : B.isSigned = true) : StrToInt.negativeLoop B.limits str 0 = (true, w) ↔
    (∀ ch ∈ str, IsDigit ch) ∧ w = -decimalFrom 0 str ∧ B.min ≤ w ∧ w ≤ B.max := by
  obtain ⟨hmax, hmin, hsign, hsize⟩ := B.bounds
  have hne := hsign.mp hsigned
  have hmin' : B.limits.min = -B.limits.max - 1 := by
    change B.min = -B.max - 1
    omega
  have hzero : B.limits.min ≤ 0 := by
    change B.min ≤ 0
    omega
  rw [negativeLoop_iff hmin' B.max_mod (Int.le_refl 0) hzero, digits_iff, Int.neg_zero]
  refine and_congr_right fun _ => and_congr_right fun hw => ?_
  have hle : w ≤ 0 := by
    have := le_decimalFrom str (Int.le_refl 0)
    omega
  exact ⟨fun h => ⟨h, by omega⟩, fun h => h.1⟩

theorem not_isDigit_sign : ¬ IsDigit 0x2D ∧ ¬ IsDigit 0x2B := by decide

theorem not_denotes_nil {isSigned : Bool} : ¬ Denotes isSigned [] w := by
  rintro ⟨digits, hne, -, h | h | h⟩
  · exact hne h.1.symm
  · exact List.cons_ne_nil _ _ h.1.symm
  · exact List.cons_ne_nil _ _ h.2.1.symm

theorem denotes_minus {isSigned : Bool} :
    Denotes isSigned (0x2D :: src) w ↔ isSigned = true ∧ src ≠ [] ∧ (∀ ch ∈ src, IsDigit ch) ∧ w = -decimalFrom 0 src := by
  constructor
  · rintro ⟨digits, hne, hdigits, ⟨rfl, -⟩ | ⟨h, -⟩ | ⟨hs, h, hw⟩⟩
    · exact absurd (hdigits _ List.mem_cons_self) not_isDigit_sign.1
    · cases h
    · obtain ⟨-, rfl⟩ := List.cons.inj h
      exact ⟨hs, hne, hdigits, hw⟩
  · rintro ⟨hs, hne, hdigits, hw⟩
    exact ⟨src, hne, hdigits, .inr (.inr ⟨hs, rfl, hw⟩)⟩

theorem denotes_plus {isSigned : Bool} :
    Denotes isSigned (0x2B :: src) w ↔ src ≠ [] ∧ (∀ ch ∈ src, IsDigit ch) ∧ w = decimalFrom 0 src := by
  constructor
  · rintro ⟨digits, hne, hdigits, ⟨rfl, -⟩ | ⟨h, hw⟩ | ⟨-, h, -⟩⟩
    · exact absurd (hdigits _ List.mem_cons_self) not_isDigit_sign.2
    · obtain ⟨-, rfl⟩ := List.cons.inj h
      exact ⟨hne, hdigits, hw⟩
    · cases h
  · rintro ⟨hne, hdigits, hw⟩
    exact ⟨src, hne, hdigits, .inr (.inl ⟨rfl, hw⟩)⟩

theorem denotes_digits {isSigned : Bool} {ch : UInt8} (hminus : ch ≠ 0x2D) (hplus : ch ≠ 0x2B) :
    Denotes isSigned (ch :: src) w ↔ (∀ c ∈ ch :: src, IsDigit c) ∧ w = decimalFrom 0 (ch :: src) := by
  constructor
  · rintro ⟨digits, hne, hdigits, ⟨rfl, hw⟩ | ⟨h, -⟩ | ⟨-, h, -⟩⟩
    · exact ⟨hdigits, hw⟩
    · exact absurd (List.cons.inj h).1 hplus
    · exact absurd (List.cons.inj h).1 hminus
  · rintro ⟨hdigits, hw⟩
    exact ⟨ch :: src, List.cons_ne_nil _ _, hdigits, .inl ⟨rfl, hw⟩⟩

theorem strToInt_denotes (B : BinaryType) (str : Bytes) (value w : Int) :
    StrToInt.strToInt B.limits str value = (true, w) ↔ Denotes B.isSigned str w ∧ B.min ≤ w ∧ w ≤ B.max := by
  have hsigned : B.limits.isSigned = B.isSigned := rfl
  cases str with
  | nil => exact iff_of_false (by simp [StrToInt.strToInt]) fun h => not_denotes_nil h.1
  | cons ch src =>
      rw [StrToInt.strToInt, hsigned]
      by_cases hminus : ch = 0x2D
      · subst hminus
        rw [denotes_minus]
        by_cases hs : B.isSigned = true
        · rw [if_neg (fun h => h.2 hs), if_pos (.inl rfl)]
          by_cases hnil : src = []
          · rw [if_pos hnil]
            exact iff_of_false (by simp) fun h => h.1.2.1 hnil
          · rw [if_neg hnil, if_pos rfl, negativeLoop_denotes hs]
            exact ⟨fun h => ⟨⟨hs, hnil, h.1, h.2.1⟩, h.2.2⟩, fun h => ⟨h.1.2.2.1, h.1.2.2.2, h.2⟩⟩
        · rw [if_pos ⟨rfl, hs⟩]
          exact iff_of_false (by simp) fun h => hs h.1.1
      · rw [if_neg (fun h => hminus h.1)]
        by_cases hplus : ch = 0x2B
        · subst hplus
          rw [denotes_plus, if_pos (.inr rfl)]
          by_cases hnil : src = []
          · rw [if_pos hnil]
            exact iff_of_false (by simp) fun h => h.1.1 hnil
          · rw [if_neg hnil, if_neg hminus, positiveLoop_denotes]
            exact ⟨fun h => ⟨⟨hnil, h.1, h.2.1⟩, h.2.2⟩, fun h => ⟨h.1.2.1, h.1.2.2, h.2⟩⟩
        · rw [if_neg (not_or.mpr ⟨hminus, hplus⟩), positiveLoop_denotes, denotes_digits hminus hplus, and_assoc]

def intText (x : Int) : Bytes := if x < 0 then 0x2D :: (natText x.natAbs).map ascii else (natText x.natAbs).map ascii

theorem natText_ne_nil (n : Nat) : natText n ≠ [] := by
  have hlen := length_natText (x := n)
  intro h
  rw [h, List.length_nil] at hlen
  omega

theorem isDigit_natText (n : Nat) : ∀ ch ∈ (natText n).map ascii, IsDigit ch :=
  fun ch hch => (digit_le_iff ch).mp (digit_numeral n _ ch hch)

theorem denotes_intText (B : BinaryType) (hmin : B.min ≤ x) : Denotes B.isSigned (intText x) x := by
  have hne : (natText x.natAbs).map ascii ≠ [] := by
    rw [Ne, List.map_eq_nil_iff]
    exact natText_ne_nil _
  unfold intText
  split_ifs with hneg
  · have hsigned : B.isSigned = true := B.bounds.2.2.1.mpr (by omega)
    rw [denotes_minus]
    refine ⟨hsigned, hne, isDigit_natText _, ?_⟩
    rw [decimalFrom_natText]
    omega
  · refine ⟨_, hne, isDigit_natText _, .inl ⟨rfl, ?_⟩⟩
    rw [decimalFrom_natText]
    omega

theorem natText_of_lt (h : n / 10 = 0) : natText n = [digitChar (n % 10)] := by
  have hwidth : width n ≤ 1 := width_le_iff.mpr (by omega)
  rw [natText, Nat.max_eq_left hwidth]
  rfl

theorem natText_of_ge (h : n / 10 ≠ 0) : natText n = natText (n / 10) ++ [digitChar (n % 10)] := by
  have hwidth := width_div (x := n)
  have hpos := width_pos h
  have hmax : Nat.max 1 (width n) = Nat.max 1 (width (n / 10)) + 1 := by
    simp only [Nat.max_def]
    split_ifs <;> omega
  rw [natText, natText, ← numeral_succ]
  exact congrArg (numeral n) hmax

theorem ascii_digitChar (n : Nat) : ascii (digitChar (n % 10)) = UInt8.ofNat (0x30 + n % 10) := by
  rw [ascii, digitChar_toNat (Nat.mod_lt n (by decide))]

theorem digitLoop_spec (value : Nat) (memory : Memory) (ptr : Nat) :
    (digitLoop value memory ptr).2 = ptr + (natText value).length ∧
      readBytes (digitLoop value memory ptr).1 ptr (natText value).length = ((natText value).map ascii).reverse ∧
      ∀ i, i < ptr ∨ ptr + (natText value).length ≤ i → (digitLoop value memory ptr).1 i = memory i := by
  induction value, memory, ptr using digitLoop.induct with
  | case1 value memory ptr hzero =>
      rw [digitLoop, if_pos hzero, natText_of_lt hzero]
      refine ⟨rfl, ?_, ?_⟩
      · rw [List.length_singleton, readBytes_succ, readBytes_zero, List.map_singleton, ascii_digitChar]
        exact congrArg ([·]) (Function.update_self _ _ _)
      · intro i hi
        rw [List.length_singleton] at hi
        exact Function.update_of_ne (by omega) _ _
  | case2 value memory ptr memory' hne ih =>
      obtain ⟨hptr, hread, hframe⟩ := ih
      rw [digitLoop, if_neg hne, natText_of_ge hne, List.length_append, List.length_singleton]
      refine ⟨by rw [hptr]; omega, ?_, ?_⟩
      · rw [readBytes_succ, hread, hframe ptr (.inl (Nat.lt_succ_self ptr)), List.map_append,
          List.reverse_append, List.map_singleton, ascii_digitChar]
        exact congrArg (· :: _) (Function.update_self _ _ _)
      · intro i hi
        rw [hframe i (by omega)]
        exact Function.update_of_ne (by omega) _ _

theorem swapLoop_apply (memory : Memory) (i j k : Nat) :
    swapLoop memory i j k = if i ≤ k ∧ k ≤ j then memory (i + j - k) else memory k := by
  induction memory, i, j using swapLoop.induct with
  | case1 memory i j hlt ih =>
      rw [swapLoop, if_pos hlt, ih, swap]
      by_cases hi : k = i
      · subst hi
        rw [if_neg (by omega), if_pos ⟨Nat.le_refl k, Nat.le_of_lt hlt⟩,
          Function.update_of_ne (by omega), Function.update_self, Nat.add_sub_cancel_left]
      · by_cases hj : k = j
        · subst hj
          rw [if_neg (by omega), if_pos ⟨Nat.le_of_lt hlt, Nat.le_refl k⟩, Function.update_self, Nat.add_sub_cancel]
        · by_cases hin : i ≤ k ∧ k ≤ j
          · rw [if_pos (by omega), if_pos hin, Function.update_of_ne (by omega), Function.update_of_ne (by omega)]
            congr 1
            omega
          · rw [if_neg (by omega), if_neg hin, Function.update_of_ne hj, Function.update_of_ne hi]
  | case2 memory i j hge =>
      rw [swapLoop, if_neg hge]
      split_ifs with hin
      · congr 1
        omega
      · rfl

theorem convertUnsigned_spec (value : Nat) (memory : Memory) (str : Nat) :
    (convertUnsigned value memory str).2 = (natText value).length ∧
      readBytes (convertUnsigned value memory str).1 str (natText value).length = (natText value).map ascii ∧
      (convertUnsigned value memory str).1 (str + (natText value).length) = 0 ∧
      ∀ i, i < str ∨ str + (natText value).length < i → (convertUnsigned value memory str).1 i = memory i := by
  obtain ⟨hptr, hread, hframe⟩ := digitLoop_spec value memory str
  have hlen := List.length_pos_of_ne_nil (natText_ne_nil value)
  unfold convertUnsigned
  generalize digitLoop value memory str = r at hptr hread hframe
  obtain ⟨memory', ptr⟩ := r
  obtain rfl : ptr = str + (natText value).length := hptr
  dsimp only at hread hframe ⊢
  refine ⟨Nat.add_sub_cancel_left _ _, ?_, ?_, ?_⟩
  · rw [← List.reverse_reverse ((natText value).map ascii), ← hread]
    refine readBytes_reverse fun k hk => ?_
    rw [swapLoop_apply, if_pos (by omega), Function.update_of_ne (by omega)]
    congr 1
    omega
  · rw [swapLoop_apply, if_neg (by omega), Function.update_self]
  · intro i hi
    rw [swapLoop_apply, if_neg (by omega), Function.update_of_ne (by omega), hframe i (by omega)]

theorem width_le_digits10 (h : n < 2 ^ B.digits) : width n ≤ B.digits10 + 1 := by
  rw [width_le_iff]
  exact Nat.lt_trans h (Nat.lt_pow_succ_log_self (by decide) _)

def Convertible (B : BinaryType) (x : Int) : Prop := B.min ≤ x ∧ x ≤ B.max ∧ (B.isSigned = true → x ≠ B.min)

theorem length_intText_le (h : Convertible B x) : (intText x).length ≤ B.digits10 + 2 := by
  obtain ⟨hlow, hhigh, hne⟩ := h
  obtain ⟨hmax, hmin, hsign, hsize⟩ := B.bounds
  have hpos : (natText x.natAbs).length ≤ B.digits10 + 1 := by
    have habs : x.natAbs < 2 ^ B.digits := by
      have hcast : ((2 ^ B.digits : Nat) : Int) = 2 ^ B.digits := by push_cast; rfl
      rw [← Int.ofNat_lt, hcast]
      by_cases hs : B.isSigned = true
      · have := hne hs
        omega
      · have := mt hsign.mpr hs
        omega
    rw [length_natText]
    exact Nat.max_le.mpr ⟨by omega, width_le_digits10 habs⟩
  unfold intText
  split_ifs
  · rw [List.length_cons, List.length_map]
    omega
  · rw [List.length_map]
    omega

/-- 緩衝域の `str` から、`text` と NUL が書かれ、その外は変わらない。 -/
def Wrote (memory memory' : Memory) (str : Nat) (text : Bytes) : Prop :=
  readBytes memory' str text.length = text ∧ memory' (str + text.length) = 0 ∧
    ∀ i, i < str ∨ str + text.length < i → memory' i = memory i

theorem convertUnsigned_wrote (value : Nat) (memory : Memory) (str : Nat) :
    (convertUnsigned value memory str).2 = ((natText value).map ascii).length ∧
      Wrote memory (convertUnsigned value memory str).1 str ((natText value).map ascii) := by
  unfold Wrote
  rw [List.length_map]
  exact convertUnsigned_spec value memory str

theorem convertSigned_wrote (hne : ¬ x < -B.max) (memory : Memory) (str : Nat) :
    (convertSigned B x memory str).2 = (intText x).length ∧ Wrote memory
    (convertSigned B x memory str).1 str (intText x) := by
  unfold convertSigned intText
  rw [if_neg hne]
  split_ifs with hneg
  · have habs : (-x).toNat = x.natAbs := by omega
    rw [habs]
    obtain ⟨hlen, hread, hnul, hframe⟩ := convertUnsigned_wrote x.natAbs (Function.update memory str 0x2D) (str + 1)
    dsimp only
    refine ⟨by rw [hlen, List.length_cons], ?_, ?_, ?_⟩
    · rw [List.length_cons, readBytes_succ, hread, hframe str (.inl (Nat.lt_succ_self str)), Function.update_self]
    · rw [Nat.add_assoc, Nat.add_comm 1] at hnul
      exact hnul
    · intro i hi
      rw [List.length_cons] at hi
      rw [hframe i (by omega), Function.update_of_ne (by omega)]
  · have habs : x.toNat = x.natAbs := by omega
    rw [habs]
    exact convertUnsigned_wrote x.natAbs memory str

theorem intToStr_wrote (h : Convertible B x) {size : Nat} (hsize : B.digits10 + 3 ≤ size)
    (memory : Memory) (str : Nat) : (intToStr B x memory str size).2 = (intText x).length ∧
    Wrote memory (intToStr B x memory str size).1 str (intText x) := by
  obtain ⟨hlow, hhigh, hne⟩ := h
  obtain ⟨hmax, hmin, hsign, -⟩ := B.bounds
  unfold intToStr
  rw [if_neg (by omega)]
  split_ifs with hs
  · have := hne hs
    have := hsign.mp hs
    exact convertSigned_wrote (by omega) memory str
  · have hunsigned := mt hsign.mpr hs
    have htext : intText x = (natText x.toNat).map ascii := by
      have habs : x.toNat = x.natAbs := by omega
      rw [intText, if_neg (by omega), habs]
    rw [htext]
    exact convertUnsigned_wrote x.toNat memory str

theorem intToStr_min (hs : B.isSigned = true) (memory : Memory) (str size : Nat) :
    intToStr B B.min memory str size = (memory, 0) := by
  obtain ⟨hmax, hmin, hsign, -⟩ := B.bounds
  have hne := hsign.mp hs
  unfold intToStr
  split_ifs with hsize
  · rfl
  · unfold convertSigned
    rw [if_pos (by omega)]

end UnixCommons.String.IntText
