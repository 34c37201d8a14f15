import UnixCommons.Generics.DecimalConstruct

/-!
# 十進数の文法

文字列 `[+|-]abcd[.[efg]]` を、符号、整数部の数字、小数点のあるなし、端数の数字に分けたもの。数字でない文字を含む値は作れない。
-/

namespace UnixCommons.Generics

open Lib

inductive Sign
  | absent
  | plus
  | minus
  deriving DecidableEq, Repr

def Sign.text : Sign → List Char
  | .absent => []
  | .plus => ['+']
  | .minus => ['-']

structure NumberText where
  sign : Sign
  integer : List Char
  point : Bool
  fraction : List Char
  integer_digits : ∀ c ∈ integer, c.isDigit = true
  fraction_digits : ∀ c ∈ fraction, c.isDigit = true
  point_of_fraction : fraction ≠ [] → point = true

def NumberText.tail (t : NumberText) : List Char := if t.point then '.' :: t.fraction else []

def NumberText.text (t : NumberText) : List Char := t.sign.text ++ (t.integer ++ t.tail)

/-- `10 ^ F` 倍した絶対値。 -/
def NumberText.magnitude (F : Nat) (t : NumberText) : Nat :=
  digitsValue t.integer * 10 ^ F + digitsValue t.fraction * 10 ^ (F - t.fraction.length)

/-- `10 ^ F` 倍した値。 -/
def NumberText.value (F : Nat) (t : NumberText) : Int :=
  if t.sign = .minus then -(t.magnitude F : Int) else t.magnitude F

def NumberText.integerWidth (t : NumberText) : Nat := (t.integer.dropWhile isZeroDigit).length

def NumberText.Fits (r : Ranks) (t : NumberText) : Prop := t.integerWidth ≤ r.integer ∧ t.fraction.length ≤ r.fraction

def IsNumber (str : List Char) : Prop := ∃ t : NumberText, t.text = str ∧ t.integer ++ t.fraction ≠ []

/-! ## 文字列の分け方 -/

variable {t : NumberText} {l tail : List Char} {c : Char}

theorem dropWhile_append_of_head {f : Char → Bool} (h : ∀ c, tail.head? = some c → f c = false) :
    (l ++ tail).dropWhile f = l.dropWhile f ++ tail := by
  induction l with
  | nil =>
      cases tail with
      | nil => rfl
      | cons c cs => exact List.dropWhile_cons_of_neg (by simp [h c rfl])
  | cons c cs ih =>
      rw [List.cons_append, List.dropWhile_cons, List.dropWhile_cons, ih]
      split <;> rfl

theorem isDigit_not_sign (h : c.isDigit = true) : isSign c = false := by
  have hd := isDigit_iff.mp h
  have h1 : c ≠ '-' := fun he => by
    subst he
    exact absurd hd.1 (by decide)
  have h2 : c ≠ '+' := fun he => by
    subst he
    exact absurd hd.1 (by decide)
  simp [isSign, h1, h2]

theorem isDigit_not_point (h : c.isDigit = true) : isPoint c = false := by
  have hd := isDigit_iff.mp h
  have h1 : c ≠ '.' := fun he => by
    subst he
    exact absurd hd.1 (by decide)
  simp [isPoint, h1]

theorem NumberText.head_tail (h : t.tail.head? = some c) : c = '.' := by
  unfold NumberText.tail at h
  split at h
  · exact (Option.some.inj h).symm
  · cases h

theorem skipSign_of_head (h : ∀ c, l.head? = some c → isSign c = false) : skipSign l = l := by
  cases l with
  | nil => rfl
  | cons c cs =>
      refine if_neg ?_
      rw [h c rfl]
      decide

theorem NumberText.head_body (h : (t.integer ++ t.tail).head? = some c) : c = '.' ∨ c.isDigit = true := by
  cases hi : t.integer with
  | nil =>
      rw [hi, List.nil_append] at h
      exact Or.inl (NumberText.head_tail h)
  | cons d ds =>
      rw [hi] at h
      refine Or.inr (t.integer_digits c ?_)
      rw [hi, ← Option.some.inj h]
      exact List.mem_cons_self

theorem NumberText.skipSign_text : skipSign t.text = t.integer ++ t.tail := by
  unfold NumberText.text
  cases t.sign with
  | plus => rfl
  | minus => rfl
  | absent =>
      refine skipSign_of_head fun c hc => ?_
      rcases NumberText.head_body hc with rfl | hd
      · rfl
      · exact isDigit_not_sign hd

theorem NumberText.head_text : decide (t.text.head? = some '-') = decide (t.sign = .minus) := by
  unfold NumberText.text
  cases t.sign with
  | plus => rfl
  | minus => rfl
  | absent =>
      refine decide_eq_decide.mpr ⟨fun hc => ?_, fun h => by cases h⟩
      rcases NumberText.head_body hc with h | h
      · exact absurd h (by decide)
      · exact absurd h (by decide)

theorem digitsValue_dropWhile : digitsValue (l.dropWhile isZeroDigit) = digitsValue l := by
  induction l with
  | nil => rfl
  | cons c cs ih =>
      rw [List.dropWhile_cons]
      split
      · next hc =>
        have : c = '0' := of_decide_eq_true hc
        subst this
        rw [ih]
        rfl
      · rfl

theorem digitsValue_rdropWhile :
    digitsValue (l.rdropWhile isZeroDigit) * 10 ^ (l.length - (l.rdropWhile isZeroDigit).length) = digitsValue l := by
  induction l using List.reverseRecOn with
  | nil => rfl
  | append_singleton l c ih =>
      rw [List.rdropWhile_concat]
      have hle : (l.rdropWhile isZeroDigit).length ≤ l.length := (List.rdropWhile_prefix _ _).length_le
      split
      · next hc =>
        have : c = '0' := of_decide_eq_true hc
        subst this
        rw [digitsValue_append_singleton, ← ih, List.length_append, List.length_singleton,
          show l.length + 1 - (l.rdropWhile isZeroDigit).length =
          l.length - (l.rdropWhile isZeroDigit).length + 1 by omega, Nat.pow_succ, ← Nat.mul_assoc]
        rfl
      · rw [Nat.sub_self, Nat.pow_zero, Nat.mul_one]

theorem length_dropWhile_zero (h : ∀ c ∈ l, c.isDigit = true) :
    (l.dropWhile isZeroDigit).length = width (digitsValue l) := by
  rw [← digitsValue_dropWhile]
  have hd : ∀ c ∈ l.dropWhile isZeroDigit, c.isDigit = true := fun c hc => h c ((List.dropWhile_sublist _).mem hc)
  have hz : ∀ c, (l.dropWhile isZeroDigit).head? = some c → isZeroDigit c = false := fun c hc => by
    have := List.head?_dropWhile_not isZeroDigit l
    rw [hc] at this
    simpa using this
  generalize l.dropWhile isZeroDigit = m at hd hz
  refine Nat.le_antisymm ?_ (width_le_iff.mpr (digitsValue_lt hd))
  cases m with
  | nil => exact Nat.zero_le _
  | cons c cs =>
      by_contra hlt
      have hsmall := width_le_iff.mp (show width (digitsValue (c :: cs)) ≤ cs.length by
        rw [List.length_cons] at hlt
        omega)
      have hsplit : digitsValue ([c] ++ cs) = digitsValue [c] * 10 ^ cs.length + digitsValue cs := digitsValue_append
      have hc := isDigit_iff.mp (hd c List.mem_cons_self)
      have hne : c.toNat ≠ 48 := fun he => by
        have : c = '0' := Char.toNat_inj.mp he
        subst this
        exact absurd (hz '0' rfl) (by decide)
      have hone : 1 ≤ digitsValue [c] := show 1 ≤ 0 * 10 + (c.toNat - 48) by omega
      have : 1 * 10 ^ cs.length ≤ digitsValue [c] * 10 ^ cs.length := Nat.mul_le_mul_right _ hone
      rw [List.singleton_append] at hsplit
      omega

theorem NumberText.integerWidth_le_iff {n : Nat} : t.integerWidth ≤ n ↔ digitsValue t.integer < 10 ^ n := by
  unfold NumberText.integerWidth
  rw [length_dropWhile_zero t.integer_digits, width_le_iff]

theorem NumberText.Fits.magnitude_lt {r : Ranks} (h : t.Fits r) : t.magnitude r.fraction < 10 ^ r.total := by
  have h1 := NumberText.integerWidth_le_iff.mp h.1
  have h2 : digitsValue t.fraction * 10 ^ (r.fraction - t.fraction.length) < 10 ^ r.fraction := by
    have := Nat.mul_lt_mul_of_pos_right (digitsValue_lt t.fraction_digits)
      (Nat.pow_pos (n := r.fraction - t.fraction.length) (show 0 < 10 by decide))
    rwa [← Nat.pow_add, Nat.add_sub_cancel' h.2] at this
  have h3 : (digitsValue t.integer + 1) * 10 ^ r.fraction ≤ 10 ^ r.integer * 10 ^ r.fraction :=
    Nat.mul_le_mul_right _ h1
  rw [← Nat.pow_add, show r.integer + r.fraction = r.total from Nat.sub_add_cancel r.fraction_le, Nat.succ_mul] at h3
  unfold NumberText.magnitude
  omega

end UnixCommons.Generics
