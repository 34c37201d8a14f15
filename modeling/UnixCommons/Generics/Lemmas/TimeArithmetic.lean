import Mathlib.Algebra.Order.Ring.Int
import Mathlib.Tactic.LinearCombination
import Mathlib.Tactic.Ring
import UnixCommons.Lib.Spec
import UnixCommons.Generics.Time

/-! # 時刻の計算の補題 -/

namespace UnixCommons.Generics

/-- マイクロ秒の部分は `USEC_MAX` より小さい自然数である。 -/
def Time.Canonical (tv : Time) : Prop := 0 ≤ tv.tvUsec ∧ tv.tvUsec < usecMax

/-- 正規の時刻であり、`microseconds` は値 `x` を返す。 -/
def Time.Represents (tv : Time) (x : Int) : Prop := tv.Canonical ∧ tv.microseconds = .ok x

def Representable (x : Int) : Prop := ∃ tv : Time, tv.Represents x

def Yields (result : Except TimeError Time) (x : Int) : Prop := ∃ tv, result = .ok tv ∧ tv.Represents x

variable {tv tv₁ tv₂ : Time} {x y m d time : Int}

/-! ## 表現 -/

theorem longResult_of_fits (hlo : -9223372036854775808 ≤ x) (hhi : x < 9223372036854775808) : longResult x = .ok x := by
  rw [longResult, if_pos ⟨by omega, by omega⟩]
  rfl

theorem longResult_bind {α : Type} {f : Int → Except TimeError α} (hlo : -9223372036854775808 ≤ x)
    (hhi : x < 9223372036854775808) : (longResult x >>= f) = f x := by
  rw [longResult_of_fits hlo hhi]
  rfl

theorem longResult_eq_ok_iff : longResult x = .ok y ↔ y = x ∧ -9223372036854775808 ≤ x ∧ x < 9223372036854775808 := by
  constructor
  · intro h
    unfold longResult at h
    split at h
    · obtain rfl := Except.ok.inj h
      omega
    · cases h
  · rintro ⟨rfl, hlo, hhi⟩
    exact longResult_of_fits hlo hhi

theorem microseconds_eq_ok_iff :
    tv.microseconds = .ok x ↔ x = tv.tvSec * 1000000 + tv.tvUsec ∧
      (-9223372036854775808 ≤ tv.tvSec * 1000000 ∧ tv.tvSec * 1000000 < 9223372036854775808) ∧
      -9223372036854775808 ≤ x ∧ x < 9223372036854775808 := by
  rw [Time.microseconds, usecMax]
  constructor
  · intro h
    obtain ⟨product, hproduct, h⟩ := Lib.bind_eq_ok.mp h
    obtain ⟨rfl, hfits⟩ := longResult_eq_ok_iff.mp hproduct
    obtain ⟨rfl, hsum⟩ := longResult_eq_ok_iff.mp h
    exact ⟨rfl, hfits, hsum⟩
  · rintro ⟨rfl, hfits, hsum⟩
    rw [longResult_bind hfits.1 hfits.2]
    exact longResult_of_fits hsum.1 hsum.2

theorem represents_iff :
    tv.Represents x ↔ 0 ≤ tv.tvUsec ∧ tv.tvUsec < 1000000 ∧ x = tv.tvSec * 1000000 + tv.tvUsec ∧
      -9223372036854 ≤ tv.tvSec ∧ x < 9223372036854775808 := by
  rw [Time.Represents, Time.Canonical, microseconds_eq_ok_iff, usecMax]
  omega

theorem Time.Represents.of_representable (hcanonical : tv.Canonical)
    (hvalue : tv.tvSec * 1000000 + tv.tvUsec = x) (h : Representable x) : tv.Represents x := by
  obtain ⟨other, hother⟩ := h
  rw [Time.Canonical, usecMax] at hcanonical
  rw [represents_iff] at hother ⊢
  omega

theorem Yields.of_representable (hcanonical : tv.Canonical)
    (hvalue : tv.tvSec * 1000000 + tv.tvUsec = x) (h : Representable x) :
    Yields (.ok tv) x := ⟨tv, rfl, .of_representable hcanonical hvalue h⟩

theorem Representable.of_natAbs_le (h : tv.Represents x) (hy : 0 ≤ y) (hle : y.natAbs ≤ x.natAbs) : Representable y := by
  refine ⟨⟨y / 1000000, y % 1000000⟩, ?_⟩
  rw [represents_iff] at h ⊢
  simp only
  omega

/-! ## 和、差、符号 -/

theorem Time.add_yields (h₁ : tv₁.Represents x) (h₂ : tv₂.Represents y)
    (h : Representable (x + y)) : Yields (tv₁.add tv₂) (x + y) := by
  rw [represents_iff] at h₁ h₂
  simp (disch := omega) only [Time.add, longResult_bind, usecMax]
  split
  · exact .of_representable (by simp only [Time.Canonical, usecMax]; omega) (by simp only; omega) h
  · exact .of_representable (by simp only [Time.Canonical, usecMax]; omega) (by simp only; omega) h

theorem Time.sub_yields (h₁ : tv₁.Represents x) (h₂ : tv₂.Represents y)
    (h : Representable (x - y)) : Yields (tv₁.sub tv₂) (x - y) := by
  rw [represents_iff] at h₁ h₂
  rw [Time.sub]
  split
  · simp (disch := omega) only [longResult_bind, usecMax]
    exact .of_representable (by simp only [Time.Canonical, usecMax]; omega) (by simp only; omega) h
  · simp (disch := omega) only [longResult_bind]
    exact .of_representable (by simp only [Time.Canonical, usecMax]; omega) (by simp only; omega) h

theorem Time.neg_yields (h : tv.Represents x) (hneg : Representable (-x)) : Yields tv.neg (-x) := by
  rw [represents_iff] at h
  rw [Time.neg]
  split
  · simp (disch := omega) only [longResult_bind, usecMax]
    exact .of_representable (by simp only [Time.Canonical, usecMax]; omega) (by simp only; omega) hneg
  · simp (disch := omega) only [longResult_bind]
    exact .of_representable (by simp only [Time.Canonical, usecMax]; omega) (by simp only; omega) hneg

theorem Time.Represents.neg_iff (h : tv.Represents x) : tv.tvSec < 0 ↔ x < 0 := by
  rw [represents_iff] at h
  omega

theorem Time.abs_yields (h : tv.Represents x) : Yields tv.abs |x| := by
  rw [Time.abs]
  split
  · rename_i hsec
    have hx := h.neg_iff.mp hsec
    rw [abs_of_neg hx]
    exact Time.neg_yields h (.of_natAbs_le h (by omega) (by omega))
  · rename_i hsec
    have hx : 0 ≤ x := not_lt.mp fun hx => hsec (h.neg_iff.mpr hx)
    rw [abs_of_nonneg hx]
    exact ⟨tv, rfl, h⟩

theorem Time.addSeconds_yields (h : tv.Represents x) (hsum : Representable (x + time * 1000000)) :
    Yields (tv.addSeconds time) (x + time * 1000000) := by
  rw [represents_iff] at h
  obtain ⟨other, hother⟩ := hsum
  rw [represents_iff] at hother
  simp (disch := omega) only [Time.addSeconds, longResult_bind]
  exact .of_representable (by simp only [Time.Canonical, usecMax]; omega) (by simp only; omega)
    ⟨other, represents_iff.mpr hother⟩

theorem Time.subSeconds_yields (h : tv.Represents x) (hdiff : Representable (x - time * 1000000)) :
    Yields (tv.subSeconds time) (x - time * 1000000) := by
  rw [represents_iff] at h
  obtain ⟨other, hother⟩ := hdiff
  rw [represents_iff] at hother
  simp (disch := omega) only [Time.subSeconds, longResult_bind]
  exact .of_representable (by simp only [Time.Canonical, usecMax]; omega) (by simp only; omega)
    ⟨other, represents_iff.mpr hother⟩

/-! ## 積と商 -/

theorem helperAbs_eq (hlo : -2147483648 < m) (hhi : m < 2147483648) : helperAbs m = .ok |m| := by
  rw [helperAbs]
  split
  · rename_i hm
    rw [abs_of_neg hm, intResult, if_pos ⟨by omega, by omega⟩]
    rfl
  · rename_i hm
    rw [abs_of_nonneg (by omega)]
    rfl

theorem helperMul_yields (h : tv.Represents x) (hx : 0 ≤ x) (hm : 0 ≤ m) (hhi : m < 2147483648)
    (hproduct : Representable (x * m)) : Yields (helperMul tv m) (x * m) := by
  have hfits := hproduct
  obtain ⟨other, hother⟩ := hproduct
  rw [represents_iff] at h hother
  have hvalue : x * m = tv.tvSec * m * 1000000 + tv.tvUsec * m := by
    rw [h.2.2.1]
    ring
  have hsec : 0 ≤ tv.tvSec * m := mul_nonneg (by omega) hm
  have husec : 0 ≤ tv.tvUsec * m := mul_nonneg h.1 hm
  have husecLt : tv.tvUsec * m ≤ 1000000 * 2147483648 := mul_le_mul (by omega) (by omega) hm (by omega)
  rw [helperMul]
  simp (disch := omega) only [longResult_bind, usecMax, Int.tdiv_eq_ediv_of_nonneg husec, Int.tmod_eq_emod_of_nonneg husec]
  exact .of_representable (by simp only [Time.Canonical, usecMax]; omega) (by simp only; omega) hfits

theorem helperDiv_value (hc : tv.Canonical) (hsec : 0 ≤ tv.tvSec)
    (hlt : tv.tvSec < 9223372036854775808) (hd : 0 < d) (hhi : d < 2147483648) :
    ∃ r, helperDiv tv d = .ok r ∧ r.Canonical ∧ 0 ≤ r.tvSec ∧ r.tvSec ≤ tv.tvSec ∧
      r.tvSec * 1000000 + r.tvUsec = (tv.tvSec * 1000000 + tv.tvUsec) / d := by
  rw [Time.Canonical, usecMax] at hc
  have hquotient : 0 ≤ tv.tvSec / d := Int.ediv_nonneg hsec (Int.le_of_lt hd)
  have hquotientLe : tv.tvSec / d ≤ tv.tvSec := Int.ediv_le_self d hsec
  have hback : tv.tvSec / d * d = tv.tvSec - tv.tvSec % d := by
    have := Int.mul_ediv_add_emod tv.tvSec d
    rw [mul_comm]
    omega
  have hrest := Int.emod_nonneg tv.tvSec (by omega : d ≠ 0)
  have hrestLt := Int.emod_lt_of_pos tv.tvSec hd
  have hrestLe : tv.tvSec % d ≤ tv.tvSec := by
    have := Int.mul_ediv_add_emod tv.tvSec d
    have := mul_nonneg (Int.le_of_lt hd) hquotient
    omega
  obtain ⟨rest, hrestEq⟩ : ∃ rest, rest = tv.tvSec % d * 1000000 + tv.tvUsec := ⟨_, rfl⟩
  have hnonneg : 0 ≤ rest := by omega
  have hlt : rest / d < 1000000 := by
    apply Int.ediv_lt_of_lt_mul hd
    omega
  have hle : rest / d ≤ rest := Int.ediv_le_self d hnonneg
  have hpos : 0 ≤ rest / d := Int.ediv_nonneg hnonneg (Int.le_of_lt hd)
  have hvalue : (tv.tvSec * 1000000 + tv.tvUsec) / d = tv.tvSec / d * 1000000 + rest / d := by
    have : tv.tvSec * 1000000 + tv.tvUsec = rest + d * (tv.tvSec / d * 1000000) := by
      rw [hrestEq]
      have := Int.mul_ediv_add_emod tv.tvSec d
      linear_combination -1000000 * this
    rw [this, Int.add_mul_ediv_left _ _ (by omega : d ≠ 0)]
    ring
  rw [helperDiv]
  simp (disch := omega) only [longResult_bind, usecMax, Int.tdiv_eq_ediv_of_nonneg hsec, hback,
    sub_sub_cancel, ← hrestEq, Int.tdiv_eq_ediv_of_nonneg hnonneg]
  exact ⟨_, rfl, ⟨hpos, hlt⟩, hquotient, hquotientLe, hvalue.symm⟩

theorem helperDiv_yields (h : tv.Represents x) (hx : 0 ≤ x) (hd : 0 < d) (hhi : d < 2147483648) :
    Yields (helperDiv tv d) (x / d) := by
  have hfits : Representable (x / d) :=
    have hnonneg : 0 ≤ x / d := Int.ediv_nonneg hx (Int.le_of_lt hd)
    have hle : x / d ≤ x := Int.ediv_le_self d hx
    .of_natAbs_le h hnonneg (by omega)
  have hrepr := represents_iff.mp h
  obtain ⟨r, hr, hc, -, -, hvalue⟩ := helperDiv_value h.1 (by omega) (by omega) hd hhi
  rw [← hrepr.2.2.1] at hvalue
  rw [hr]
  exact .of_representable hc hvalue hfits

theorem withSign_yields {helper : Time → Int → Except TimeError Time} {r : Int} (h : tv.Represents x) (hlo : -2147483648 < m)
    (hhi : m < 2147483648) (hhelper : ∀ abs : Time, abs.Represents |x| → Yields (helper abs |m|) r)
    (hresult : Representable (if x < 0 ↔ m < 0 then r else -r)) :
    Yields (withSign helper tv m) (if x < 0 ↔ m < 0 then r else -r) := by
  obtain ⟨abs, habs, hrepr⟩ := Time.abs_yields h
  obtain ⟨time, htime, hrepr⟩ := hhelper abs hrepr
  rw [withSign, habs, helperAbs_eq hlo hhi]
  simp only [Lib.ok_bind, htime, h.neg_iff]
  split
  · exact ⟨time, rfl, hrepr⟩
  · rename_i hsign
    rw [if_neg hsign] at hresult
    exact Time.neg_yields hrepr hresult

theorem signed_product : x * m = if x < 0 ↔ m < 0 then |x| * |m| else -(|x| * |m|) := by
  rcases lt_or_ge x 0 with hx | hx <;> rcases lt_or_ge m 0 with hm | hm
  · rw [if_pos (by omega), abs_of_neg hx, abs_of_neg hm]
    ring
  · rw [if_neg (by omega), abs_of_neg hx, abs_of_nonneg hm]
    ring
  · rw [if_neg (by omega), abs_of_nonneg hx, abs_of_neg hm]
    ring
  · rw [if_pos (by omega), abs_of_nonneg hx, abs_of_nonneg hm]

theorem signed_quotient : x.tdiv d = if x < 0 ↔ d < 0 then |x| / |d| else -(|x| / |d|) := by
  rcases lt_or_ge x 0 with hx | hx <;> rcases lt_or_ge d 0 with hd | hd
  · rw [if_pos (by omega), abs_of_neg hx, abs_of_neg hd, ← Int.tdiv_eq_ediv_of_nonneg (by omega),
      Int.neg_tdiv, Int.tdiv_neg, neg_neg]
  · rw [if_neg (by omega), abs_of_neg hx, abs_of_nonneg hd, ← Int.tdiv_eq_ediv_of_nonneg (by omega), Int.neg_tdiv, neg_neg]
  · rw [if_neg (by omega), abs_of_nonneg hx, abs_of_neg hd, ← Int.tdiv_eq_ediv_of_nonneg (by omega), Int.tdiv_neg, neg_neg]
  · rw [if_pos (by omega), abs_of_nonneg hx, abs_of_nonneg hd, Int.tdiv_eq_ediv_of_nonneg hx]

theorem Time.mul_yields (h : tv.Represents x) (hlo : -2147483648 < m) (hhi : m < 2147483648)
    (hproduct : Representable (x * m)) : Yields (tv.mul m) (x * m) := by
  have hm : |m| < 2147483648 := abs_lt.mpr ⟨by omega, hhi⟩
  rw [signed_product] at hproduct ⊢
  refine withSign_yields h hlo hhi (fun abs habs => helperMul_yields habs (abs_nonneg x) (abs_nonneg m) hm ?_) hproduct
  obtain ⟨other, hother⟩ := hproduct
  refine .of_natAbs_le hother (mul_nonneg (abs_nonneg x) (abs_nonneg m)) ?_
  split <;> simp

theorem Time.div_yields (h : tv.Represents x) (hlo : -2147483648 < d) (hhi : d < 2147483648)
    (hne : d ≠ 0) (hquotient : Representable (x.tdiv d)) : Yields (tv.div d) (x.tdiv d) := by
  have hd : |d| < 2147483648 := abs_lt.mpr ⟨by omega, hhi⟩
  rw [signed_quotient] at hquotient ⊢
  exact withSign_yields h hlo hhi (fun abs habs => helperDiv_yields habs (abs_nonneg x) (abs_pos.mpr hne) hd) hquotient

/-! ## 比較と `print` -/

theorem Time.less_iff (h₁ : tv₁.Represents x) (h₂ : tv₂.Represents y) : tv₁.less tv₂ = true ↔ x < y := by
  rw [represents_iff] at h₁ h₂
  simp only [Time.less, decide_eq_true_eq]
  omega

theorem Time.equal_iff (h₁ : tv₁.Represents x) (h₂ : tv₂.Represents y) : tv₁.equal tv₂ = true ↔ x = y := by
  rw [represents_iff] at h₁ h₂
  simp only [Time.equal, decide_eq_true_eq]
  omega

theorem Time.lessEqual_iff (h₁ : tv₁.Represents x) (h₂ : tv₂.Represents y) : tv₁.lessEqual tv₂ = true ↔ x ≤ y := by
  rw [Time.lessEqual, Bool.not_eq_true', ← Bool.not_eq_true, Time.less_iff h₂ h₁, not_lt]

structure Print.Shows (p : Print) (x : Int) : Prop where
  sign : p.sign = -1 ∨ p.sign = 0 ∨ p.sign = 1
  integer : 0 ≤ p.integerPart
  fraction : 0 ≤ p.fractionalPart ∧ p.fractionalPart < usecMax
  value : p.sign * (p.integerPart * usecMax + p.fractionalPart) = x

theorem Time.print_shows (h : tv.Represents x) : ∃ p, tv.print = .ok p ∧ p.Shows x := by
  rw [represents_iff] at h
  rw [Time.print]
  split
  · exact ⟨_, rfl, .inr (.inr rfl), by simp only; omega, by simp only [usecMax]; omega, by simp only [usecMax]; omega⟩
  · split
    · split
      · simp (disch := omega) only [longResult_bind, usecMax]
        exact ⟨_, rfl, .inl rfl, by simp only; omega, by simp only [usecMax]; omega, by simp only [usecMax]; omega⟩
      · simp (disch := omega) only [longResult_bind]
        exact ⟨_, rfl, .inl rfl, by simp only; omega, by simp only [usecMax]; omega, by simp only [usecMax]; omega⟩
    · split
      · exact ⟨_, rfl, .inr (.inr rfl), Int.le_refl 0, by simp only [usecMax]; omega, by simp only [usecMax]; omega⟩
      · exact ⟨_, rfl, .inr (.inl rfl), Int.le_refl 0, by simp only [usecMax]; omega, by simp only [usecMax]; omega⟩

end UnixCommons.Generics
