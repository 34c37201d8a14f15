import UnixCommons.Generics.Lemmas.Calendar
import UnixCommons.Generics.Lemmas.TimeArithmetic

/-!
# 時刻の定理

時刻の計算と、書式による読み書き。
-/

namespace UnixCommons.Generics

/-!
## 時刻の計算の定理

正規の時刻の演算は、マイクロ秒の整数の演算である。
-/

section

variable {tv₁ tv₂ : Time} {x y : Int}

theorem time_arithmetic_exact (h₁ : tv₁.Represents x) (h₂ : tv₂.Represents y) :
    (Representable (x + y) → Yields (tv₁.add tv₂) (x + y)) ∧
    (Representable (x - y) → Yields (tv₁.sub tv₂) (x - y)) ∧
    (Representable (-x) → Yields tv₁.neg (-x)) ∧
    Yields tv₁.abs |x| ∧
    (∀ time, Representable (x + time * 1000000) → Yields (tv₁.addSeconds time) (x + time * 1000000)) ∧
    (∀ time, Representable (x - time * 1000000) → Yields (tv₁.subSeconds time)
    (x - time * 1000000)) ∧ (∀ m, -2147483648 < m → m < 2147483648 → Representable (x * m) → Yields
    (tv₁.mul m) (x * m)) ∧ (∀ d, -2147483648 < d → d < 2147483648 → d ≠ 0 → Representable
    (x.tdiv d) → Yields (tv₁.div d) (x.tdiv d)) ∧ (tv₁.equal tv₂ = true ↔ x = y) ∧
    (tv₁.less tv₂ = true ↔ x < y) ∧
    (tv₁.lessEqual tv₂ = true ↔ x ≤ y) ∧
    (tv₁.greater tv₂ = true ↔ y < x) ∧
    (tv₁.greaterEqual tv₂ = true ↔ y ≤ x) ∧
    ∃ p, tv₁.print = .ok p ∧ p.Shows x := by
  refine ⟨Time.add_yields h₁ h₂, Time.sub_yields h₁ h₂, Time.neg_yields h₁, Time.abs_yields h₁,
    ?_, ?_, ?_, ?_, Time.equal_iff h₁ h₂, Time.less_iff h₁ h₂, Time.lessEqual_iff h₁ h₂,
    Time.less_iff h₂ h₁, Time.lessEqual_iff h₂ h₁, Time.print_shows h₁⟩
  · intro time hsum
    exact Time.addSeconds_yields h₁ hsum
  · intro time hdiff
    exact Time.subSeconds_yields h₁ hdiff
  · intro m hlo hhi hproduct
    exact Time.mul_yields h₁ hlo hhi hproduct
  · intro d hlo hhi hne hquotient
    exact Time.div_yields h₁ hlo hhi hne hquotient

theorem time_arithmetic_exact_half :
    Yields (Time.add ⟨-1, 500000⟩ ⟨2, 700000⟩) 2200000 ∧ Yields (Time.mul ⟨-1, 500000⟩ (-3)) 1500000 ∧
      Yields (Time.div ⟨-1, 500000⟩ 3) (-166666) ∧ ∃ p, (Time.print ⟨-1, 500000⟩) = .ok p ∧ p.Shows (-500000) := by
  have h₁ : Time.Represents ⟨-1, 500000⟩ (-500000) := ⟨⟨by decide, by decide⟩, rfl⟩
  have h₂ : Time.Represents ⟨2, 700000⟩ 2700000 := ⟨⟨by decide, by decide⟩, rfl⟩
  obtain ⟨hadd, -, -, -, -, -, hmul, hdiv, -, -, -, -, -, hprint⟩ := time_arithmetic_exact h₁ h₂
  exact ⟨hadd ⟨⟨2, 200000⟩, ⟨by decide, by decide⟩, rfl⟩,
    hmul (-3) (by decide) (by decide) ⟨⟨1, 500000⟩, ⟨by decide, by decide⟩, rfl⟩,
    hdiv 3 (by decide) (by decide) (by decide) ⟨⟨-1, 833334⟩, ⟨by decide, by decide⟩, rfl⟩, hprint⟩

end

/-!
## 時刻の書式の定理

書いた時刻を同じ書式で読むと元の時刻に戻るのは、`%e` がないか、日が二桁である時だけである。
-/

section

open String.AsciiStringManip

variable {t : Time} {items : List FormatItem}

theorem set_format_iff (hf : CommonFormat items) (h0 : 0 ≤ t.tvSec) (h1 : t.tvSec < year10000)
    (husec : 0 ≤ t.tvUsec ∧ t.tvUsec < 1000000)
    (hfits : (expansion t.getGmTime items).length ≤ 256) :
    (∃ s, t.getGmTime.format (formatText items) = .ok s ∧ Time.set s (formatText items) true = .ok t) ↔
      (.field .daySpaced ∈ items → 10 ≤ t.getGmTime.tm.tmMday) := by
  have hformat := format_expansion hf (timeToGm_spec h0 h1).1 hfits
  have hset := set_expansion hf h0 h1 husec
  constructor
  · rintro ⟨s, hs, hread⟩ hspaced
    cases hformat.symm.trans hs
    by_contra hten
    rw [if_pos ⟨hspaced, by omega⟩] at hset
    cases hset.symm.trans hread
  · intro hspaced
    refine ⟨expansion t.getGmTime items, hformat, ?_⟩
    rw [hset, if_neg]
    rintro ⟨hmem, hten⟩
    have hge := hspaced hmem
    omega

def spacedFormat : List FormatItem :=
  [.field .year, .literal (ascii '-'), .field .month, .literal (ascii '-'), .field .daySpaced,
    .literal (ascii ' '), .field .hour,
    .literal (ascii ':'), .field .minute, .literal (ascii ':'), .field .second, .literal (ascii '.'), .field .usec]

theorem spacedFormat_common : CommonFormat spacedFormat where
  literals := by simp [spacedFormat]; decide
  common := by simp [spacedFormat, Specifier.common]
  apart := by simp [spacedFormat, FormatItem.Apart]; decide
  year := by decide
  month := ⟨.month, by decide, by decide⟩
  day := by decide
  hour := by decide
  minute := by decide
  second := by decide
  usec := by decide

theorem set_format_iff_sample :
    ∃ s, (Time.getGmTime ⟨1234567890, 42⟩).format (formatText spacedFormat) = .ok s ∧
      Time.set s (formatText spacedFormat) true = .ok ⟨1234567890, 42⟩ :=
  (set_format_iff spacedFormat_common (by decide) (by decide) ⟨by decide, by decide⟩ (by decide)).mpr (by decide)

/-- 2009 年 2 月 1 日。 -/
theorem set_format_diverges :
    ∃ t items, CommonFormat items ∧ (0 ≤ t.tvSec ∧ t.tvSec < year10000) ∧
      (0 ≤ t.tvUsec ∧ t.tvUsec < 1000000) ∧ (expansion t.getGmTime items).length ≤ 256 ∧
        ¬ ∃ s, t.getGmTime.format (formatText items) = .ok s ∧ Time.set s (formatText items) true = .ok t := by
  refine ⟨⟨1233446400, 0⟩, spacedFormat, spacedFormat_common, ⟨by decide, by decide⟩,
    ⟨by decide, by decide⟩, by decide, ?_⟩
  rintro ⟨s, hs, hread⟩
  cases (format_expansion spacedFormat_common (timeToGm_spec (by decide) (by decide)).1 (by decide)).symm.trans hs
  cases (set_expansion spacedFormat_common (by decide) (by decide) ⟨by decide, by decide⟩).symm.trans hread

end

/-!
## 暦の定理

`time_to_gm` と `gm_to_time` は、百年の規則を持たないので、
グレゴリオ暦に合うのは 2100 年 3 月より前の時刻だけである。
-/

section

open Lib.Calendar

/-- 時刻 `t` の日時がグレゴリオ暦の UTC の日時であり、`gm_to_time` で元に戻る。 -/
def ConvertsCalendar (t : Int) : Prop := (∃ m : Moment 1970, timeToGm t = .ofMoment m ∧
    (m.seconds : Int) = t) ∧ gmToTime (timeToGm t) = .ok t

/-- 年が `int` に収まる日時では、`gm_to_time` は辞書式の順に増える。 -/
def OrdersCalendar (m m' : Moment 1970) : Prop := ∃ x y, gmToTime (.ofMoment m) = .ok x ∧ gmToTime
    (.ofMoment m') = .ok y ∧ x < y

theorem calendar_iff (t : Int) (m m' : Moment 1970) :
    (0 ≤ t → (ConvertsCalendar t ↔ t < centuryRule)) ∧
      ((m.year : Int) - 1900 < 2 ^ 31 → (m'.year : Int) - 1900 < 2 ^ 31 → m.fields < m'.fields →
      OrdersCalendar m m') := by
  constructor
  · intro h0
    constructor
    · rintro ⟨⟨m, heq, hseconds⟩, hback⟩
      have hfits : (m.year : Int) - 1900 < 2 ^ 31 := by
        have hyear : toInt _ = (m.year : Int) - 1900 := congrArg Tm.tmYear heq
        rw [← hyear]
        exact Int.bmod_lt (by decide)
      rw [heq, gmToTime_moment hfits] at hback
      rw [← hseconds]
      refine seconds_lt_centuryRule ?_
      exact Int.ofNat.inj (hseconds.trans (Except.ok.inj hback).symm)
    · intro h1
      exact ⟨timeToGm_moment h0 h1, (timeToGm_spec h0 (by rw [centuryRule] at h1; rw [year10000]; omega)).2⟩
  · intro hyear hyear' hlt
    exact ⟨_, _, gmToTime_moment hyear, gmToTime_moment hyear', Int.ofNat_lt.mpr (Moment.julian_lt hlt)⟩

def lastFebruary : Moment 1970 := ⟨⟨2100, 1, 28, by decide, by decide, by decide, by decide⟩, 23,
    59, 59, by decide, by decide, by decide⟩

def firstMarch : Moment 1970 := ⟨⟨2100, 2, 1, by decide, by decide, Nat.one_pos, by decide⟩, 0, 0,
    0, by decide, by decide, by decide⟩

theorem calendar_iff_february : ConvertsCalendar 4107542399 ∧ OrdersCalendar lastFebruary firstMarch :=
  ⟨((calendar_iff 4107542399 lastFebruary firstMarch).1 (by decide)).mpr (by decide),
    (calendar_iff 4107542399 lastFebruary firstMarch).2 (by decide) (by decide) (by decide)⟩

/-- 2100 年 3 月 1 日の初めは、2 月 29 日になる。 -/
theorem calendar_misses_century :
    ¬ ∀ m : Moment 1970, (m.year : Int) - 1900 < 2 ^ 31 → ConvertsCalendar m.seconds := by
  intro h
  obtain ⟨⟨m, heq, -⟩, -⟩ := h firstMarch (by decide)
  rw [show (firstMarch.seconds : Int) = 4107542400 by decide +kernel] at heq
  have hyear : 200 = (m.year : Int) - 1900 := congrArg Tm.tmYear heq
  have hmonth : 1 = (m.month : Int) := congrArg Tm.tmMon heq
  have hday : 29 = (m.day : Int) := congrArg Tm.tmMday heq
  have hle := m.day_le
  rw [show m.year = 2100 by omega, show m.month = 1 by omega, show m.day = 29 by omega] at hle
  revert hle
  decide

end

end UnixCommons.Generics
