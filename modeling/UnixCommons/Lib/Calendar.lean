import Mathlib

/-!
# グレゴリオ暦

月は 0 から、日は 1 から数える。四年に一度の閏年だけの暦と、百年の規則のために除かれる閏日の数で、日の番号を比べる。
-/

namespace Lib.Calendar

/-! ## 年と月の長さ -/

def isLeap (year : Nat) : Bool := 4 ∣ year ∧ (¬ 100 ∣ year ∨ 400 ∣ year)

def isSkipped (year : Nat) : Bool := 100 ∣ year ∧ ¬ 400 ∣ year

def monthLength (leap : Bool) (month : Nat) : Nat :=
  [31, if leap then 29 else 28, 31, 30, 31, 30, 31, 31, 30, 31, 30, 31].getD month 0

def yearLength (year : Nat) : Nat := if isLeap year then 366 else 365

def daysBeforeMonth (leap : Bool) (month : Nat) : Nat := ((List.range month).map (monthLength leap)).sum

def daysOfYears (first n : Nat) : Nat := ((List.range n).map fun k => yearLength (first + k)).sum

/-- `first` の年から `n` 年の間の、除かれる閏日の数。 -/
def skipped (first n : Nat) : Nat := (List.range n).countP fun k => isSkipped (first + k)

variable {first n year : Nat}

theorem yearLength_add (year : Nat) : yearLength year + (if isSkipped year then 1 else 0) = 365 +
    if 4 ∣ year then 1 else 0 := by
  unfold yearLength
  by_cases hleap : isLeap year = true <;> by_cases hskip : isSkipped year = true <;>
    by_cases hfour : 4 ∣ year <;> simp only [hleap, hskip, hfour, if_true, if_false,
    Bool.false_eq_true] <;> simp only [isLeap, isSkipped, decide_eq_true_eq] at hleap hskip <;>
      omega

theorem daysOfYears_add_skipped (first n : Nat) :
    daysOfYears first n + skipped first n = 365 * n + ((first + n + 3) / 4 - (first + 3) / 4) := by
  induction n with
  | zero => simp [daysOfYears, skipped]
  | succ n ih =>
      have hlength := yearLength_add (first + n)
      have hdays : daysOfYears first (n + 1) = daysOfYears first n + yearLength (first + n) := by
        simp [daysOfYears, List.range_succ]
      have hskip : skipped first (n + 1) = skipped first n + if isSkipped (first + n) then 1 else 0 := by
        simp [skipped, List.range_succ, List.countP_append, List.countP_singleton]
      rw [hdays, hskip]
      split_ifs at hlength ⊢ <;> omega

theorem skipped_eq_zero (h : ∀ k < n, isSkipped (first + k) = false) : skipped first n = 0 :=
  List.countP_eq_zero.mpr fun k hk => by simp [h k (List.mem_range.mp hk)]

theorem skipped_pos {k : Nat} (hk : k < n) (h : isSkipped (first + k) = true) : 0 < skipped first n :=
  List.countP_pos_iff.mpr ⟨k, List.mem_range.mpr hk, h⟩

theorem daysBeforeMonth_leap : ∀ month < 12, daysBeforeMonth true month = daysBeforeMonth false
    month + if 2 ≤ month then 1 else 0 := by
  decide

theorem daysBeforeMonth_month : ∀ leap : Bool, ∀ month < 12, ∀ month' < 12, month < month' →
    daysBeforeMonth leap month + monthLength leap month ≤ daysBeforeMonth leap month' := by
  decide

theorem daysBeforeMonth_year : ∀ leap : Bool, ∀ month < 12,
    daysBeforeMonth leap month + monthLength leap month ≤ 365 + leap.toNat := by
  decide

theorem monthLength_le : ∀ month < 12, monthLength false month ≤ monthLength true month := by decide

/-! ## 日付と時刻 -/

structure Date (first : Nat) where
  year : Nat
  month : Nat
  day : Nat
  first_le : first ≤ year
  month_lt : month < 12
  day_pos : 1 ≤ day
  day_le : day ≤ monthLength (isLeap year) month

def Date.yearDay (d : Date first) : Nat := daysBeforeMonth (isLeap d.year) d.month + d.day - 1

def Date.number (d : Date first) : Nat := daysOfYears first (d.year - first) + d.yearDay

structure Moment (first : Nat) extends Date first where
  hour : Nat
  minute : Nat
  second : Nat
  hour_lt : hour < 24
  minute_lt : minute < 60
  second_lt : second < 60

def Moment.secondOfDay (m : Moment first) : Nat := m.hour * 3600 + m.minute * 60 + m.second

def Moment.seconds (m : Moment first) : Nat := m.number * 86400 + m.secondOfDay

def Moment.fields (m : Moment first) : List Nat := [m.year, m.month, m.day, m.hour, m.minute, m.second]

/-! ## 四年に一度の閏年だけの暦 -/

def Date.julianYearDay (d : Date first) : Nat := daysBeforeMonth (4 ∣ d.year) d.month + d.day - 1

/-- 百年の規則のない暦での、`first` の年の初めからの日数。 -/
def Date.julianNumber (d : Date first) : Nat :=
  365 * (d.year - first) + ((d.year + 3) / 4 - (first + 3) / 4) + d.julianYearDay

def Date.skippedDays (d : Date first) : Nat :=
  skipped first (d.year - first) + if isSkipped d.year = true ∧ 2 ≤ d.month then 1 else 0

theorem isLeap_or (year : Nat) : isLeap year = decide (4 ∣ year) ∧ isSkipped year = false ∨
    isLeap year = false ∧ 4 ∣ year ∧ isSkipped year = true := by
  by_cases hfour : 4 ∣ year <;> by_cases hskip : isSkipped year = true <;> simp only [hfour, hskip] <;>
    simp only [isLeap, isSkipped, decide_eq_true_eq] at hskip ⊢ <;> simp <;> omega

theorem Date.julianNumber_eq (d : Date first) : d.julianNumber = d.number + d.skippedDays := by
  have hyears := daysOfYears_add_skipped first (d.year - first)
  rw [show first + (d.year - first) = d.year from Nat.add_sub_cancel' d.first_le] at hyears
  have hday := d.day_pos
  rw [julianNumber, number, skippedDays, julianYearDay, yearDay]
  rcases isLeap_or d.year with ⟨hleap, hskip⟩ | ⟨hleap, hfour, hskip⟩
  · rw [hleap, hskip]
    simp only [Bool.false_eq_true, false_and, if_false]
    omega
  · have hmonth := daysBeforeMonth_leap d.month d.month_lt
    rw [hleap, hskip, decide_eq_true hfour, hmonth]
    simp only [true_and]
    split_ifs <;> omega

theorem Date.day_le_julian (d : Date first) : d.day ≤ monthLength (4 ∣ d.year) d.month := by
  have hday := d.day_le
  rcases isLeap_or d.year with ⟨hleap, -⟩ | ⟨hleap, hfour, -⟩
  · rwa [hleap] at hday
  · rw [hleap] at hday
    rw [decide_eq_true hfour]
    exact hday.trans (monthLength_le d.month d.month_lt)

theorem Date.julianNumber_lt {d d' : Date first}
    (h : [d.year, d.month, d.day] < [d'.year, d'.month, d'.day]) : d.julianNumber < d'.julianNumber := by
  have hday := d.day_le_julian
  have hpos := d.day_pos
  have hpos' := d'.day_pos
  have hend := daysBeforeMonth_year (4 ∣ d.year) d.month d.month_lt
  have hfirst := d.first_le
  rw [julianNumber, julianNumber, julianYearDay, julianYearDay]
  simp only [List.cons_lt_cons_iff] at h
  rcases h with hyear | ⟨hyear, hmonth | ⟨hmonth, hlt | ⟨-, hnil⟩⟩⟩
  · have hleap : (decide (4 ∣ d.year)).toNat = if 4 ∣ d.year then 1 else 0 := by split_ifs with hfour <;> simp [hfour]
    rw [hleap] at hend
    split_ifs at hend <;> omega
  · have hle := daysBeforeMonth_month (4 ∣ d.year) d.month d.month_lt d'.month d'.month_lt hmonth
    rw [← hyear]
    omega
  · rw [← hyear, ← hmonth]
    omega
  · exact absurd hnil (List.not_lt_nil _)

theorem Moment.secondOfDay_lt (m : Moment first) : m.secondOfDay < 86400 := by
  have hhour := m.hour_lt
  have hminute := m.minute_lt
  have hsecond := m.second_lt
  rw [secondOfDay]
  omega

theorem Moment.julian_lt {m m' : Moment first} (h : m.fields < m'.fields) :
    m.julianNumber * 86400 + m.secondOfDay < m'.julianNumber * 86400 + m'.secondOfDay := by
  have hlt := m.secondOfDay_lt
  by_cases hdate : [m.year, m.month, m.day] < [m'.year, m'.month, m'.day]
  · have hnumber := Date.julianNumber_lt hdate
    omega
  · have hm := m.hour_lt
    have hminute := m.minute_lt
    have hsecond := m.second_lt
    simp only [fields, List.cons_lt_cons_iff, List.not_lt_nil, and_false, or_false] at h hdate
    have hyear : m.year = m'.year := by omega
    have hmonth : m.month = m'.month := by omega
    have hday : m.day = m'.day := by omega
    have hnumber : m.julianNumber = m'.julianNumber := by
      rw [Date.julianNumber, Date.julianNumber, Date.julianYearDay, Date.julianYearDay, hyear, hmonth, hday]
    have hminute' := m'.minute_lt
    have hsecond' := m'.second_lt
    rw [hnumber, secondOfDay, secondOfDay]
    omega

end Lib.Calendar
