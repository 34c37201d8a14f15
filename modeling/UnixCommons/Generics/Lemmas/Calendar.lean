import UnixCommons.Generics.Lemmas.TimeFormat

/-! # グレゴリオ暦との比較の補題 -/

namespace UnixCommons.Generics

open Lib Lib.Calendar

variable {m : Moment 1970} {t : Int}

def Tm.ofMoment (m : Moment 1970) : Tm where
  tmSec := m.second
  tmMin := m.minute
  tmHour := m.hour
  tmMday := m.day
  tmMon := m.month
  tmYear := (m.year : Int) - 1900
  tmWday := ((m.number + 4) % 7 : Nat)
  tmYday := m.yearDay

def centuryRule : Int := 4107542400

theorem gmToTime_moment (hyear : (m.year : Int) - 1900 < 2 ^ 31) :
    gmToTime (.ofMoment m) = .ok ((m.julianNumber * 86400 + m.secondOfDay : Nat) : Int) := by
  have hfirst := m.first_le
  have hhour := m.hour_lt
  have hminute := m.minute_lt
  have hday := m.day_pos
  have hval := @gmToTime_eq (.ofMoment m) ⟨by change (70 : Int) ≤ (m.year : Int) - 1900; omega, hyear⟩
    ⟨by change (0 : Int) ≤ (m.hour : Int); omega, by change (m.hour : Int) < 24; omega⟩
    ⟨by change (0 : Int) ≤ (m.minute : Int); omega, by change (m.minute : Int) < 60; omega⟩
  have hleap : decide (((Tm.ofMoment m).tmYear - 70) % 4 = 2) = decide (4 ∣ m.year) := by
    change decide (((m.year : Int) - 1900 - 70) % 4 = 2) = _
    rw [decide_eq_decide]
    omega
  have hmonth : (days (4 ∣ m.year)).getD (Tm.ofMoment m).tmMon.toNat 0 = daysBeforeMonth (4 ∣ m.year) m.month :=
    days_eq _ m.month m.month_lt
  rw [hval, hleap, hmonth]
  congr 1
  rw [Date.julianNumber, Date.julianYearDay, Moment.secondOfDay]
  generalize daysBeforeMonth (4 ∣ m.year) m.month = before
  simp only [Tm.ofMoment]
  omega

theorem monthDay_february : ∀ n < 59, monthIndex (days true) ((n : Nat) + 1) < 2 ∧
    n + 1 ≤ daysBeforeMonth true (monthIndex (days true) ((n : Int) + 1)) + monthLength false
      (monthIndex (days true) ((n : Int) + 1)) := by
  decide

theorem timeToGm_date (h0 : 0 ≤ t) (h1 : t < centuryRule) :
    ∃ d : Date 1970, d.skippedDays = 0 ∧ d.julianNumber = t / 86400 ∧
      (timeToGm t).tmYear = (d.year : Int) - 1900 ∧ (timeToGm t).tmMon = d.month ∧
      (timeToGm t).tmMday = d.day ∧ (timeToGm t).tmYday = d.yearDay := by
  have hbound : t / 86400 < 47541 := by rw [centuryRule] at h1; omega
  obtain ⟨y, yday, leap, hc, hy, hy', hyday, hyday', hleap, hsum⟩ :=
    yearOfCycle_cases (show 0 ≤ t / 86400 % 1461 by omega) (by omega)
  obtain ⟨n, rfl⟩ := Int.eq_ofNat_of_zero_le hyday
  obtain ⟨hmon, hbefore, hafter⟩ := monthDay_nat leap n (by omega)
  have hyear : toInt (t / 86400 / 1461 * 4 + y + 70) = t / 86400 / 1461 * 4 + y + 70 := by
    rw [toInt, Int.bmod_eq_of_le] <;> omega
  have heq := timeToGm_eq h0 hc
  rw [hyear] at heq
  obtain ⟨year, hyearNat⟩ := Int.eq_ofNat_of_zero_le (show 0 ≤ t / 86400 / 1461 * 4 + y + 1970 by omega)
  have hfour : leap = decide (4 ∣ year) := by
    rw [Bool.eq_iff_iff, hleap, decide_eq_true_iff]
    omega
  have hfebruary := monthDay_february n
  generalize hmonth : monthIndex (days leap) ((n : Int) + 1) = month at hmon hbefore hafter heq
  have hdays := days_eq leap month hmon
  -- 2100 年は閏年でないが、二月の二十八日までは変わらない。
  obtain ⟨hlength, hstart, hrule⟩ : n + 1 - daysBeforeMonth leap month ≤ monthLength (isLeap year) month ∧
      daysBeforeMonth (isLeap year) month = daysBeforeMonth leap month ∧ (isSkipped year = true → month < 2) := by
    rcases isLeap_or year with ⟨hplain, hskip⟩ | ⟨hplain, hdvd, hskip⟩
    · rw [hplain, ← hfour, hskip]
      exact ⟨by omega, rfl, fun h => absurd h Bool.false_ne_true⟩
    · have hcentury : year = 2100 := by
        simp only [isSkipped, decide_eq_true_eq] at hskip
        omega
      have htrue : leap = true := hfour.trans (decide_eq_true hdvd)
      rw [htrue] at hmonth hafter ⊢
      obtain ⟨hlt, hle⟩ := hfebruary (by omega)
      rw [hmonth] at hlt hle
      rw [hplain]
      refine ⟨by omega, ?_, fun _ => hlt⟩
      rw [daysBeforeMonth_leap month hmon, if_neg (by omega)]
      rfl
  refine ⟨⟨year, month, n + 1 - daysBeforeMonth leap month, by omega, hmon, by omega, hlength⟩, ?_, ?_, ?_, ?_, ?_, ?_⟩
  · have hzero : skipped 1970 (year - 1970) = 0 := by
      refine skipped_eq_zero fun k hk => ?_
      simp only [isSkipped, decide_eq_false_iff_not]
      omega
    rw [Date.skippedDays, hzero, if_neg]
    rintro ⟨hskip, hle⟩
    exact absurd (hrule hskip) (Nat.not_lt.mpr hle)
  · rw [Date.julianNumber, Date.julianYearDay]
    dsimp only
    rw [← hfour]
    omega
  · rw [heq]
    dsimp only
    omega
  · rw [heq]
  · rw [heq]
    dsimp only
    rw [hdays]
    omega
  · rw [heq, Date.yearDay]
    dsimp only
    rw [hstart]
    omega

theorem timeToGm_moment (h0 : 0 ≤ t) (h1 : t < centuryRule) : ∃ m : Moment 1970,
    timeToGm t = .ofMoment m ∧ (m.seconds : Int) = t := by
  obtain ⟨d, hskip, hnumber, hyear, hmon, hmday, hyday⟩ := timeToGm_date h0 h1
  have hjulian := d.julianNumber_eq
  rw [hskip, Nat.add_zero] at hjulian
  obtain ⟨y, yday, leap, hc, -⟩ := yearOfCycle_cases (show 0 ≤ t / 86400 % 1461 by omega) (by omega)
  have heq := timeToGm_eq h0 hc
  obtain ⟨hour, hhour⟩ := Int.eq_ofNat_of_zero_le (show 0 ≤ t / 3600 % 24 by omega)
  obtain ⟨minute, hminute⟩ := Int.eq_ofNat_of_zero_le (show 0 ≤ t / 60 % 60 by omega)
  obtain ⟨second, hsecond⟩ := Int.eq_ofNat_of_zero_le (show 0 ≤ t % 60 by omega)
  refine ⟨⟨d, hour, minute, second, by omega, by omega, by omega⟩, ?_, ?_⟩
  · have htime : (timeToGm t).tmSec = second ∧ (timeToGm t).tmMin = minute ∧ (timeToGm t).tmHour =
        hour ∧ (timeToGm t).tmWday = ((d.number + 4) % 7 : Nat) := by
      rw [heq]
      exact ⟨hsecond, hminute, hhour, by dsimp only; omega⟩
    obtain ⟨hsec, hmin, hhr, hwday⟩ := htime
    generalize timeToGm t = tm at hyear hmon hmday hyday hsec hmin hhr hwday
    obtain ⟨_, _, _, _, _, _, _, _⟩ := tm
    dsimp only at hyear hmon hmday hyday hsec hmin hhr hwday
    rw [hyear, hmon, hmday, hyday, hsec, hmin, hhr, hwday]
    rfl
  · rw [Moment.seconds, Moment.secondOfDay]
    dsimp only
    omega

theorem seconds_lt_centuryRule (h : m.seconds = m.julianNumber * 86400 + m.secondOfDay) :
    (m.seconds : Int) < centuryRule := by
  have hjulian := m.julianNumber_eq
  rw [Moment.seconds] at h
  have hskip : m.skippedDays = 0 := by omega
  rw [Date.skippedDays] at hskip
  have hle : m.year ≤ 2100 := by
    by_contra hlate
    have hpos : 0 < skipped 1970 (m.year - 1970) := @skipped_pos 1970 (m.year - 1970) 130 (by omega) (by decide)
    omega
  have hfirst := m.first_le
  have hlt := m.secondOfDay_lt
  have hmonth : m.year = 2100 → m.month < 2 := by
    intro hyear
    by_contra hlate
    rw [hyear, if_pos ⟨by decide, by omega⟩] at hskip
    omega
  have hnumber : m.julianNumber < 47541 := by
    have hday := m.day_le
    have hday' := m.day_le_julian
    have hlast := daysBeforeMonth_year (4 ∣ m.year) m.month m.month_lt
    have hcases := (decide (4 ∣ m.year)).toNat_le
    rw [Date.julianNumber, Date.julianYearDay]
    by_cases hyear : m.year = 2100
    · have hfebruary := (show ∀ month < 2, daysBeforeMonth true month + monthLength false month ≤
          59 by decide) m.month (hmonth hyear)
      rw [hyear, show isLeap 2100 = false by decide] at hday
      rw [hyear]
      simp only [show decide (4 ∣ 2100) = true by decide]
      omega
    · omega
  rw [centuryRule, Moment.seconds]
  omega

end UnixCommons.Generics
