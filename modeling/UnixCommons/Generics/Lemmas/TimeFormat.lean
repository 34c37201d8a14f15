import UnixCommons.Generics.Time
import UnixCommons.Lib.Calendar
import UnixCommons.Lib.Spec

/-! # 書く側の補題 -/

namespace UnixCommons.Generics

/-! ## 暦の補題 -/

section

open Lib

variable {s : Int}

theorem days_eq : ∀ leap : Bool, ∀ month < 12,
    (days leap).getD month 0 = Calendar.daysBeforeMonth leap month := by decide

theorem monthDay_nat : ∀ leap : Bool, ∀ n : Nat, n < 365 + leap.toNat →
    monthIndex (days leap) ((n : Int) + 1) < 12 ∧
      Calendar.daysBeforeMonth leap (monthIndex (days leap) ((n : Int) + 1)) ≤ n ∧
      n + 1 ≤ Calendar.daysBeforeMonth leap (monthIndex (days leap) ((n : Int) + 1)) +
        Calendar.monthLength leap (monthIndex (days leap) ((n : Int) + 1)) := by
  decide +kernel

theorem month_bounds_nat (leap : Bool) (n : Nat) (hn : n < 365 + leap.toNat) :
    monthIndex (days leap) ((n : Int) + 1) < 12 ∧
      1 ≤ (n : Int) + 1 - (days leap).getD (monthIndex (days leap) ((n : Int) + 1)) 0 ∧
      (n : Int) + 1 - (days leap).getD (monthIndex (days leap) ((n : Int) + 1)) 0 ≤ 31 := by
  obtain ⟨hlt, hfirst, hlast⟩ := monthDay_nat leap n hn
  have hlength : ∀ leap : Bool, ∀ month < 12, Calendar.monthLength leap month ≤ 31 := by decide
  have hle := hlength leap _ hlt
  rw [days_eq leap _ hlt]
  omega

theorem month_bounds (leap : Bool) (h0 : 0 ≤ s) (h1 : s < 365 + leap.toNat) :
    monthIndex (days leap) (s + 1) < 12 ∧ 1 ≤ s + 1 - (days leap).getD (monthIndex (days leap) (s + 1)) 0 ∧
      s + 1 - (days leap).getD (monthIndex (days leap) (s + 1)) 0 ≤ 31 := by
  obtain ⟨n, rfl⟩ := Int.eq_ofNat_of_zero_le h0
  exact month_bounds_nat leap n (by omega)

theorem yearOfCycle_cases (h0 : 0 ≤ s) (h1 : s < 1461) :
    ∃ y yday leap, yearOfCycle s = (y, yday, leap) ∧ 0 ≤ y ∧ y ≤ 3 ∧ 0 ≤ yday ∧
      yday < 365 + leap.toNat ∧ (leap = true ↔ y = 2) ∧ y * 365 + (y + 1) / 4 + yday = s := by
  rw [yearOfCycle]
  split_ifs
  · exact ⟨_, _, _, rfl, by omega, by omega, by omega, by simp; omega, by simp, by omega⟩
  · exact ⟨_, _, _, rfl, by omega, by omega, by omega, by simp; omega, by simp, by omega⟩
  · exact ⟨_, _, _, rfl, by omega, by omega, by omega, by simp; omega, by simp, by omega⟩
  · exact ⟨_, _, _, rfl, by omega, by omega, by omega, by simp; omega, by simp, by omega⟩

structure CivilRange (tm : Tm) : Prop where
  sec : 0 ≤ tm.tmSec ∧ tm.tmSec < 60
  min : 0 ≤ tm.tmMin ∧ tm.tmMin < 60
  hour : 0 ≤ tm.tmHour ∧ tm.tmHour < 24
  mday : 1 ≤ tm.tmMday ∧ tm.tmMday ≤ 31
  mon : 0 ≤ tm.tmMon ∧ tm.tmMon < 12
  year : 1970 ≤ tm.tmYear + 1900 ∧ tm.tmYear + 1900 ≤ 9999
  wday : 0 ≤ tm.tmWday ∧ tm.tmWday < 7

theorem timeToGm_eq (h0 : 0 ≤ s) {y yday : Int} {leap : Bool}
    (hc : yearOfCycle (s / 86400 % 1461) = (y, yday, leap)) : timeToGm s =
      { tmSec := s % 60
        tmMin := s / 60 % 60
        tmHour := s / 3600 % 24
        tmMday := yday + 1 - (days leap).getD (monthIndex (days leap) (yday + 1)) 0
        tmMon := monthIndex (days leap) (yday + 1)
        tmYear := toInt (s / 86400 / 1461 * 4 + y + 70)
        tmWday := (s / 86400 + 4) % 7
        tmYday := yday } := by
  have hminutes : s.tdiv 60 = s / 60 := Int.tdiv_eq_ediv_of_nonneg h0
  have hhours : (s / 60).tdiv 60 = s / 3600 := by rw [Int.tdiv_eq_ediv_of_nonneg (by omega)]; omega
  have hday : (s / 3600).tdiv 24 = s / 86400 := by rw [Int.tdiv_eq_ediv_of_nonneg (by omega)]; omega
  have hday0 : 0 ≤ s / 86400 := by omega
  have hcycle : (s / 86400).tmod 1461 = s / 86400 % 1461 := Int.tmod_eq_emod_of_nonneg hday0
  have hyears : (s / 86400).tdiv 1461 = s / 86400 / 1461 := Int.tdiv_eq_ediv_of_nonneg hday0
  simp only [timeToGm, hminutes, hhours, hday, hcycle, hyears, hc, show (4 * 365 + 1 : Int) = 1461 from rfl]
  simp only [Int.tmod_eq_emod_of_nonneg h0, Int.tmod_eq_emod_of_nonneg (show 0 ≤ s / 60 by omega),
    Int.tmod_eq_emod_of_nonneg (show 0 ≤ s / 3600 by omega), Int.tmod_eq_emod_of_nonneg (show 0 ≤ s / 86400 + 4 by omega)]

theorem intResult_ok {n : Int} (h0 : -2 ^ 31 ≤ n) (h1 : n < 2 ^ 31) : intResult n = .ok n := by
  rw [intResult, if_pos ⟨h0, h1⟩]
  rfl

theorem gmToTime_eq {tm : Tm} (hyear : 70 ≤ tm.tmYear ∧ tm.tmYear < 2 ^ 31)
    (hhour : 0 ≤ tm.tmHour ∧ tm.tmHour < 24) (hmin : 0 ≤ tm.tmMin ∧ tm.tmMin < 60) :
    gmToTime tm = .ok
      (((tm.tmYear - 70) * 365 + (tm.tmYear - 69) / 4 + (days ((tm.tmYear - 70) % 4 = 2)).getD
      tm.tmMon.toNat 0 + tm.tmMday - 1) * 86400 + tm.tmHour * 3600 + tm.tmMin * 60 + tm.tmSec) := by
  have hleap : (tm.tmYear - 70 + 1).tdiv 4 = (tm.tmYear - 69) / 4 := by
    rw [Int.tdiv_eq_ediv_of_nonneg (by omega)]
    congr 1
    omega
  simp only [gmToTime, intResult_ok (show -2 ^ 31 ≤ tm.tmYear - 70 by omega) (by omega),
    intResult_ok (show -2 ^ 31 ≤ tm.tmHour * 3600 by omega) (by omega),
    intResult_ok (show -2 ^ 31 ≤ tm.tmMin * 60 by omega) (by omega)]
  change Except.ok _ = _
  rw [hleap]

theorem gmToTime_ok {tm : Tm} (h : CivilRange tm) :
    gmToTime tm = .ok
      (((tm.tmYear - 70) * 365 + (tm.tmYear - 69) / 4 + (days ((tm.tmYear - 70) % 4 = 2)).getD
      tm.tmMon.toNat 0 + tm.tmMday - 1) * 86400 + tm.tmHour * 3600 + tm.tmMin * 60 + tm.tmSec) := by
  obtain ⟨hyear, hyear'⟩ := h.year
  exact gmToTime_eq (by omega) h.hour h.min

theorem timeToGm_spec (h0 : 0 ≤ s) (h1 : s < year10000) : CivilRange (timeToGm s) ∧ gmToTime (timeToGm s) = .ok s := by
  have hbound : s / 86400 < 2932957 := by rw [year10000] at h1; omega
  obtain ⟨y, yday, leap, hc, hy, hy', hyday, hyday', hleap, hsum⟩ :=
    yearOfCycle_cases (show 0 ≤ s / 86400 % 1461 by omega) (by omega)
  obtain ⟨hmon, hmday, hmday'⟩ := month_bounds leap hyday hyday'
  have hyear : toInt (s / 86400 / 1461 * 4 + y + 70) = s / 86400 / 1461 * 4 + y + 70 := by
    rw [toInt, Int.bmod_eq_of_le] <;> omega
  have heq := timeToGm_eq h0 hc
  rw [hyear] at heq
  have hrange : CivilRange (timeToGm s) := by
    rw [heq]
    exact ⟨by simp; omega, by simp; omega, by simp; omega, ⟨hmday, hmday'⟩, by simp; omega, by simp; omega, by simp; omega⟩
  refine ⟨hrange, ?_⟩
  rw [gmToTime_ok hrange, heq]
  have hleap' : decide ((s / 86400 / 1461 * 4 + y + 70 - 70) % 4 = 2) = leap := by
    rw [Bool.eq_iff_iff, hleap, decide_eq_true_iff]
    omega
  simp only [hleap', Int.toNat_natCast]
  congr 1
  omega

end

section

open Lib String.AsciiStringManip

variable {et : ExtendedTime} {nested : Nat → Bytes → Except FormatError Bytes} {length : Nat}
    {out fmt : Bytes} {items : List FormatItem}
  {f : Specifier} {c : UInt8}

attribute [local grind =] caselessStart caselessEqual fieldText fixedDigits

@[simp] theorem specifierOf_char (f : Specifier) : specifierOf (ascii f.char) = some f := by
  cases f <;> decide

@[simp] theorem formatText_literal : formatText (.literal c :: items) = c :: formatText items := rfl

@[simp] theorem formatText_field : formatText (.field f :: items) = ascii '%' :: ascii f.char :: formatText items := rfl

@[simp] theorem expansion_cons {item : FormatItem} : expansion et
    (item :: items) = item.expand et ++ expansion et items := rfl

theorem addStr_ok {src : Bytes} (h : out.length + src.length ≤ length) : addStr length out src = .ok (out ++ src) := by
  rw [addStr, if_neg (by omega)]
  rfl

/-! ## 一つの項 -/

theorem tdiv_ten {x : Int} (h0 : 0 ≤ x) : x.tdiv 10 = x / 10 := Int.tdiv_eq_ediv_of_nonneg h0

theorem tmod_ten {x : Int} (h0 : 0 ≤ x) : x.tmod 10 = x % 10 := Int.tmod_eq_emod_of_nonneg h0

theorem spacedDay_text (h : CivilRange et.tm) :
    [if et.tm.tmMday.tdiv 10 ≠ 0 then UInt8.ofInt (et.tm.tmMday.tdiv 10 + 48) else ascii ' ',
    UInt8.ofInt (et.tm.tmMday.tmod 10 + 48)] =
      fieldText et .daySpaced := by
  obtain ⟨h0, h1⟩ := h.mday
  have hpos : 0 ≤ et.tm.tmMday := by omega
  simp only [fieldText, fixedDigits, tdiv_ten hpos, tmod_ten hpos, tmod_ten (show 0 ≤ et.tm.tmMday / 10 by omega)]
  by_cases hten : et.tm.tmMday < 10
  · have hdiv : et.tm.tmMday / 10 = 0 := by omega
    have hmod : et.tm.tmMday % 10 = et.tm.tmMday := by omega
    simp [hten, hdiv, hmod]
  · have hdiv : et.tm.tmMday / 10 ≠ 0 := by omega
    have hmod : et.tm.tmMday / 10 % 10 = et.tm.tmMday / 10 := by omega
    simp [hten, hdiv, hmod]

theorem toStrField_eq (h : CivilRange et.tm) (hf : f.common = true) :
    toStrField nested et length out f = addStr length out (fieldText et f) := by
  cases f with
  | daySpaced => exact congrArg (addStr length out) (spacedDay_text h)
  | date | hourShort | seconds | clock | zone => cases hf
  | _ => rfl

/-! ## ループ -/

theorem toStrLoop_literal (hc : c ≠ ascii '%') :
    toStrLoop nested et length (c :: fmt) out = addStr length out [c] >>= toStrLoop nested et length fmt := by
  cases fmt with
  | nil => simp [toStrLoop, hc]
  | cons f fmt => simp [toStrLoop, hc]

theorem toStrLoop_field :
    toStrLoop nested et length (ascii '%' :: ascii f.char :: fmt) out =
      toStrField nested et length out f >>= toStrLoop nested et length fmt := by
  simp [toStrLoop]

theorem toStrLoop_expansion (h : CivilRange et.tm) (hlit : ∀ c, .literal c ∈ items → c ≠ ascii '%')
    (hcom : ∀ f, .field f ∈ items → f.common = true) (hfits : out.length + (expansion et items).length ≤ length) :
    toStrLoop nested et length (formatText items) out = .ok (out ++ expansion et items) := by
  induction items generalizing out with
  | nil => simp [formatText, expansion, toStrLoop]; rfl
  | cons item items ih =>
      have hlit' : ∀ c, .literal c ∈ items → c ≠ ascii '%' := fun c hc => hlit c (List.mem_cons_of_mem _ hc)
      have hcom' : ∀ f, .field f ∈ items → f.common = true := fun f hf => hcom f (List.mem_cons_of_mem _ hf)
      simp only [expansion_cons, List.length_append] at hfits
      have hadd : addStr length out (item.expand et) = .ok (out ++ item.expand et) := addStr_ok (by omega)
      have hrest : toStrLoop nested et length (formatText items) (out ++ item.expand et) = _ :=
        ih hlit' hcom' (by simp; omega)
      cases item with
      | literal c =>
          rw [formatText_literal, toStrLoop_literal (hlit c (by simp))]
          exact (congrArg (· >>= _) hadd).trans (hrest.trans (by simp))
      | field f =>
          rw [formatText_field, toStrLoop_field, toStrField_eq h (hcom f (by simp))]
          exact (congrArg (· >>= _) hadd).trans (hrest.trans (by simp))

@[simp] theorem fixedDigits_length (n : Nat) (x : Int) : (fixedDigits n x).length = n := by
  induction n generalizing x with
  | zero => rfl
  | succ n ih => simp [fixedDigits, ih]

theorem format_expansion (hf : CommonFormat items) (h : CivilRange et.tm) (hfits : (expansion et items).length ≤ 256) :
    et.format (formatText items) = .ok (expansion et items) := by
  have hloop := @toStrLoop_expansion et (fun length fmt => toStrLoop (fun _ _ => throw .zero) et
      length fmt []) 256 [] items h
    (fun c hc => (hf.literals c hc).1) hf.common (by simpa using hfits)
  -- 年の四桁があるので、空ではない。
  have hne : expansion et items ≠ [] := by
    intro hnil
    have hyear : fieldText et .year = [] := List.flatMap_eq_nil_iff.mp hnil _ hf.year
    have hlen := congrArg List.length hyear
    simp [fieldText] at hlen
  have htext : toStr et 256 (formatText items) = .ok (expansion et items) := by
    simp only [toStr, hloop]
    exact if_neg hne
  rw [ExtendedTime.format, htext]

end

end UnixCommons.Generics

/-! ## 読む側の補題 -/

namespace UnixCommons.Generics

open Lib String.AsciiStringManip

section Digits

variable {n : Nat} {x value : Int} {c : UInt8} {digits rest : Bytes}

def digitsValue (value : Int) (digits : Bytes) : Int := digits.foldl (fun n c => n * 10 + (charValue c - 48)) value

theorem digit_spec : ∀ d : Nat, d < 10 → isOwned number (UInt8.ofInt (d + 48)) = true ∧ charValue
    (UInt8.ofInt (d + 48)) - 48 = d := by
  decide

theorem digitChar_spec (h0 : 0 ≤ x) (h1 : x < 10) :
    isOwned number (UInt8.ofInt (x + 48)) = true ∧ charValue (UInt8.ofInt (x + 48)) - 48 = x := by
  obtain ⟨d, rfl⟩ := Int.eq_ofNat_of_zero_le h0
  exact digit_spec d (by omega)

theorem fixedDigits_digits (h0 : 0 ≤ x) : ∀ c ∈ fixedDigits n x, isOwned number c = true := by
  induction n generalizing x with
  | zero => simp [fixedDigits]
  | succ n ih =>
      intro c hc
      rw [fixedDigits, tdiv_ten h0, tmod_ten h0, List.mem_append, List.mem_singleton] at hc
      cases hc with
      | inl hc => exact ih (by omega) c hc
      | inr hc => exact hc ▸ (digitChar_spec (by omega) (by omega)).1

theorem digitsValue_fixedDigits (h0 : 0 ≤ x) (h1 : x < 10 ^ n) : digitsValue 0 (fixedDigits n x) = x := by
  induction n generalizing x with
  | zero => simp at h1; simp [fixedDigits, digitsValue]; omega
  | succ n ih =>
      have hdiv : x / 10 < 10 ^ n := by rw [pow_succ] at h1; omega
      have hlast := (digitChar_spec (show 0 ≤ x % 10 by omega) (by omega)).2
      have hinit := ih (show 0 ≤ x / 10 by omega) hdiv
      rw [digitsValue] at hinit
      rw [fixedDigits, tdiv_ten h0, tmod_ten h0, digitsValue, List.foldl_append, hinit,
        List.foldl_cons, List.foldl_nil, hlast]
      omega

theorem readDigits_all (hd : ∀ d ∈ digits, isOwned number d = true) :
    readDigits digits.length value (digits ++ rest) = (digitsValue value digits, 0, rest) := by
  induction digits generalizing value with
  | nil => rfl
  | cons d digits ih =>
      have hstep := @ih (value * 10 + (charValue d - 48)) fun d hmem => hd d (List.mem_cons_of_mem _ hmem)
      cases digits with
      | nil => simp [readDigits, digitsValue]
      | cons e digits =>
          have he : isOwned number e = true := hd e (by simp)
          rw [List.length_cons, List.cons_append, readDigits]
          simp only [List.length_cons, List.cons_append, List.headD_cons, he]
          exact hstep

theorem readNumber_fixedDigits (hn : 0 < n) (h0 : 0 ≤ x) (h1 : x < 10 ^ n) :
    readNumber n (fixedDigits n x ++ rest) true = some (x, rest) := by
  have hlen := fixedDigits_length n x
  have hdigits := fixedDigits_digits h0 (n := n)
  have hread := @readDigits_all 0 _ rest hdigits
  rw [hlen, digitsValue_fixedDigits h0 h1] at hread
  cases hf : fixedDigits n x with
  | nil => simp [hf] at hlen; omega
  | cons d digits =>
      rw [hf] at hread hdigits
      have hd : isOwned number d = true := hdigits d (by simp)
      have hmin : min n (d :: digits ++ rest).length = n := by rw [hf] at hlen; simp at hlen ⊢; omega
      have hshort : ¬ (d :: digits ++ rest).length < n := by omega
      rw [readNumber, if_neg (by simp [hd]; simpa using hshort), hmin, hread]
      rfl

theorem readField_fixedDigits {invalid : Int → Bool} {error : String} (hn : 0 < n) (h0 : 0 ≤ x)
    (h1 : x < 10 ^ n) (hx : invalid x = false) :
    readField n (fixedDigits n x ++ rest) true invalid error = .ok (x, rest) := by
  simp [readField, readNumber_fixedDigits hn h0 h1, hx]
  rfl

end Digits

section Names

variable {start src p rest : Bytes} {table : List (Bytes × Bytes)}

structure NameTable (table : List (Bytes × Bytes)) : Prop where
  short : ∀ p ∈ table, p.2.length = 3 ∧ p.2 <+: p.1
  distinct : table.Pairwise fun p q => caselessEqual q.2 p.2 = false

theorem nameTable_days : NameTable (dayFullNames.zip dayNames) := ⟨by decide, by decide⟩

theorem nameTable_months : NameTable (monthFullNames.zip monthNames) := ⟨by decide, by decide⟩

theorem caselessStart_take (h : caselessStart start (p ++ rest) = true) : caselessStart (start.take p.length) p = true := by
  simp only [caselessStart, caselessEqual, decide_eq_true_eq] at h ⊢
  have htake := congrArg (List.take p.length) h
  rw [← List.map_take, ← List.map_take, List.take_take, Nat.min_comm, ← List.take_take, List.take_left' rfl] at htake
  rw [← htake, List.length_take]
  congr 1
  rcases Nat.le_total p.length start.length with hle | hle
  · simp [hle, List.take_of_length_le]
  · simp [hle]

theorem caselessStart_initial {short : Bytes} (hp : short <+: start)
    (h : caselessStart start src = true) : caselessStart short src = true := by
  obtain ⟨tail, rfl⟩ := hp
  simp only [caselessStart, caselessEqual, decide_eq_true_eq] at h ⊢
  have htake := congrArg (List.take short.length) h
  rw [← List.map_take, ← List.map_take, List.take_take, List.take_left' rfl] at htake
  simpa using htake

theorem caselessStart_append : caselessStart start (start ++ rest) = true := by
  simp [caselessStart, caselessEqual]

theorem findName_found (h : NameTable table) {i k : Nat} {full short rest : Bytes} (hi : table[i]? = some (full, short))
    (hsrc : short <+: src) (hfound : checkNames src full short = some rest) : findName src k table = some (k + i, rest) := by
  induction table generalizing i k with
  | nil => simp at hi
  | cons q table ih =>
      obtain ⟨full', short'⟩ := q
      cases i with
      | zero =>
          simp only [List.getElem?_cons_zero, Option.some.injEq, Prod.mk.injEq] at hi
          obtain ⟨rfl, rfl⟩ := hi
          simp [findName, hfound]
      | succ i =>
          rw [List.getElem?_cons_succ] at hi
          have hmem : (full, short) ∈ table := List.mem_of_getElem? hi
          obtain ⟨hhead, htail⟩ := List.pairwise_cons.mp h.distinct
          obtain ⟨hlen', hinit'⟩ := h.short (full', short') (by simp)
          have hlen := (h.short (full, short) (List.mem_cons_of_mem _ hmem)).1
          have hshort : caselessStart short' src = false := by
            obtain ⟨rest', rfl⟩ := hsrc
            have hne := hhead (full, short) hmem
            simpa [caselessStart, hlen', ← hlen] using hne
          have hfull : caselessStart full' src = false := by
            rw [Bool.eq_false_iff] at hshort ⊢
            exact fun hstart => hshort (caselessStart_initial hinit' hstart)
          have hnone : checkNames src full' short' = none := by simp [checkNames, checkName, hshort, hfull]
          have hrest := ih (i := i) (k := k + 1) ⟨fun p hp => h.short p (List.mem_cons_of_mem _ hp), htail⟩ hi
          simp only [findName, hnone, hrest]
          simp; omega

theorem checkNames_full : checkNames (start ++ rest) start p = some rest := by
  simp [checkNames, checkName, caselessStart_append]

theorem checkNames_short {short tail : Bytes} (h : tail ≠ [] → caselessStart tail rest = false) :
    checkNames (short ++ rest) (short ++ tail) short = some rest := by
  by_cases htail : tail = []
  · simp [htail, checkNames_full]
  · have hno : caselessStart (short ++ tail) (short ++ rest) = false := by
      have hrest := h htail
      simp only [caselessStart, caselessEqual, decide_eq_false_iff_not] at hrest ⊢
      rw [List.length_append, List.take_length_add_append, List.map_append, List.map_append, List.append_cancel_left_eq]
      exact hrest
    simp [checkNames, checkName, hno, caselessStart_append]

theorem findName_short (h : NameTable table) {i : Nat} {short tail : Bytes} (hi : table[i]? = some (short ++ tail, short))
    (hrest : tail ≠ [] → caselessStart tail rest = false) : findName (short ++ rest) 0 table = some (i, rest) := by
  have hfound := findName_found h (k := 0) hi ⟨rest, rfl⟩ (checkNames_short hrest)
  rwa [Nat.zero_add] at hfound

theorem findName_full (h : NameTable table) {i : Nat} {short tail : Bytes} (hi : table[i]? = some (short ++ tail, short)) :
    findName (short ++ tail ++ rest) 0 table = some (i, rest) := by
  have hinit : short <+: short ++ tail ++ rest := by simp
  have hfound := findName_found h (k := 0) hi hinit checkNames_full
  rwa [Nat.zero_add] at hfound

end Names

section Tails

variable {p rest : Bytes} {et : ExtendedTime} {items : List FormatItem} {f : Specifier}

def SafeTail (rest : Bytes) : Prop := ∀ tail ∈ dayTails ++ monthTails, tail ≠ [] → caselessStart tail rest = false

theorem safeTail_append (h : ∀ tail ∈ dayTails ++ monthTails, tail ≠ [] →
    caselessStart (tail.take p.length) p = false) : SafeTail (p ++ rest) := by
  intro tail hmem hne
  rw [Bool.eq_false_iff]
  intro hstart
  have hhead := caselessStart_take hstart
  rw [h tail hmem hne] at hhead
  cases hhead

theorem tails_letters : ∀ tail ∈ dayTails ++ monthTails, tail ≠ [] →
    isOwned alpha (tail.headD 0) = true ∧ isOwned alpha (tail.headD 0 - 0x20) = true ∧ toLower
      (tail.headD 0) = tail.headD 0 := by
  decide

theorem eq_or_of_toLower {c d : UInt8} (h : toLower c = d) : c = d ∨ c = d - 0x20 := by
  rw [toLower] at h
  split_ifs at h
  · exact .inr (by rw [← h]; simp)
  · exact .inl h

theorem nonAlpha_tails {c : UInt8} (hc : isOwned alpha c = false) :
    ∀ tail ∈ dayTails ++ monthTails, tail ≠ [] → caselessStart (tail.take 1) [c] = false := by
  intro tail hmem hne
  obtain ⟨hlow, hup, hsame⟩ := tails_letters tail hmem hne
  cases tail with
  | nil => exact absurd rfl hne
  | cons d tail =>
      rw [List.headD_cons] at hlow hup hsame
      simp only [caselessStart, caselessEqual, List.take_succ_cons, List.take_zero,
        List.length_singleton, List.map_cons, List.map_nil,
        List.cons.injEq, and_true, decide_eq_false_iff_not, hsame]
      intro hlower
      cases eq_or_of_toLower hlower with
      | inl heq => simp [heq, hlow] at hc
      | inr heq => simp [heq, hup] at hc

theorem names_tails : ∀ name ∈ dayNames ++ monthNames, ∀ tail ∈ dayTails ++ monthTails, tail ≠ [] →
    caselessStart (tail.take name.length) name = false := by
  decide +kernel

theorem safeTail_nonAlpha {c : UInt8} (hc : isOwned alpha c = false) : SafeTail (c :: rest) :=
  safeTail_append (p := [c]) (nonAlpha_tails hc)

theorem safeTail_name {name : Bytes} (tail : Bytes) (h : name ∈ dayNames ++ monthNames) :
    SafeTail (name ++ (tail ++ rest)) :=
  safeTail_append (names_tails name h)

theorem number_nonAlpha : ∀ c ∈ number, isOwned alpha c = false := forall_mem_bytes (by decide)

theorem fixedDigits_head {n : Nat} {x : Int} (hn : 0 < n) (h0 : 0 ≤ x) :
    ∃ c l, fixedDigits n x = c :: l ∧ isOwned alpha c = false := by
  have hlen := fixedDigits_length n x
  have hdigits := fixedDigits_digits h0 (n := n)
  cases hf : fixedDigits n x with
  | nil => simp [hf] at hlen; omega
  | cons c l =>
      rw [hf] at hdigits
      exact ⟨c, l, rfl, number_nonAlpha c (List.contains_iff_mem.mp (hdigits c (by simp)))⟩

theorem dayNames_spec : ∀ i < 7, (dayFullNames.zip dayNames)[i]? = some
    (dayNames.getD i [] ++ dayTails.getD i [], dayNames.getD i []) ∧
    dayFullNames.getD i [] = dayNames.getD i [] ++ dayTails.getD i [] ∧ dayNames.getD i
      [] ∈ dayNames ∧ dayTails.getD i [] ∈ dayTails := by
  decide

theorem monthNames_spec : ∀ i < 12,
    (monthFullNames.zip monthNames)[i]? = some (monthNames.getD i [] ++ monthTails.getD i [], monthNames.getD i []) ∧
      monthFullNames.getD i [] = monthNames.getD i [] ++ monthTails.getD i [] ∧ monthNames.getD i [] ∈ monthNames ∧
        monthTails.getD i [] ∈ monthTails := by
  decide

theorem safeTail_fieldText (h : CivilRange et.tm) (husec : 0 ≤ et.tmUsec) (hf : f.common = true) :
    SafeTail (fieldText et f ++ rest) := by
  obtain ⟨hsec, hmin, hhour, hmday, hmon, hyear, hwday⟩ := h
  obtain ⟨-, hdayFull, hday, -⟩ := dayNames_spec et.tm.tmWday.toNat (by omega)
  obtain ⟨-, hmonthFull, hmonth, -⟩ := monthNames_spec et.tm.tmMon.toNat (by omega)
  have hnumber {n : Nat} {x : Int} (hn : 0 < n) (h0 : 0 ≤ x) : SafeTail (fixedDigits n x ++ rest) := by
    obtain ⟨c, l, hcons, hc⟩ := fixedDigits_head hn h0
    rw [hcons]
    exact safeTail_nonAlpha hc
  cases f with
  | percent => exact safeTail_nonAlpha (by decide)
  | weekDay => exact safeTail_name [] (List.mem_append_left _ hday)
  | weekDayFull => rw [fieldText, hdayFull, List.append_assoc]; exact safeTail_name _ (List.mem_append_left _ hday)
  | month | monthH => exact safeTail_name [] (List.mem_append_right _ hmonth)
  | monthFull => rw [fieldText, hmonthFull, List.append_assoc]; exact safeTail_name _ (List.mem_append_right _ hmonth)
  | daySpaced =>
      rw [fieldText]
      split_ifs
      · exact safeTail_nonAlpha (by decide)
      · exact hnumber (by simp) (by omega)
  | day | hour | monthNumber | minute | usec | second | year => exact hnumber (by simp) (by omega)
  | date | hourShort | seconds | clock | zone => cases hf

theorem safeTail_expansion (h : CivilRange et.tm) (husec : 0 ≤ et.tmUsec) (hcom : ∀ f, .field f ∈ items → f.common = true)
    (hapart : (FormatItem.field f :: items).IsChain FormatItem.Apart) (hf : f.isName = true) :
    SafeTail (expansion et items) := by
  cases items with
  | nil => intro tail _ hne; simpa [expansion, caselessStart, caselessEqual, eq_comm] using hne
  | cons item items =>
      rw [List.isChain_cons_cons] at hapart
      cases item with
      | literal c => exact safeTail_nonAlpha (hapart.1 hf)
      | field g => exact safeTail_fieldText h husec (hcom g (by simp))

end Tails

section Fields

variable {source et : ExtendedTime} {items : List FormatItem} {f g : Specifier} {fmt rest : Bytes} {c : UInt8}

def assign (source : ExtendedTime) (f : Specifier) (et : ExtendedTime) : ExtendedTime :=
  match f with
  | .month | .monthFull | .monthH | .monthNumber => { et with tm := { et.tm with tmMon := source.tm.tmMon } }
  | .day | .daySpaced => { et with tm := { et.tm with tmMday := source.tm.tmMday } }
  | .hour => { et with tm := { et.tm with tmHour := source.tm.tmHour } }
  | .minute => { et with tm := { et.tm with tmMin := source.tm.tmMin } }
  | .usec => { et with tmUsec := source.tmUsec }
  | .second => { et with tm := { et.tm with tmSec := source.tm.tmSec } }
  | .year => { et with tm := { et.tm with tmYear := source.tm.tmYear } }
  | _ => et

theorem fromStrField_expand (h : CivilRange source.tm)
    (husec : 0 ≤ source.tmUsec ∧ source.tmUsec < 1000000) (hf : f.common = true)
    (hspaced : f = .daySpaced → 10 ≤ source.tm.tmMday) (hsafe : f.isName = true → SafeTail rest) :
    fromStrField true f (fieldText source f ++ rest) et = .ok (rest, assign source f et) := by
  obtain ⟨hsec, hmin, hhour, hmday, hmon, hyear, hwday⟩ := h
  obtain ⟨hday, hdayFull, -, hdayTail⟩ := dayNames_spec source.tm.tmWday.toNat (by omega)
  obtain ⟨hmonth, hmonthFull, -, hmonthTail⟩ := monthNames_spec source.tm.tmMon.toNat (by omega)
  have hindex : (source.tm.tmMon.toNat : Int) = source.tm.tmMon := Int.toNat_of_nonneg hmon.1
  cases f with
  | percent => simp [fromStrField, fieldText, assign]; rfl
  | weekDay =>
      have hfound := findName_short nameTable_days hday (hsafe rfl _ (List.mem_append_left _ hdayTail))
      simp only [fromStrField, fieldText, hfound]
      rfl
  | weekDayFull =>
      have hfound := @findName_full rest _ nameTable_days _ _ _ hday
      simp only [fromStrField, fieldText, hdayFull, hfound]
      rfl
  | month | monthH =>
      have hfound := findName_short nameTable_months hmonth (hsafe rfl _ (List.mem_append_right _ hmonthTail))
      simp only [fromStrField, fieldText, hfound, hindex]
      rfl
  | monthFull =>
      have hfound := @findName_full rest _ nameTable_months _ _ _ hmonth
      simp only [fromStrField, fieldText, hmonthFull, hfound, hindex]
      rfl
  | daySpaced =>
      have hten : ¬ source.tm.tmMday < 10 := by have := hspaced rfl; omega
      simp only [fromStrField, fieldText, if_neg hten]
      rw [readField_fixedDigits (by simp) (by omega) (by omega) (by simp; omega)]
      rfl
  | monthNumber =>
      simp only [fromStrField, fieldText]
      rw [readField_fixedDigits (by simp) (by omega) (by omega) (by simp; omega)]
      simp [assign, bind, Except.bind]
      rfl
  | year =>
      simp only [fromStrField, fieldText]
      rw [readField_fixedDigits (by simp) (by omega) (by omega) (by simp; omega)]
      simp [assign, bind, Except.bind]
      rfl
  | day | hour | minute | usec | second =>
      simp only [fromStrField, fieldText]
      rw [readField_fixedDigits (by simp) (by omega) (by omega) (by simp; omega)]
      rfl
  | date | hourShort | seconds | clock | zone => cases hf

theorem fromStrField_space (h : source.tm.tmMday < 10) :
    fromStrField true .daySpaced (fieldText source .daySpaced ++ rest) et =
      .error "day of month expected but not found" := by
  have hspace : isOwned number (ascii ' ') = false := by decide
  simp [fromStrField, fieldText, h, readField, readNumber, hspace]
  rfl

theorem fromStr_literal (hc : c ≠ ascii '%') : fromStr true (c :: fmt) (c :: rest) et = fromStr true fmt rest et := by
  cases fmt with
  | nil => simp [fromStr, fromStrChar, hc]
  | cons f fmt => simp [fromStr, fromStrChar, hc]

theorem fromStr_field : fromStr true (ascii '%' :: ascii f.char :: fmt) rest et =
    fromStrField true f rest et >>= fun p => fromStr true fmt p.1 p.2 := by
  simp [fromStr]

def assignAll (source : ExtendedTime) (items : List FormatItem) (et : ExtendedTime) : ExtendedTime :=
  items.foldl (fun et item => match item with | .literal _ => et | .field f => assign source f et) et

theorem fromStr_expansion (h : CivilRange source.tm) (husec : 0 ≤ source.tmUsec ∧ source.tmUsec < 1000000)
    (hlit : ∀ c, .literal c ∈ items → c ≠ ascii '%')
    (hcom : ∀ f, .field f ∈ items → f.common = true) (hapart : items.IsChain FormatItem.Apart) :
    fromStr true (formatText items) (expansion source items) et =
      if .field .daySpaced ∈ items ∧ source.tm.tmMday < 10 then .error "day of month expected but not found"
      else .ok (assignAll source items et) := by
  induction items generalizing et with
  | nil => simp [formatText, expansion, fromStr, assignAll]; rfl
  | cons item items ih =>
      have hlit' : ∀ c, .literal c ∈ items → c ≠ ascii '%' := fun c hc => hlit c (List.mem_cons_of_mem _ hc)
      have hcom' : ∀ f, .field f ∈ items → f.common = true := fun f hf => hcom f (List.mem_cons_of_mem _ hf)
      have hrest : ∀ et, fromStr true (formatText items) (expansion source items) et = _ :=
        fun et => ih hlit' hcom' hapart.tail
      cases item with
      | literal c =>
          rw [formatText_literal, expansion_cons, FormatItem.expand, List.singleton_append,
            fromStr_literal (hlit c (by simp)), hrest]
          simp [assignAll]
      | field f =>
          rw [formatText_field, expansion_cons, FormatItem.expand, fromStr_field]
          by_cases hspaced : f = .daySpaced ∧ source.tm.tmMday < 10
          · obtain ⟨rfl, hten⟩ := hspaced
            rw [fromStrField_space hten, if_pos ⟨by simp, hten⟩]
            rfl
          · rw [fromStrField_expand h husec (hcom f (by simp)) (fun hf => by simp [hf] at hspaced; exact hspaced)
              (safeTail_expansion h husec.1 hcom' hapart)]
            refine (hrest _).trans ?_
            have hiff : (FormatItem.field .daySpaced ∈ FormatItem.field f :: items ∧ source.tm.tmMday < 10) ↔
                (FormatItem.field .daySpaced ∈ items ∧ source.tm.tmMday < 10) := by
              simp only [List.mem_cons, FormatItem.field.injEq, eq_comm (a := Specifier.daySpaced)]
              tauto
            simp only [hiff]
            rfl

def SameField (source : ExtendedTime) (f : Specifier) (et : ExtendedTime) : Prop :=
  match f with
  | .month | .monthFull | .monthH | .monthNumber => et.tm.tmMon = source.tm.tmMon
  | .day | .daySpaced => et.tm.tmMday = source.tm.tmMday
  | .hour => et.tm.tmHour = source.tm.tmHour
  | .minute => et.tm.tmMin = source.tm.tmMin
  | .usec => et.tmUsec = source.tmUsec
  | .second => et.tm.tmSec = source.tm.tmSec
  | .year => et.tm.tmYear = source.tm.tmYear
  | _ => True

theorem assign_same : SameField source f (assign source f et) := by
  cases f <;> simp [SameField, assign]

theorem assign_keeps (h : SameField source g et) : SameField source g (assign source f et) := by
  cases f <;> cases g <;> first | exact h | exact rfl

theorem assignAll_same (h : .field g ∈ items ∨ SameField source g et) : SameField source g (assignAll source items et) := by
  induction items generalizing et with
  | nil => simpa [assignAll] using h
  | cons item items ih =>
      cases item with
      | literal c => exact ih (by simpa using h)
      | field f =>
          refine @ih (assign source f et) ?_
          rw [List.mem_cons, or_assoc] at h
          rcases h with h | h | h
          · cases h
            exact .inr assign_same
          · exact .inl h
          · exact .inr (assign_keeps h)

theorem assignAll_timezone : (assignAll source items et).timezone = et.timezone := by
  induction items generalizing et with
  | nil => rfl
  | cons item items ih =>
      cases item with
      | literal c => exact ih
      | field f => refine ih.trans ?_; cases f <;> rfl

theorem assignAll_toTime (hf : CommonFormat items) (hzone : et.timezone = .gmt) :
    (assignAll source items et).toTime = (gmToTime source.tm).map fun s => ⟨s, source.tmUsec⟩ := by
  have hsame {g} (hg : .field g ∈ items) : SameField source g (assignAll source items et) := assignAll_same (.inl hg)
  have hyear := hsame hf.year
  have hhour := hsame hf.hour
  have hmin := hsame hf.minute
  have hsec := hsame hf.second
  have husec := hsame hf.usec
  have hmday : (assignAll source items et).tm.tmMday = source.tm.tmMday := hf.day.elim hsame hsame
  have hmon : (assignAll source items et).tm.tmMon = source.tm.tmMon := by
    obtain ⟨g, hg, hmem⟩ := hf.month
    have hthis := hsame hmem
    cases g <;> simp_all [Specifier.isName, SameField]
  simp only [SameField] at hyear hhour hmin hsec husec
  have htime : gmToTime (assignAll source items et).tm = gmToTime source.tm := by
    simp only [gmToTime, hyear, hhour, hmin, hsec, hmday, hmon]
  simp only [ExtendedTime.toTime, assignAll_timezone, hzone, htime, husec]
  cases gmToTime source.tm <;> rfl

end Fields

section Set

variable {t : Time} {items : List FormatItem}

theorem set_expansion (hf : CommonFormat items) (h0 : 0 ≤ t.tvSec) (h1 : t.tvSec < year10000)
    (husec : 0 ≤ t.tvUsec ∧ t.tvUsec < 1000000) :
    Time.set (expansion t.getGmTime items) (formatText items) true =
      if .field .daySpaced ∈ items ∧ t.getGmTime.tm.tmMday < 10 then
        .error (.cannotParse (expansion t.getGmTime items) (formatText items) "day of month expected but not found")
      else .ok t := by
  obtain ⟨hrange, htime⟩ := timeToGm_spec h0 h1
  have hread := @fromStr_expansion t.getGmTime (.ofGm 0 0) items hrange husec
      (fun c hc => (hf.literals c hc).1) hf.common hf.apart
  by_cases hspaced : .field .daySpaced ∈ items ∧ t.getGmTime.tm.tmMday < 10
  · rw [if_pos hspaced] at hread ⊢
    rw [Time.set, hread]
    rfl
  · have hresult := @assignAll_toTime t.getGmTime (.ofGm 0 0) items hf rfl
    rw [show gmToTime t.getGmTime.tm = .ok t.tvSec from htime] at hresult
    rw [if_neg hspaced] at hread ⊢
    simp only [Time.set, hread, hresult]
    rfl

end Set

end UnixCommons.Generics
