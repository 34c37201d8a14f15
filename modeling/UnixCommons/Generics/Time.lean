import UnixCommons.String.AsciiStringManip

/-!
# 時刻

`Generics/Time` の、時刻の比較、暦の日時との変換、曜日と月の名前の写し。`long` の値は、ここで起こる大きさでは溢れないので整数で表す。`int` への
代入は下位の 32 ビットを取り、`int` の計算の溢れは、定義のない計算なので止まる。
-/

namespace UnixCommons.Generics

open Lib String.AsciiStringManip

structure Time where
  tvSec : Int
  tvUsec : Int
  deriving DecidableEq, Repr

def Time.zero : Time := ⟨0, 0⟩

def Time.less (tv₁ tv₂ : Time) : Bool := tv₁.tvSec < tv₂.tvSec ∨ (tv₁.tvSec = tv₂.tvSec ∧ tv₁.tvUsec < tv₂.tvUsec)

structure Tm where
  tmSec : Int
  tmMin : Int
  tmHour : Int
  tmMday : Int
  tmMon : Int
  tmYear : Int
  tmWday : Int
  tmYday : Int
  deriving DecidableEq, Repr

inductive TimeError
  | overflow
  deriving DecidableEq, Repr

/-! ## `int` の値 -/

def toInt (value : Int) : Int := value.bmod (2 ^ 32)

def intResult (value : Int) : Except TimeError Int := if -2 ^ 31 ≤ value ∧
    value < 2 ^ 31 then return value else throw .overflow

/-! ## 暦 -/

def days (leap : Bool) : List Int :=
  if leap then [0, 31, 60, 91, 121, 152, 182, 213, 244, 274, 305, 335]
    else [0, 31, 59, 90, 120, 151, 181, 212, 243, 273, 304, 334]

def gmToTime (et : Tm) : Except TimeError Int := do
  let years ← intResult (et.tmYear - 70)
  let hour ← intResult (et.tmHour * 3600)
  let min ← intResult (et.tmMin * 60)
  return (years * 365 + (years + 1).tdiv 4 + (days (years % 4 = 2)).getD et.tmMon.toNat 0 +
    et.tmMday - 1) * 86400 + hour + min + et.tmSec

/-- 四年の周期の中の日の、年、年の初めからの日数、閏年であること。 -/
def yearOfCycle (time : Int) : Int × Int × Bool :=
  if time ≥ 365 then
    if time ≥ 365 * 2 then
      if time ≥ 365 * 3 + 1 then (3, time - (365 * 3 + 1), false) else (2, time - 365 * 2, true)
    else
      (1, time - 365, false)
  else
    (0, time, false)

/-- `std::lower_bound(CDAYS + 1, CDAYS + 12, time) - 1` の位置。 -/
def monthIndex (cdays : List Int) (time : Int) : Nat := ((cdays.drop 1).takeWhile (· < time)).length

def timeToGm (time : Int) : Tm :=
  let minutes := time.tdiv 60
  let hours := minutes.tdiv 60
  let day := hours.tdiv 24
  let cycle := yearOfCycle (day.tmod (4 * 365 + 1))
  let years := day.tdiv (4 * 365 + 1) * 4 + cycle.1
  let cdays := days cycle.2.2
  let month := monthIndex cdays (cycle.2.1 + 1)
  { tmSec := time.tmod 60
    tmMin := minutes.tmod 60
    tmHour := hours.tmod 24
    tmMday := cycle.2.1 + 1 - cdays.getD month 0
    tmMon := month
    tmYear := toInt (years + 70)
    tmWday := (day + 4).tmod 7
    tmYday := cycle.2.1 }

/-! ## 名前 -/

def dayNames : List Bytes :=
  List.map (List.map ascii) [['S', 'u', 'n'], ['M', 'o', 'n'], ['T', 'u', 'e'], ['W', 'e', 'd'],
    ['T', 'h', 'u'], ['F', 'r', 'i'], ['S', 'a', 't']]

def monthNames : List Bytes :=
  List.map (List.map ascii) [['J', 'a', 'n'], ['F', 'e', 'b'], ['M', 'a', 'r'], ['A', 'p', 'r'],
    ['M', 'a', 'y'], ['J', 'u', 'n'], ['J', 'u', 'l'],
    ['A', 'u', 'g'], ['S', 'e', 'p'], ['O', 'c', 't'], ['N', 'o', 'v'], ['D', 'e', 'c']]

end UnixCommons.Generics

/-!
## 時刻の計算

`Time.hpp` の、時刻の和、差、符号、整数との積と商、比較、`print` の写し。`time_t`、`suseconds_t`、`long long` は 64 ビットの符号付き整数であり、
途中の計算が溢れれば、定義のない計算なので止まる。
-/

namespace UnixCommons.Generics

def usecMax : Int := 1000000

def longResult (value : Int) : Except TimeError Int := if -2 ^ 63 ≤ value ∧
    value < 2 ^ 63 then return value else throw .overflow

def Time.neg (tv : Time) : Except TimeError Time := do
  if tv.tvUsec ≠ 0 then
    return ⟨← longResult ((← longResult (-tv.tvSec)) - 1), ← longResult (usecMax - tv.tvUsec)⟩
  else
    return ⟨← longResult (-tv.tvSec), 0⟩

def Time.abs (tv : Time) : Except TimeError Time := if tv.tvSec < 0 then tv.neg else return tv

def Time.add (tv₁ tv₂ : Time) : Except TimeError Time := do
  if (← longResult (tv₁.tvUsec + tv₂.tvUsec)) ≥ usecMax then
    return ⟨← longResult ((← longResult (tv₁.tvSec + tv₂.tvSec)) + 1),
      ← longResult ((← longResult (tv₁.tvUsec + tv₂.tvUsec)) - usecMax)⟩
  else
    return ⟨← longResult (tv₁.tvSec + tv₂.tvSec), ← longResult (tv₁.tvUsec + tv₂.tvUsec)⟩

def Time.sub (tv₁ tv₂ : Time) : Except TimeError Time := do
  if tv₁.tvUsec < tv₂.tvUsec then
    return ⟨← longResult ((← longResult (tv₁.tvSec - tv₂.tvSec)) - 1),
      ← longResult ((← longResult (usecMax + tv₁.tvUsec)) - tv₂.tvUsec)⟩
  else
    return ⟨← longResult (tv₁.tvSec - tv₂.tvSec), ← longResult (tv₁.tvUsec - tv₂.tvUsec)⟩

/-- `time_t` との `operator +`。`operator +=` も同じである。 -/
def Time.addSeconds (tv : Time) (time : Int) : Except TimeError Time := do
  return ⟨← longResult (tv.tvSec + time), tv.tvUsec⟩

/-- `time_t` との `operator -`。`operator -=` も同じである。 -/
def Time.subSeconds (tv : Time) (time : Int) : Except TimeError Time := do
  return ⟨← longResult (tv.tvSec - time), tv.tvUsec⟩

def helperAbs (value : Int) : Except TimeError Int := if value < 0 then intResult (-value) else return value

def helperMul (tv : Time) (multiplier : Int) : Except TimeError Time := do
  let sec ← longResult (tv.tvSec * multiplier)
  let usec ← longResult (tv.tvUsec * multiplier)
  return ⟨← longResult (sec + usec.tdiv usecMax), usec.tmod usecMax⟩

def helperDiv (tv : Time) (divisor : Int) : Except TimeError Time := do
  let quotient ← longResult (tv.tvSec.tdiv divisor)
  let rest ← longResult (tv.tvSec - (← longResult (quotient * divisor)))
  let usec ← longResult ((← longResult (rest * usecMax)) + tv.tvUsec)
  return ⟨quotient, ← longResult (usec.tdiv divisor)⟩

def withSign (helper : Time → Int → Except TimeError Time) (tv : Time) (value : Int) : Except TimeError Time := do
  let time ← helper (← tv.abs) (← helperAbs value)
  if tv.tvSec < 0 ↔ value < 0 then return time else time.neg

def Time.mul (tv : Time) (multiplier : Int) : Except TimeError Time := withSign helperMul tv multiplier

def Time.div (tv : Time) (divisor : Int) : Except TimeError Time := withSign helperDiv tv divisor

def Time.equal (tv₁ tv₂ : Time) : Bool := tv₁.tvSec = tv₂.tvSec ∧ tv₁.tvUsec = tv₂.tvUsec

def Time.lessEqual (tv₁ tv₂ : Time) : Bool := !tv₂.less tv₁

def Time.greater (tv₁ tv₂ : Time) : Bool := tv₂.less tv₁

def Time.greaterEqual (tv₁ tv₂ : Time) : Bool := !tv₁.less tv₂

def Time.microseconds (tv : Time) : Except TimeError Int := do
  longResult ((← longResult (tv.tvSec * usecMax)) + tv.tvUsec)

structure Print where
  sign : Int
  integerPart : Int
  fractionalPart : Int
  deriving DecidableEq, Repr

def Time.print (tv : Time) : Except TimeError Print := do
  if tv.tvSec > 0 then
    return ⟨1, tv.tvSec, tv.tvUsec⟩
  else if tv.tvSec ≠ 0 then
    if tv.tvUsec ≠ 0 then
      return ⟨-1, ← longResult ((← longResult (-tv.tvSec)) - 1), ← longResult (usecMax - tv.tvUsec)⟩
    else
      return ⟨-1, ← longResult (-tv.tvSec), 0⟩
  else if tv.tvUsec ≠ 0 then
    return ⟨1, 0, tv.tvUsec⟩
  else
    return ⟨0, 0, 0⟩

end UnixCommons.Generics

/-!
## 時刻の書式

`ExtendedTime::to_str_` と `ExtendedTime::from_str_` の写しと、それが読み書きする書式の項。書式は NUL を含まないバイトの並びである。
-/

namespace UnixCommons.Generics

open Lib String.AsciiStringManip

/-! ### 時刻の書式

`ExtendedTime::to_str_` と `ExtendedTime::from_str_` の写し。書式は NUL を含まないバイトの並びである。現地時の計算は、引数の `mktime` による。
-/

/-- `TZ_GMT` と `TZ_LOCAL`。`mktime` は、秒と `tm_gmtoff` を与える。`none` は -1 である。 -/
inductive TimeZone
  | gmt
  | local (mktime : Tm → Option (Int × Int))

structure ExtendedTime where
  tm : Tm
  tmUsec : Int
  timezone : TimeZone

/-- `ExtendedTime(sec, usec, TZ_GMT)`。 -/
def ExtendedTime.ofGm (sec usec : Int) : ExtendedTime := ⟨timeToGm sec, usec, .gmt⟩

def Time.getGmTime (t : Time) : ExtendedTime := .ofGm t.tvSec t.tvUsec

def ExtendedTime.toTime (et : ExtendedTime) : Except TimeError Time := do
  match et.timezone with
  | .gmt => return ⟨← gmToTime et.tm, et.tmUsec⟩
  | .local mktime => return ⟨((mktime et.tm).map Prod.fst).getD (-1), et.tmUsec⟩

/-- 失敗。`zero` は、`to_str_` が 0 を返すことである。 -/
inductive FormatError
  | zero
  | cannotFormat (fmt : Bytes)
  | cannotParse (value fmt : Bytes) (error : String)
  | time (e : TimeError)
  deriving DecidableEq

/-- `%` の後の文字の意味。 -/
inductive Specifier
  | percent
  | weekDay
  | weekDayFull
  | month
  | monthFull
  | monthH
  | day
  | daySpaced
  | date
  | hour
  | hourShort
  | monthNumber
  | minute
  | usec
  | seconds
  | second
  | clock
  | year
  | zone
  deriving DecidableEq, Repr

/-- `switch` の場合の文字。 -/
def Specifier.char : Specifier → Char
  | .percent => '%'
  | .weekDay => 'a'
  | .weekDayFull => 'A'
  | .month => 'b'
  | .monthFull => 'B'
  | .monthH => 'h'
  | .day => 'd'
  | .daySpaced => 'e'
  | .date => 'F'
  | .hour => 'H'
  | .hourShort => 'k'
  | .monthNumber => 'm'
  | .minute => 'M'
  | .usec => 'q'
  | .seconds => 's'
  | .second => 'S'
  | .clock => 'T'
  | .year => 'Y'
  | .zone => 'z'

def specifiers : List Specifier :=
  [.percent, .weekDay, .weekDayFull, .month, .monthFull, .monthH, .day, .daySpaced, .date, .hour,
    .hourShort, .monthNumber, .minute, .usec, .seconds, .second, .clock, .year, .zone]

def specifierOf (c : UInt8) : Option Specifier := specifiers.find? fun f => ascii f.char = c

def dayTails : List Bytes :=
  List.map (List.map ascii) [['d', 'a', 'y'], ['d', 'a', 'y'], ['s', 'd', 'a', 'y'],
    ['n', 'e', 's', 'd', 'a', 'y'], ['r', 's', 'd', 'a', 'y'],
    ['d', 'a', 'y'], ['u', 'r', 'd', 'a', 'y']]

def monthTails : List Bytes :=
  List.map (List.map ascii) [['u', 'a', 'r', 'y'], ['r', 'u', 'a', 'r', 'y'], ['c', 'h'],
    ['i', 'l'], [], ['e'], ['y'], ['u', 's', 't'],
    ['t', 'e', 'm', 'b', 'e', 'r'], ['o', 'b', 'e', 'r'], ['e', 'm', 'b', 'e', 'r'], ['e', 'm', 'b', 'e', 'r']]

def dayFullNames : List Bytes := List.zipWith (· ++ ·) dayNames dayTails

def monthFullNames : List Bytes := List.zipWith (· ++ ·) monthNames monthTails

def addStr (length : Nat) (out src : Bytes) : Except FormatError Bytes :=
  if out.length + src.length > length then throw .zero else return out ++ src

/-- `add_num<SIZE>` の文字。 -/
def fixedDigits : Nat → Int → Bytes
  | 0, _ => []
  | n + 1, number => fixedDigits n (number.tdiv 10) ++ [UInt8.ofInt (number.tmod 10 + 48)]

def intToStr (value : Int) : Bytes := (if value < 0 then [ascii '-'] else []) ++
    (Nat.toDigits 10 value.natAbs).map ascii

def zoneText (et : ExtendedTime) : Except FormatError Bytes :=
  match et.timezone with
  | .gmt => return [ascii '+'] ++ fixedDigits 4 0
  | .local mktime =>
      match mktime et.tm with
      | none => throw .zero
      | some (_, gmtoff) =>
          let diff := (gmtoff.natAbs : Int) / 60
          return [if gmtoff < 0 then ascii '-' else ascii '+'] ++ fixedDigits 4 (diff / 60 * 100 + diff % 60)

/-- `to_str_` の `switch`。`nested` は、書式の全体を書く、内側の呼び出しである。 -/
def toStrField (nested : Nat → Bytes → Except FormatError Bytes) (et : ExtendedTime) (length : Nat)
    (out : Bytes) (f : Specifier) : Except FormatError Bytes :=
  match f with
  | .percent => addStr length out [ascii '%']
  | .weekDay => addStr length out (dayNames.getD et.tm.tmWday.toNat [])
  | .weekDayFull => addStr length out (dayFullNames.getD et.tm.tmWday.toNat [])
  | .month | .monthH => addStr length out (monthNames.getD et.tm.tmMon.toNat [])
  | .monthFull => addStr length out (monthFullNames.getD et.tm.tmMon.toNat [])
  | .day => addStr length out (fixedDigits 2 et.tm.tmMday)
  | .daySpaced =>
      let t := et.tm.tmMday.tdiv 10
      addStr length out [if t ≠ 0 then UInt8.ofInt (t + 48) else ascii ' ', UInt8.ofInt (et.tm.tmMday.tmod 10 + 48)]
  | .date => do return out ++ (← nested (length - out.length)
      ([['%', 'Y', '-', '%', 'm', '-', '%', 'd']].flatten.map ascii))
  | .hour => addStr length out (fixedDigits 2 et.tm.tmHour)
  | .hourShort => addStr length out (intToStr et.tm.tmHour)
  | .monthNumber => addStr length out (fixedDigits 2 (et.tm.tmMon + 1))
  | .minute => addStr length out (fixedDigits 2 et.tm.tmMin)
  | .usec => addStr length out (fixedDigits 6 et.tmUsec)
  | .seconds => do
      match et.toTime with
      | .error e => throw (.time e)
      | .ok t => addStr length out (intToStr t.tvSec)
  | .second => addStr length out (fixedDigits 2 et.tm.tmSec)
  | .clock => do return out ++ (← nested (length - out.length)
      ([['%', 'H', ':', '%', 'M', ':', '%', 'S']].flatten.map ascii))
  | .year => addStr length out (fixedDigits 4 (et.tm.tmYear + 1900))
  | .zone => do addStr length out (← zoneText et)

def toStrLoop (nested : Nat → Bytes → Except FormatError Bytes) (et : ExtendedTime) (length : Nat) :
    Bytes → Bytes → Except FormatError Bytes
  | [], out => return out
  | [c], out => if c = ascii '%' then throw .zero else addStr length out [c]
  | c :: f :: fmt, out => do
      if c = ascii '%' then
        match specifierOf f with
        | none => throw .zero
        | some f => toStrLoop nested et length fmt (← toStrField nested et length out f)
      else
        toStrLoop nested et length (f :: fmt) (← addStr length out [c])

/-- `to_str_`。内側の書式 `%Y-%m-%d` と `%H:%M:%S` は、さらに内側の書式を使わない。何も書かなければ 0 を返す。 -/
def toStr (et : ExtendedTime) (length : Nat) (fmt : Bytes) : Except FormatError Bytes := do
  let inner := fun length fmt => toStrLoop (fun _ _ => throw .zero) et length fmt []
  let out ← toStrLoop inner et length fmt []
  if out = [] then throw .zero else return out

def ExtendedTime.format (et : ExtendedTime) (fmt : Bytes) : Except FormatError Bytes :=
  match toStr et 256 fmt with
  | .error .zero => throw (.cannotFormat fmt)
  | r => r

def spaceChars : Bytes := [9, 10, 11, 12, 13, 32]

def checkName (src name : Bytes) : Option Bytes := if caselessStart name src then some (src.drop name.length) else none

def checkNames (src name₁ name₂ : Bytes) : Option Bytes := (checkName src name₁).or (checkName src name₂)

def findName (src : Bytes) : Nat → List (Bytes × Bytes) → Option (Nat × Bytes)
  | _, [] => none
  | i, (full, short) :: names =>
      match checkNames src full short with
      | some rest => some (i, rest)
      | none => findName src (i + 1) names

/-- `read_number` の `do` ループ。 -/
def readDigits : Nat → Int → Bytes → Int × Nat × Bytes
  | 0, n, src => (n, 0, src)
  | left + 1, n, [] => (n, left + 1, [])
  | left + 1, n, c :: src =>
      let n := n * 10 + (charValue c - 48)
      if left ≠ 0 ∧ isOwned number (src.headD 0) then readDigits left n src else (n, left, src)

def readNumber (size : Nat) (src : Bytes) (strict : Bool) : Option (Int × Bytes) :=
  if src = [] ∨ ¬ isOwned number (src.headD 0) ∨ (strict ∧ src.length < size) then none
  else
    let (n, left, rest) := readDigits (min size src.length) 0 src
    if ¬ strict ∨ left = 0 then some (n, rest) else none

def readField (size : Nat) (src : Bytes) (strict : Bool) (invalid : Int → Bool) (error : String) :
    Except String (Int × Bytes) :=
  match readNumber size src strict with
  | none => throw error
  | some (n, rest) => if invalid n then throw error else return (n, rest)

/-- `from_str_` の `switch`。 -/
def fromStrField (strict : Bool) (f : Specifier) (src : Bytes) (et : ExtendedTime) : Except String
    (Bytes × ExtendedTime) :=
  match f with
  | .percent => if src.head? = some (ascii '%') then return (src.tail, et) else throw "% sign is expected but not found"
  | .weekDay | .weekDayFull =>
      match findName src 0 (dayFullNames.zip dayNames) with
      | none => throw "weekday name is expected but not found"
      | some (_, rest) => return (rest, et)
  | .month | .monthFull | .monthH =>
      match findName src 0 (monthFullNames.zip monthNames) with
      | none => throw "month name is expected but not found"
      | some (m, rest) => return (rest, { et with tm := { et.tm with tmMon := m } })
  | .day | .daySpaced => do
      let (n, rest) ← readField 2 src strict (fun n => n < 1 ∨ n > 31) "day of month expected but not found"
      return (rest, { et with tm := { et.tm with tmMday := n } })
  | .hour => do
      let (n, rest) ← readField 2 src strict (· > 23) "hours expected but not found"
      return (rest, { et with tm := { et.tm with tmHour := n } })
  | .monthNumber => do
      let (n, rest) ← readField 2 src strict (fun n => n < 1 ∨ n > 12) "month number expected but not found"
      return (rest, { et with tm := { et.tm with tmMon := n - 1 } })
  | .minute => do
      let (n, rest) ← readField 2 src strict (· > 59) "minutes expected but not found"
      return (rest, { et with tm := { et.tm with tmMin := n } })
  | .usec => do
      let (n, rest) ← readField 6 src strict (· ≥ 1000000) "microseconds expected but not found"
      return (rest, { et with tmUsec := n })
  | .second => do
      let (n, rest) ← readField 2 src strict (· > 59) "seconds expected but not found"
      return (rest, { et with tm := { et.tm with tmSec := n } })
  | .year => do
      let (n, rest) ← readField 4 src strict (· < 1970) "year expected but not found"
      return (rest, { et with tm := { et.tm with tmYear := n - 1900 } })
  | .date | .hourShort | .seconds | .clock | .zone => throw "unknown format specifier"

def fromStrChar (strict : Bool) (c : UInt8) (src : Bytes) : Except String Bytes :=
  if ¬ strict ∧ isOwned spaceChars c then return src.dropWhile (isOwned spaceChars ·)
  else if src.head? = some c then return src.tail
  else throw "character is expected but not found"

def fromStr (strict : Bool) : Bytes → Bytes → ExtendedTime → Except String ExtendedTime
  | [], _, et => return et
  | [c], src, et => do
      if c = ascii '%' then throw "unknown format specifier"
      else
        let _ ← fromStrChar strict c src
        return et
  | c :: f :: fmt, src, et => do
      if c = ascii '%' then
        match specifierOf f with
        | none => throw "unknown format specifier"
        | some f =>
            let (src, et) ← fromStrField strict f src et
            fromStr strict fmt src et
      else
        fromStr strict (f :: fmt) (← fromStrChar strict c src) et

def Time.set (value fmt : Bytes) (strict : Bool) : Except FormatError Time :=
  match fromStr strict fmt value (.ofGm 0 0) with
  | .error error => throw (.cannotParse value fmt error)
  | .ok et =>
      match et.toTime with
      | .error e => throw (.time e)
      | .ok t => return t

/-! ### 書式の項

書式を、普通の文字と、`%` で始まる項との並びとして表す。書く側と読む側の両方にある項だけを使い、時刻の全ての値を含む書式を定める。
-/

inductive FormatItem
  | literal (c : UInt8)
  | field (f : Specifier)
  deriving DecidableEq, Repr

def FormatItem.text : FormatItem → Bytes
  | .literal c => [c]
  | .field f => [ascii '%', ascii f.char]

def formatText (items : List FormatItem) : Bytes := items.flatMap FormatItem.text

def Specifier.common : Specifier → Bool
  | .date | .hourShort | .seconds | .clock | .zone => false
  | _ => true

def Specifier.isName : Specifier → Bool
  | .weekDay | .weekDayFull | .month | .monthFull | .monthH => true
  | _ => false

def FormatItem.Apart : FormatItem → FormatItem → Prop
  | .field f, .literal c => f.isName = true → isOwned alpha c = false
  | _, _ => True

/-- 両方の側が読むことのできる書式。年、月、日、時、分、秒、マイクロ秒を含む。 -/
structure CommonFormat (items : List FormatItem) : Prop where
  literals : ∀ c, .literal c ∈ items → c ≠ ascii '%' ∧ c ≠ 0
  common : ∀ f, .field f ∈ items → f.common = true
  apart : items.IsChain FormatItem.Apart
  year : .field .year ∈ items
  month : ∃ f, (f.isName = true ∧ f ≠ .weekDay ∧ f ≠ .weekDayFull ∨ f = .monthNumber) ∧ .field f ∈ items
  day : .field .day ∈ items ∨ .field .daySpaced ∈ items
  hour : .field .hour ∈ items
  minute : .field .minute ∈ items
  second : .field .second ∈ items
  usec : .field .usec ∈ items

def fieldText (et : ExtendedTime) : Specifier → Bytes
  | .percent => [ascii '%']
  | .weekDay => dayNames.getD et.tm.tmWday.toNat []
  | .weekDayFull => dayFullNames.getD et.tm.tmWday.toNat []
  | .month | .monthH => monthNames.getD et.tm.tmMon.toNat []
  | .monthFull => monthFullNames.getD et.tm.tmMon.toNat []
  | .day => fixedDigits 2 et.tm.tmMday
  | .daySpaced => if et.tm.tmMday < 10 then [ascii ' ', UInt8.ofInt (et.tm.tmMday + 48)] else fixedDigits 2 et.tm.tmMday
  | .hour => fixedDigits 2 et.tm.tmHour
  | .monthNumber => fixedDigits 2 (et.tm.tmMon + 1)
  | .minute => fixedDigits 2 et.tm.tmMin
  | .usec => fixedDigits 6 et.tmUsec
  | .second => fixedDigits 2 et.tm.tmSec
  | .year => fixedDigits 4 (et.tm.tmYear + 1900)
  | .date | .hourShort | .seconds | .clock | .zone => []

def FormatItem.expand (et : ExtendedTime) : FormatItem → Bytes
  | .literal c => [c]
  | .field f => fieldText et f

def expansion (et : ExtendedTime) (items : List FormatItem) : Bytes := items.flatMap (FormatItem.expand et)

/-- `time_to_gm` の暦の、10000 年の始まり。 -/
def year10000 : Int := ((10000 - 1970) * 365 + (10000 - 1970 + 1) / 4) * 86400

end UnixCommons.Generics
