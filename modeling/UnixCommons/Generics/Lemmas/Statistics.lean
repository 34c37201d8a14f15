import Mathlib.Data.Int.ConditionallyCompleteOrder
import UnixCommons.Generics.Lemmas.TimeArithmetic
import UnixCommons.Generics.Statistics

/-!
# 統計の補題

溜めたデータが知らせるべき物を、渡された値の列について述べ、値を一つ渡す計算がそれを保つことを示す。
-/

namespace UnixCommons.Generics.Statistics

open Lib

variable {α : Type} {m : Measure α}

/-! ## 計算の意味 -/

structure Scale (m : Measure α) where
  value : α → Int
  valid : α → Bool
  fits : Int → Bool
  divides : Int → Nat → Bool
  valid_zero : valid m.zero = true
  value_zero : value m.zero = 0
  less_iff : ∀ {a b}, valid a = true → valid b = true → (m.less a b = true ↔ value a < value b)
  add : ∀ {a b}, valid a = true → valid b = true → fits (value a + value b) = true →
    ∃ c, m.add a b = some c ∧ valid c = true ∧ value c = value a + value b
  divide : ∀ {a} {count : UInt32}, valid a = true → fits (value a) = true → count ≠ 0 →
    divides (value a) count.toNat = true →
    ∃ c, m.divide a count = some c ∧ value c = (value a).tdiv count.toNat

def Scale.total (scale : Scale m) (recent : List α) : Int := (recent.map scale.value).sum

theorem Scale.total_concat (scale : Scale m) (recent : List α) (value : α) :
    scale.total (recent ++ [value]) = scale.total recent + scale.value value := by simp [Scale.total]

namespace IntegralType

variable {t : IntegralType} {a : Int}

theorem holds_iff : t.holds a = true ↔
    if t.signed then -2 ^ (t.bits - 1) ≤ a ∧ a < 2 ^ (t.bits - 1) else 0 ≤ a ∧ a < 2 ^ t.bits := by
  rw [holds]
  split_ifs
  · rw [Bool.and_eq_true, decide_eq_true_iff, decide_eq_true_iff]
  · rw [Bool.and_eq_true, decide_eq_true_iff, decide_eq_true_iff]

theorem two_pow_bits (t : IntegralType) : (2 : Int) ^ t.bits = 2 * 2 ^ (t.bits - 1) := by
  rw [← pow_succ']
  congr 1
  have := t.pos
  omega

theorem store_of_holds (h : t.holds a = true) : t.store a = a := by
  have hpow := t.two_pow_bits
  rw [holds_iff] at h
  rw [store]
  split_ifs at h ⊢ with hsigned
  · rw [Int.bmod_eq_of_le]
    · push_cast
      omega
    · push_cast
      omega
  · exact Int.emod_eq_of_lt h.1 h.2

theorem holds_tdiv (h : t.holds a = true) (n : Nat) : t.holds (a.tdiv n) = true := by
  rw [holds_iff] at h ⊢
  have habs := Int.natAbs_tdiv_le_natAbs a n
  split_ifs at h ⊢ with hsigned
  · rcases lt_or_ge a 0 with hneg | hnonneg
    · have hopposite := Int.tdiv_nonneg (Int.neg_nonneg_of_nonpos (Int.le_of_lt hneg)) (Int.natCast_nonneg n)
      rw [Int.neg_tdiv] at hopposite
      omega
    · have := Int.tdiv_nonneg hnonneg (Int.natCast_nonneg n)
      omega
  · have := Int.tdiv_nonneg h.1 (Int.natCast_nonneg n)
    omega

theorem lt_of_holds (h : t.holds a = true) (hbits : t.bits ≤ 32) : a < 2 ^ 32 := by
  have hpow := t.two_pow_bits
  have hle : (2 : Int) ^ t.bits ≤ 2 ^ 32 := pow_le_pow_right₀ (by decide) hbits
  have hpos : (0 : Int) < 2 ^ (t.bits - 1) := Int.pow_pos (by decide)
  rw [holds_iff] at h
  split_ifs at h with hsigned
  · omega
  · omega

/-- 平均は、型が `unsigned` より広いか、和が負でないか、値が一つであれば、和の商である。 -/
def scale (t : IntegralType) : Scale t.measure where
  value a := a
  valid := t.holds
  fits := t.holds
  divides sum n := decide (32 < t.bits) || decide (0 ≤ sum) || n == 1
  valid_zero := by
    have hpos : (0 : Int) < 2 ^ (t.bits - 1) := Int.pow_pos (by decide)
    have hpos' : (0 : Int) < 2 ^ t.bits := Int.pow_pos (by decide)
    rw [holds_iff]
    show if _ then (_ : Int) ≤ 0 ∧ (0 : Int) < _ else (0 : Int) ≤ 0 ∧ (0 : Int) < _
    split_ifs
    · omega
    · omega
  value_zero := rfl
  less_iff _ _ := decide_eq_true_iff
  add {a b} _ _ hfits := by
    refine ⟨a + b, (if_neg fun h => ?_).trans (congrArg some (store_of_holds hfits)), hfits, rfl⟩
    cases hfits.symm.trans h.2.2
  divide {a count} hvalid _ hne hdivides := by
    refine ⟨a.tdiv count.toNat, congrArg some ?_, rfl⟩
    split_ifs with hbits
    · have hlt := lt_of_holds hvalid hbits
      rw [Bool.or_eq_true, Bool.or_eq_true, decide_eq_true_iff, decide_eq_true_iff, beq_iff_eq] at hdivides
      rcases lt_or_ge a 0 with hneg | hnonneg
      · -- 一つの負の値は、`unsigned` を経て、元の値に戻る。
        obtain hone : count.toNat = 1 := (hdivides.resolve_left fun h => by omega)
        have hsigned : t.signed = true := by
          by_contra hunsigned
          rw [holds_iff, if_neg hunsigned] at hvalid
          omega
        have hstore := store_of_holds hvalid
        rw [hone, Nat.cast_one, Int.ediv_one, Int.tdiv_one]
        rw [store, if_pos hsigned] at hstore ⊢
        have hdvd : ((2 ^ t.bits : Nat) : Int) ∣ 2 ^ 32 := by
          push_cast
          exact pow_dvd_pow 2 hbits
        calc
          (a % 2 ^ 32).bmod (2 ^ t.bits) = (a % 2 ^ 32 % (2 ^ t.bits : Nat)).bmod (2 ^ t.bits) := (Int.emod_bmod _ _).symm
          _ = (a % (2 ^ t.bits : Nat)).bmod (2 ^ t.bits) := by rw [Int.emod_emod_of_dvd _ hdvd]
          _ = a.bmod (2 ^ t.bits) := Int.emod_bmod _ _
          _ = a := hstore
      · rw [Int.emod_eq_of_lt hnonneg hlt, ← Int.tdiv_eq_ediv_of_nonneg hnonneg]
        exact store_of_holds (holds_tdiv hvalid _)
    · exact store_of_holds (holds_tdiv hvalid _)

end IntegralType

def timeValue (tv : Time) : Int := tv.tvSec * 1000000 + tv.tvUsec

def timeValid (tv : Time) : Bool :=
  decide (0 ≤ tv.tvUsec) && decide (tv.tvUsec < 1000000) && decide (-2 ^ 63 ≤ tv.tvSec) && decide (tv.tvSec < 2 ^ 63)

def timeFits (value : Int) : Bool := decide (-2 ^ 63 < value / 1000000) && decide (value / 1000000 < 2 ^ 63)

theorem timeValid_iff {tv : Time} : timeValid tv = true ↔ 0 ≤ tv.tvUsec ∧ tv.tvUsec < 1000000 ∧
    -2 ^ 63 ≤ tv.tvSec ∧ tv.tvSec < 2 ^ 63 := by
  simp only [timeValid, Bool.and_eq_true, decide_eq_true_iff, and_assoc]

theorem timeFits_iff {value : Int} : timeFits value = true ↔ -2 ^ 63 < value / 1000000 ∧ value / 1000000 < 2 ^ 63 := by
  rw [timeFits, Bool.and_eq_true, decide_eq_true_iff, decide_eq_true_iff]

theorem Time.add_value {a b : Time} (ha : timeValid a = true) (hb : timeValid b = true)
    (hfits : timeFits (timeValue a + timeValue b) = true) :
    ∃ c, a.add b = .ok c ∧ timeValid c = true ∧ timeValue c = timeValue a + timeValue b := by
  rw [timeValid_iff] at ha hb
  rw [timeFits_iff, timeValue, timeValue] at hfits
  simp only [timeValid_iff, timeValue]
  simp (disch := omega) only [Time.add, longResult_bind, usecMax]
  split
  · exact ⟨_, rfl, by simp only; omega, by simp only; omega⟩
  · exact ⟨_, rfl, by simp only; omega, by simp only; omega⟩

theorem Time.div_value {a : Time} {d : Int} (ha : timeValid a = true)
    (hfits : timeFits (timeValue a) = true) (hd : 0 < d) (hhi : d < 2147483648) :
    ∃ c, a.div d = .ok c ∧ timeValue c = (timeValue a).tdiv d := by
  rw [timeValid_iff] at ha
  rw [timeFits_iff, timeValue] at hfits
  have hhelper : helperAbs d = .ok d := by
    rw [helperAbs_eq (by omega) hhi, abs_of_pos hd]
  rw [Time.div, withSign, hhelper, Time.abs]
  by_cases hneg : a.tvSec < 0
  · obtain ⟨n, hn, hcanonical, hnsec, hnlt, hnvalue⟩ : ∃ n, a.neg = .ok n ∧ n.Canonical ∧
      0 ≤ n.tvSec ∧ n.tvSec < 9223372036854775808 ∧
        n.tvSec * 1000000 + n.tvUsec = -timeValue a := by
      rw [Time.neg, timeValue]
      split
      · simp (disch := omega) only [longResult_bind, usecMax]
        exact ⟨_, rfl,
          by simp only [Time.Canonical, usecMax]; omega, by simp only; omega, by simp only; omega, by simp only; omega⟩
      · simp (disch := omega) only [longResult_bind]
        exact ⟨_, rfl,
          by simp only [Time.Canonical, usecMax]; omega, by simp only; omega, by simp only; omega, by simp only; omega⟩
    obtain ⟨r, hr, hrcanonical, hrsec, hrle, hrvalue⟩ := helperDiv_value hcanonical hnsec hnlt hd hhi
    have hsign : ¬ (a.tvSec < 0 ↔ d < 0) := fun h => absurd (h.mp hneg) (by omega)
    have hnonneg : 0 ≤ -timeValue a := by
      rw [timeValue]
      omega
    rw [Time.Canonical, usecMax] at hrcanonical
    rw [if_pos hneg, hn, ok_bind, ok_bind, hr, ok_bind, if_neg hsign, Time.neg]
    have hback : (timeValue a).tdiv d = -(-timeValue a / d) := by
      rw [← Int.tdiv_eq_ediv_of_nonneg hnonneg, Int.neg_tdiv, neg_neg]
    rw [hback, ← hnvalue, ← hrvalue]
    simp only [timeValue]
    split
    · simp (disch := omega) only [longResult_bind, usecMax]
      exact ⟨_, rfl, by simp only; omega⟩
    · simp (disch := omega) only [longResult_bind]
      exact ⟨_, rfl, by simp only; omega⟩
  · have hsign : a.tvSec < 0 ↔ d < 0 := iff_of_false hneg (by omega)
    obtain ⟨r, hr, -, -, -, hrvalue⟩ := @helperDiv_value a _ ⟨ha.1, ha.2.1⟩ (by omega) (by omega) hd hhi
    rw [if_neg hneg]
    refine ⟨r, ?_, ?_⟩
    · show helperDiv a d >>= _ = _
      rw [hr, ok_bind, if_pos hsign]
      rfl
    · rw [timeValue, hrvalue, timeValue, Int.tdiv_eq_ediv_of_nonneg (by omega)]

theorem Time.less_value {a b : Time} (ha : timeValid a = true) (hb : timeValid b = true) :
    a.less b = true ↔ timeValue a < timeValue b := by
  rw [timeValid_iff] at ha hb
  simp only [Time.less, timeValue, decide_eq_true_eq]
  omega

theorem timeMeasure_add {a b : Time} (ha : timeValid a = true) (hb : timeValid b = true)
    (hfits : timeFits (timeValue a + timeValue b) = true) :
    ∃ c, timeMeasure.add a b = some c ∧ timeValid c = true ∧ timeValue c = timeValue a + timeValue b := by
  obtain ⟨c, hc, hvalid, hvalue⟩ := Time.add_value ha hb hfits
  exact ⟨c, congrArg Except.toOption hc, hvalid, hvalue⟩

theorem timeMeasure_divide {a : Time} {count : UInt32} (ha : timeValid a = true)
    (hfits : timeFits (timeValue a) = true) (hne : count ≠ 0)
    (hdivides : decide (count.toNat < 2 ^ 31) = true) : ∃ c, timeMeasure.divide a count = some c ∧
    timeValue c = (timeValue a).tdiv count.toNat := by
  have hlt : count.toNat < 2 ^ 31 := of_decide_eq_true hdivides
  have hpos : 0 < count.toNat := Nat.pos_of_ne_zero fun h => hne (UInt32.toNat_inj.mp h)
  have hint : toInt count.toNat = count.toNat := by
    rw [toInt, Int.bmod_eq_of_le (by omega) (by omega)]
  obtain ⟨c, hc, hvalue⟩ := Time.div_value ha hfits (Int.natCast_pos.mpr hpos) (by omega)
  refine ⟨c, ?_, hvalue⟩
  show (a.div (toInt count.toNat)).toOption = some c
  rw [hint, hc]
  rfl

def timeScale : Scale timeMeasure where
  value := timeValue
  valid := timeValid
  fits := timeFits
  divides _ n := decide (n < 2 ^ 31)
  valid_zero := rfl
  value_zero := rfl
  less_iff := Time.less_value
  add := timeMeasure_add
  divide := timeMeasure_divide

/-! ## 知らせる物 -/

variable {scale : Scale m} {data : StatData α} {recent : List α} {value : α}

structure StatData.Reports (scale : Scale m) (data : StatData α) (recent : List α) : Prop where
  count : data.count.toNat = recent.length
  total : scale.value data.sumValue = scale.total recent
  maximum : recent = [] ∧ scale.value data.maxValue = 0 ∨
    IsGreatest {x | x ∈ recent.map scale.value} (scale.value data.maxValue)
  minimum : recent = [] ∧ scale.value data.minValue = 0 ∨ IsLeast {x | x ∈ recent.map scale.value}
    (scale.value data.minValue)
  average : ∃ average, data.average m = some average ∧ scale.value average = (scale.total recent).tdiv recent.length

structure StatData.Tracks (scale : Scale m) (data : StatData α) (recent : List α) : Prop where
  reports : data.Reports scale recent
  maxValid : scale.valid data.maxValue = true
  minValid : scale.valid data.minValue = true
  sumValid : scale.valid data.sumValue = true

theorem StatData.Tracks.new (scale : Scale m) : (StatData.new m).Tracks scale [] where
  reports := {
    count := rfl
    total := scale.value_zero
    maximum := .inl ⟨rfl, scale.value_zero⟩
    minimum := .inl ⟨rfl, scale.value_zero⟩
    average := ⟨m.zero, rfl, scale.value_zero.trans (Int.zero_tdiv _).symm⟩ }
  maxValid := scale.valid_zero
  minValid := scale.valid_zero
  sumValid := scale.valid_zero

theorem mem_concat_map (scale : Scale m) (recent : List α) (value : α) :
    {x | x ∈ (recent ++ [value]).map scale.value} = insert (scale.value value) {x | x ∈ recent.map scale.value} := by
  ext x
  simp [or_comm]

theorem StatData.Reports.count_eq_zero (h : data.Reports scale recent) : data.count = 0 ↔ recent = [] := by
  rw [← UInt32.toNat_inj, h.count]
  exact List.length_eq_zero_iff

theorem StatData.Tracks.consider (h : data.Tracks scale recent) (hvalid : scale.valid value = true)
    (hfits : scale.fits (scale.total recent + scale.value value) = true) (hcount : recent.length + 1 < 2 ^ 32)
    (hdivides : scale.divides (scale.total recent + scale.value value) (recent.length + 1) = true) :
    ∃ data', data.consider m value = .ok data' ∧ data'.Tracks scale (recent ++ [value]) := by
  have hfirst := h.reports.count_eq_zero
  obtain ⟨⟨hlength, htotal, hmaximum, hminimum, -⟩, hmaxValid, hminValid, hsumValid⟩ := h
  have hsum := hfits
  rw [← htotal] at hsum
  obtain ⟨sum, hadd, hsumValid', hsumValue⟩ := scale.add hsumValid hvalid hsum
  have hsumValue : scale.value sum = scale.total (recent ++ [value]) := by rw [hsumValue, htotal, scale.total_concat]
  have hcount' : (data.count + 1).toNat = (recent ++ [value]).length := by
    rw [UInt32.toNat_add, hlength, List.length_append]
    exact Nat.mod_eq_of_lt hcount
  have hne : data.count + 1 ≠ 0 := fun heq => by
    rw [heq] at hcount'
    cases (List.append_eq_nil_iff.mp (List.length_eq_zero_iff.mp hcount'.symm)).2
  refine ⟨_, by rw [StatData.consider, hadd]; rfl, ⟨hcount', hsumValue, .inr ?_, .inr ?_, ?_⟩, ?_, ?_, hsumValid'⟩
  · dsimp only
    rw [mem_concat_map]
    rcases hmaximum with ⟨hnil, -⟩ | hmaximum
    · rw [if_pos (.inl (hfirst.mpr hnil)), hnil]
      simp
    · have hcons : recent ≠ [] := fun hnil => by
        rw [hnil] at hmaximum
        cases hmaximum.1
      have hgreatest := hmaximum.insert (scale.value value)
      have hless := scale.less_iff hmaxValid hvalid
      split_ifs with hlater
      · rwa [max_eq_left (Int.le_of_lt (hless.mp (hlater.resolve_left (mt hfirst.mp hcons))))] at hgreatest
      · rwa [max_eq_right (Int.not_lt.mp (mt hless.mpr (not_or.mp hlater).2))] at hgreatest
  · dsimp only
    rw [mem_concat_map]
    rcases hminimum with ⟨hnil, -⟩ | hminimum
    · rw [if_pos (.inl (hfirst.mpr hnil)), hnil]
      simp
    · have hcons : recent ≠ [] := fun hnil => by
        rw [hnil] at hminimum
        cases hminimum.1
      have hleast := hminimum.insert (scale.value value)
      have hless := scale.less_iff hvalid hminValid
      split_ifs with hlater
      · rwa [min_eq_left (Int.le_of_lt (hless.mp (hlater.resolve_left (mt hfirst.mp hcons))))] at hleast
      · rwa [min_eq_right (Int.not_lt.mp (mt hless.mpr (not_or.mp hlater).2))] at hleast
  · have hlen : (recent ++ [value]).length = recent.length + 1 := List.length_append
    rw [← scale.total_concat, ← hsumValue] at hfits hdivides
    obtain ⟨average, haverage, hvalue⟩ := scale.divide hsumValid' hfits hne (by rwa [hcount', hlen])
    exact ⟨average, by rw [StatData.average, if_pos hne]; exact haverage, by rw [hvalue, hsumValue, hcount']⟩
  · dsimp only
    split_ifs
    · exact hvalid
    · exact hmaxValid
  · dsimp only
    split_ifs
    · exact hvalid
    · exact hminValid

/-! ## 任せる物 -/

variable {sink sink' : StatSink α} {dumped : List (StatSink α)} {subject : Option α}

theorem data_clone (sink : StatSink α) : sink.clone.data = sink.data := by
  induction sink with
  | sink data => rfl
  | item id stat dumpPolicy ih => exact ih

theorem data_reset (sink : StatSink α) : (sink.reset m).data = if sink.bare then .new m else sink.data := by
  cases sink with
  | sink data => rfl
  | item id stat dumpPolicy => rfl

theorem consider_none (sink : StatSink α) : sink.consider m none = .error .invalidArgument := by
  induction sink with
  | sink data => rfl
  | item id stat dumpPolicy ih =>
      rw [StatSink.consider, ih]
      rfl

theorem consider_some (h : sink.consider m (some value) = .ok (sink', dumped)) :
    sink.data.consider m value = .ok sink'.data ∧ ∀ copy ∈ dumped, copy.data = sink'.data := by
  induction sink generalizing sink' dumped with
  | sink data =>
      obtain ⟨data', hdata, h⟩ := bind_eq_ok.mp h
      obtain ⟨rfl, rfl⟩ := Prod.mk.inj (Except.ok.inj h)
      exact ⟨hdata, fun copy hcopy => nomatch hcopy⟩
  | item id stat dumpPolicy ih =>
      obtain ⟨⟨stat', copies⟩, hstat, h⟩ := bind_eq_ok.mp h
      obtain ⟨hdata, hcopies⟩ := ih hstat
      dsimp only at h
      cases hneed : dumpPolicy.needDump stat'.consideredCount with
      | none =>
          rw [hneed] at h
          cases h
      | some need =>
          rw [hneed] at h
          cases need with
          | false =>
              obtain ⟨rfl, rfl⟩ := Prod.mk.inj (Except.ok.inj h)
              exact ⟨hdata, hcopies⟩
          | true =>
              obtain ⟨rfl, rfl⟩ := Prod.mk.inj (Except.ok.inj h)
              refine ⟨hdata, List.forall_mem_append.mpr ⟨hcopies, fun copy hcopy => ?_⟩⟩
              obtain rfl := List.mem_singleton.mp hcopy
              exact data_clone stat'

theorem consider_ne_invalidArgument (sink : StatSink α) (value : α) : sink.consider m
    (some value) ≠ .error .invalidArgument := by
  induction sink with
  | sink data =>
      rw [StatSink.consider, StatData.consider]
      cases m.add data.sumValue value with
      | none => exact fun h => by cases h
      | some sum => exact fun h => by cases h
  | item id stat dumpPolicy ih =>
      rw [StatSink.consider]
      cases hstat : stat.consider m (some value) with
      | error e =>
          rw [hstat] at ih
          exact ih
      | ok r =>
          rw [ok_bind]
          dsimp only
          cases dumpPolicy.needDump r.1.consideredCount with
          | none => exact fun h => by cases h
          | some need =>
              cases need with
              | false => exact fun h => by cases h
              | true => exact fun h => by cases h

/-! ## 呼び出しの列 -/

variable {s t : State α}

/-- 渡される値は型の値であり、終わりの `reset` からの和は溢れない。 -/
def admissible (scale : Scale m) (s : State α) : Action α → Bool
  | .consider i (some value) =>
      scale.valid value && s.entries[i]?.all fun entry => scale.fits (scale.total entry.recent + scale.value value)
  | _ => true

/-- 値を渡した `Item` の `reset` を呼ばず、値の数が `unsigned` に収まり、平均の割り算が値の割り算になる。 -/
def meets (scale : Scale m) (s : State α) : Action α → Bool
  | .consider i (some value) =>
      s.entries[i]?.all fun entry =>
        decide (entry.recent.length + 1 < 2 ^ 32) && scale.divides
          (scale.total entry.recent + scale.value value) (entry.recent.length + 1)
  | .reset i => s.entries[i]?.all fun entry => entry.sink.bare || entry.recent.isEmpty
  | _ => true

def Entry.Tracks (scale : Scale m) (entry : Entry α) : Prop := entry.sink.data.Tracks scale entry.recent

structure State.Tracks (scale : Scale m) (s : State α) : Prop where
  entries : ∀ entry ∈ s.entries, entry.Tracks scale
  dumped : ∀ entry ∈ s.dumped, entry.Tracks scale

theorem State.Tracks.init (scale : Scale m) {sinks : List (StatSink α)}
    (h : ∀ sink ∈ sinks, sink.data = .new m) : (State.init sinks).Tracks scale := by
  refine ⟨List.forall_mem_map.mpr fun sink hsink => ?_, fun entry hentry => nomatch hentry⟩
  rw [Entry.Tracks, h sink hsink]
  exact .new scale

theorem State.Tracks.step {action : Action α} (h : s.Tracks scale) (hadmissible : admissible scale s action = true)
    (hmeets : meets scale s action = true) (hstep : Statistics.step m s action = some t) : t.Tracks scale := by
  cases action with
  | consider i subject =>
      obtain ⟨entry, hentry, hstep⟩ := Option.bind_eq_some_iff.mp hstep
      have htracks := h.entries entry (List.mem_of_getElem? hentry)
      cases subject with
      | none =>
          dsimp only at hstep
          rw [consider_none] at hstep
          obtain rfl := Option.some.inj hstep
          exact h
      | some value =>
          rw [admissible, hentry, Option.all_some, Bool.and_eq_true] at hadmissible
          rw [meets, hentry, Option.all_some, Bool.and_eq_true, decide_eq_true_iff] at hmeets
          obtain ⟨data', hdata', htracks'⟩ := htracks.consider hadmissible.1 hadmissible.2 hmeets.1 hmeets.2
          dsimp only at hstep
          cases hconsider : entry.sink.consider m (some value) with
          | error e =>
              -- 値があれば、`InvalidArgument` は投げられない。
              cases e with
              | invalidArgument => exact absurd hconsider (consider_ne_invalidArgument entry.sink value)
              | undefined =>
                  rw [hconsider] at hstep
                  cases hstep
          | ok r =>
              obtain ⟨sink', dumped⟩ := r
              obtain ⟨hdata, hcopies⟩ := consider_some hconsider
              obtain rfl := Except.ok.inj (hdata'.symm.trans hdata)
              rw [hconsider] at hstep
              obtain rfl := Option.some.inj hstep
              refine ⟨forall_mem_set h.entries htracks', List.forall_mem_append.mpr
                ⟨h.dumped, List.forall_mem_map.mpr fun copy hcopy => ?_⟩⟩
              rw [Entry.Tracks, hcopies copy hcopy]
              exact htracks'
  | reset i =>
      obtain ⟨entry, hentry, hstep⟩ := Option.bind_eq_some_iff.mp hstep
      obtain rfl := Option.some.inj hstep
      have htracks := h.entries entry (List.mem_of_getElem? hentry)
      rw [meets, hentry, Option.all_some, Bool.or_eq_true] at hmeets
      refine ⟨forall_mem_set h.entries ?_, h.dumped⟩
      rw [Entry.Tracks, data_reset]
      split_ifs with hbare
      · exact .new scale
      · have hnil : entry.recent = [] := List.isEmpty_iff.mp (hmeets.resolve_left hbare)
        rw [Entry.Tracks, hnil] at htracks
        exact htracks
  | clone i =>
      obtain ⟨entry, hentry, hstep⟩ := Option.bind_eq_some_iff.mp hstep
      obtain rfl := Option.some.inj hstep
      refine ⟨List.forall_mem_append.mpr ⟨h.entries, fun copy hcopy => ?_⟩, h.dumped⟩
      obtain rfl := List.mem_singleton.mp hcopy
      rw [Entry.Tracks, data_clone]
      exact h.entries entry (List.mem_of_getElem? hentry)

end UnixCommons.Generics.Statistics
