import UnixCommons.Generics.Lemmas.DecimalOp
import UnixCommons.Generics.Lemmas.SimpleText

/-!
# 文字列との変換の定理

`str` の文字列は文法に従い、それを読むと元の値に戻る。
-/

namespace UnixCommons.Generics

open Lib

variable {p : Params} {s : SimpleParams} {d : Decimal} {x : SimpleDecimal} {F u : Nat} {negative : Bool}

/-! ## `str` の文字列 -/

theorem digitsValue_natText {n : Nat} : digitsValue (natText n) = n := by
  rw [natText, digitsValue_numeral]
  exact Nat.mod_eq_of_lt (Nat.lt_of_lt_of_le lt_pow_width (Nat.pow_le_pow_right (by decide) (Nat.le_max_right _ _)))

theorem digitsValue_fractionText {n : Nat} (h : n < 10 ^ F) :
    digitsValue (fractionText F n) * 10 ^ (F - (fractionText F n).length) = n := by
  by_cases h0 : n = 0
  · rw [fractionText, if_pos h0, h0]
    exact Nat.zero_mul _
  · obtain ⟨h1, h2, -⟩ := trailingZeros_spec h h0
    rw [fractionText, if_neg h0, digitsValue_numeral, length_numeral]
    generalize trailingZeros F n = z at h1 h2
    rw [show F - (F - z) = z by omega, Nat.mod_eq_of_lt, Nat.div_mul_cancel h2]
    refine Nat.div_lt_of_lt_mul ?_
    rw [← Nat.pow_add, show z + (F - z) = F by omega]
    exact h

theorem fractionText_digits {n : Nat} {c : Char} (h : c ∈ fractionText F n) : c.isDigit = true := by
  unfold fractionText at h
  split at h
  · rw [List.mem_singleton.mp h]
    rfl
  · exact isDigit_of_mem_numeral h

theorem fractionText_ne_nil {n : Nat} (h : n < 10 ^ F) : fractionText F n ≠ [] := by
  unfold fractionText
  split
  · simp
  · next h0 =>
    have := (trailingZeros_spec h h0).1
    intro hnil
    have hlen := congrArg List.length hnil
    rw [length_numeral, List.length_nil] at hlen
    omega

def strText (F : Nat) (negative : Bool) (u : Nat) : NumberText where
  sign := if negative ∧ u ≠ 0 then .minus else .absent
  integer := natText (u / 10 ^ F)
  point := F ≠ 0
  fraction := if F = 0 then [] else fractionText F (u % 10 ^ F)
  integer_digits _ h := isDigit_of_mem_numeral h
  fraction_digits c h := by
    split at h
    · cases h
    · exact fractionText_digits h
  point_of_fraction h := by
    by_contra hF
    exact h (if_pos (by simpa using hF))

theorem strText_text : (strText F negative u).text = decimalText F negative u := by
  unfold NumberText.text NumberText.tail strText decimalText
  dsimp only
  have hsign : Sign.text (if negative = true ∧ u ≠ 0 then .minus else .absent) =
      if negative = true ∧ u ≠ 0 then ['-'] else [] := by
    split <;> rfl
  rw [hsign, List.append_assoc]
  congr 2
  by_cases hF : F = 0
  · rw [if_neg (by simpa using hF), if_pos hF]
  · rw [if_pos (by simpa using hF), if_neg hF, if_neg hF]

theorem strText_integer_ne_nil : (strText F negative u).integer ≠ [] := fun h => by
  have := length_natText (x := u / 10 ^ F)
  rw [show natText (u / 10 ^ F) = [] from h, List.length_nil] at this
  omega

theorem strText_magnitude : (strText F negative u).magnitude F = u := by
  unfold NumberText.magnitude strText
  dsimp only
  rw [digitsValue_natText]
  by_cases hF : F = 0
  · rw [if_pos hF, hF]
    simp [digitsValue]
  · rw [if_neg hF, digitsValue_fractionText (Nat.mod_lt _ (Nat.pow_pos (by decide))), Nat.mul_comm]
    exact Nat.div_add_mod _ _

theorem strText_value : (strText F negative u).value F = if negative then -(u : Int) else u := by
  unfold NumberText.value
  rw [strText_magnitude]
  unfold strText
  by_cases h0 : u = 0
  · simp [h0]
  · cases negative <;> simp [h0]

theorem strText_fits {r : Ranks} (h : u < 10 ^ r.total) : (strText r.fraction negative u).Fits r := by
  constructor
  · rw [NumberText.integerWidth_le_iff]
    show digitsValue (natText (u / 10 ^ r.fraction)) < 10 ^ r.integer
    rw [digitsValue_natText]
    refine Nat.div_lt_of_lt_mul ?_
    rw [← Nat.pow_add, Nat.add_comm, show r.integer + r.fraction = r.total from Nat.sub_add_cancel r.fraction_le]
    exact h
  · unfold strText
    dsimp only
    split
    · exact Nat.zero_le _
    · exact length_fractionText_le (by omega)

/-! ## 書いて読む -/

/-- 文字列は `ret` の中に書かれ、読むと等しい値に戻り、等しい値の文字列は等しい。 -/
def Decimal.Faithful (p : Params) (d : Decimal) : Prop :=
  ∃ text, d.str p = .ok text ∧ (∀ array, ∃ d', Decimal.constructText p text array = .ok d' ∧
    d'.eq p d = true) ∧ ∀ e : Decimal, e.Valid p → e.eq p d = true → e.str p = .ok text

def SimpleDecimal.Faithful (s : SimpleParams) (x : SimpleDecimal) : Prop :=
  ∃ text, x.str s = .ok text ∧ (∃ x', SimpleDecimal.constructText s text = .ok x' ∧
    x'.eq x = true) ∧ ∀ y : SimpleDecimal, y.Valid s → y.eq x = true → y.str s = .ok text

theorem Decimal.str_eq (hd : d.Valid p) : d.str p = .ok
    (decimalText p.fraction (d.value p < 0) (d.value p).natAbs) := by
  rw [Decimal.str_spec hd, decimalText_sign, Decimal.value_natAbs]
  rfl

theorem Decimal.faithful (hd : d.Valid p) : d.Faithful p := by
  refine ⟨decimalText p.fraction d.negative (d.magnitude p), Decimal.str_spec hd, fun array => ?_, fun e he heq => ?_⟩
  · have hne : (strText p.fraction d.negative (d.magnitude p)).integer ++
        (strText p.fraction d.negative (d.magnitude p)).tail ≠ [] := by
      simp [strText_integer_ne_nil]
    have hfits : (strText p.fraction d.negative (d.magnitude p)).Fits p.toRanks := strText_fits hd.magnitude_lt
    obtain ⟨d', hok, hv, hval⟩ : ∃ d', Decimal.constructText p _ array = .ok d' ∧ _ :=
      Decimal.constructText_fits hne hfits
    rw [strText_text] at hok
    refine ⟨d', hok, (Decimal.eq_iff hv hd).mpr ?_⟩
    rw [hval, strText_value]
    rfl
  · rw [← Decimal.str_spec hd, Decimal.str_eq he, Decimal.str_eq hd, (Decimal.eq_iff he hd).mp heq]

theorem SimpleDecimal.str_of_printable (hx : x.Valid s) (h : Printable s.toRanks x.value) :
    x.str s = .ok (decimalText s.fraction (x.value < 0) x.value.natAbs) := by
  rw [SimpleDecimal.str_eq hx, if_pos h, decimalText_sign, SimpleDecimal.value_natAbs]
  rfl

theorem SimpleDecimal.faithful_iff (hx : x.Valid s) : x.Faithful s ↔ s.integer ≠ 0 := by
  have hne : (strText s.fraction x.negative x.data).integer ≠ [] := strText_integer_ne_nil
  have hfits : (strText s.fraction x.negative x.data).Fits s.toRanks := strText_fits hx
  have hvalue : (strText s.fraction x.negative x.data).value s.fraction = x.value := strText_value
  constructor
  · rintro ⟨text, hstr, ⟨x', hok, heq⟩, -⟩ hi
    rw [SimpleDecimal.str_eq hx] at hstr
    split at hstr
    · rw [← Except.ok.inj hstr, ← strText_text] at hok
      refine SimpleDecimal.constructText_misread hne hfits (Or.inl hi) ⟨x', hok, ?_⟩
      rw [hvalue]
      exact SimpleDecimal.eq_iff.mp heq
    · cases hstr
  · intro hi
    have hprint : ∀ y : SimpleDecimal, Printable s.toRanks y.value := fun y => Or.inl hi
    have hread : ¬ Misread s (strText s.fraction x.negative x.data) := by
      unfold Misread strText
      dsimp only
      rintro (h0 | ⟨hF, hp⟩ | ⟨hF, -, hnil, -⟩)
      · exact hi h0
      · exact absurd hF (by simpa using hp)
      · rw [hF, if_neg (by decide)] at hnil
        exact fractionText_ne_nil (Nat.mod_lt _ (by decide)) hnil
    obtain ⟨x', hok, -, hval⟩ := SimpleDecimal.constructText_fits hne hfits hread
    rw [strText_text] at hok
    have hstr : x.str s = .ok (decimalText s.fraction x.negative x.data) := by
      rw [SimpleDecimal.str_eq hx, if_pos (hprint x)]
    refine ⟨_, hstr, ⟨x', hok, SimpleDecimal.eq_iff.mpr (hval.trans hvalue)⟩, fun y hy heq => ?_⟩
    rw [← hstr, SimpleDecimal.str_of_printable hx (hprint x),
      SimpleDecimal.str_of_printable hy (hprint y), SimpleDecimal.eq_iff.mp heq]

/-- 文字列との変換は、`Decimal` では常に元に戻り、`SimpleDecimal` では整数部の桁があるときに限って元に戻る。 -/
theorem decimal_text_round_trip_iff (hd : d.Valid p) (hx : x.Valid s) :
    d.Faithful p ∧ (x.Faithful s ↔ s.fraction < s.total) := by
  refine ⟨Decimal.faithful hd, (SimpleDecimal.faithful_iff hx).trans ?_⟩
  have h1 := s.fraction_le
  have h2 : s.integer = s.total - s.fraction := rfl
  omega

theorem onePointSimple_pos : 0 < 2 := by decide

theorem onePointSimple_le : 1 ≤ 2 := by decide

theorem onePointSimple_fits : 2 ≤ Element.uint8.digits10 := by decide

/-- 二桁、うち小数点の下が一桁の `SimpleDecimal`。 -/
def onePointSimple : SimpleParams := ⟨⟨2, 1, onePointSimple_pos, onePointSimple_le⟩, .uint8, onePointSimple_fits⟩

theorem fractionSimple_pos : 0 < 2 := by decide

theorem fractionSimple_le : 2 ≤ 2 := by decide

theorem fractionSimple_fits : 2 ≤ Element.uint8.digits10 := by decide

/-- 整数部の桁のない `SimpleDecimal`。 -/
def fractionSimple : SimpleParams := ⟨⟨2, 2, fractionSimple_pos, fractionSimple_le⟩, .uint8, fractionSimple_fits⟩

theorem onePointParams_pos : 0 < 3 := by decide

theorem onePointParams_le : 1 ≤ 3 := by decide

def onePointParams : Params := ⟨⟨3, 1, onePointParams_pos, onePointParams_le⟩, .uint8⟩

theorem decimal_text_round_trip_iff_deci :
    (⟨true, fun i => if i = 0 then 25 else 1⟩ : Decimal).Valid onePointParams ∧
    (⟨true, 25⟩ : SimpleDecimal).Valid onePointSimple ∧
    (⟨true, fun i => if i = 0 then 25 else 1⟩ : Decimal).Faithful onePointParams ∧
    (SimpleDecimal.Faithful onePointSimple ⟨true, 25⟩ ↔ onePointSimple.fraction < onePointSimple.total) := by
  have hd : (⟨true, fun i => if i = 0 then 25 else 1⟩ : Decimal).Valid onePointParams := ⟨by decide, by decide⟩
  have hx : (⟨true, 25⟩ : SimpleDecimal).Valid onePointSimple := show 25 < 10 ^ 2 by decide
  exact ⟨hd, hx, decimal_text_round_trip_iff hd hx⟩

/-- 整数部の桁がないと、0.25 の文字列は読めず、-0.25 の文字列は `buffer` に書けない。 -/
theorem simple_text_not_faithful :
    (⟨false, 25⟩ : SimpleDecimal).Valid fractionSimple ∧
    SimpleDecimal.str fractionSimple ⟨false, 25⟩ = .ok ['0', '.', '2', '5'] ∧
    SimpleDecimal.constructText fractionSimple ['0', '.', '2', '5'] = .error .overflow ∧
    SimpleDecimal.str fractionSimple ⟨true, 25⟩ = .error .outOfBuffer ∧
    ¬ SimpleDecimal.Faithful fractionSimple ⟨false, 25⟩ := by
  have hx : (⟨false, 25⟩ : SimpleDecimal).Valid fractionSimple := show 25 < 10 ^ 2 by decide
  refine ⟨hx, by decide, by decide, by decide, fun h => ?_⟩
  exact (SimpleDecimal.faithful_iff hx).mp h rfl

/-! ## 文法 -/

/-- 一つの文字列に対する、文字列から作る関数の正しさ。 -/
structure TextCorrect {α : Type} (r : Ranks) (valid : α → Prop) (value : α → Int) (str : List Char)
    (res : Except ParseFault α) : Prop where
  accepts : ∀ t : NumberText, t.text = str → t.integer ≠ [] → t.Fits r → ∃ d, res = .ok d ∧
    valid d ∧ value d = t.value r.fraction
  overflows : ∀ t : NumberText, t.text = str → t.integer ≠ [] → r.integer < t.integerWidth → res = .error .overflow
  rejects : ¬ IsNumber str → ∃ e, res = .error e

theorem skipSign_eq_point {str : List Char} : skipSign str = ['.'] ↔ str = ['.'] ∨
    str = ['+', '.'] ∨ str = ['-', '.'] := by
  constructor
  · intro h
    obtain ⟨sign, hs⟩ := exists_sign str
    rw [h] at hs
    rw [hs]
    cases sign with
    | absent => exact Or.inl rfl
    | plus => exact Or.inr (Or.inl rfl)
    | minus => exact Or.inr (Or.inr rfl)
  · rintro (rfl | rfl | rfl) <;> rfl

theorem not_isNumber_of_point {str : List Char} (h : skipSign str = ['.']) : ¬ IsNumber str := by
  rintro ⟨t, rfl, hne⟩
  rw [NumberText.skipSign_text] at h
  have hint : t.integer = [] := by
    cases hi : t.integer with
    | nil => rfl
    | cons c cs =>
        rw [hi] at h
        have hc := t.integer_digits c (by rw [hi]; exact List.mem_cons_self)
        rw [(List.cons.inj h).1] at hc
        exact absurd hc (by decide)
  rw [hint, List.nil_append] at h
  have hfrac : t.fraction = [] := by
    unfold NumberText.tail at h
    split at h
    · exact (List.cons.inj h).2
    · cases h
  exact hne (by rw [hint, hfrac]; rfl)

theorem Decimal.constructText_point {str : List Char} (h : skipSign str = ['.'])
    (array : Nat → Nat) : ∃ d, Decimal.constructText p str array = .ok d := by
  obtain ⟨sign, hs⟩ := exists_sign str
  let t : NumberText := ⟨sign, [], true, [], by simp, by simp, fun _ => rfl⟩
  have htext : t.text = str := by
    rw [hs, h]
    rfl
  have hfits : t.Fits p.toRanks := ⟨Nat.zero_le _, Nat.zero_le _⟩
  obtain ⟨d, hd, -⟩ : ∃ d, Decimal.constructText p t.text array = .ok d ∧ _ :=
    Decimal.constructText_fits (by simp [t, NumberText.tail]) hfits
  exact ⟨d, htext ▸ hd⟩

theorem Decimal.textCorrect_iff {str : List Char} {array : Nat → Nat} :
    TextCorrect p.toRanks (Decimal.Valid p) (Decimal.value p) str (Decimal.constructText p str array) ↔
      ¬ (str = ['.'] ∨ str = ['+', '.'] ∨ str = ['-', '.']) := by
  rw [← skipSign_eq_point]
  constructor
  · intro h hpoint
    obtain ⟨d, hd⟩ := Decimal.constructText_point (p := p) hpoint array
    obtain ⟨e, he⟩ := h.rejects (not_isNumber_of_point hpoint)
    rw [hd] at he
    cases he
  · intro hpoint
    refine ⟨?_, ?_, fun hno => ?_⟩
    · rintro t rfl hi hfits
      exact Decimal.constructText_fits (by simp [hi]) hfits
    · rintro t rfl - hlong
      exact Decimal.constructText_long hlong
    · cases hx : Decimal.constructText p str array with
      | ok d => exact absurd (Decimal.isNumber_of_constructText hx) (not_or.mpr ⟨hno, hpoint⟩)
      | error e => exact ⟨e, rfl⟩

theorem SimpleDecimal.textCorrect_iff {str : List Char} :
    TextCorrect s.toRanks (SimpleDecimal.Valid s) SimpleDecimal.value str (SimpleDecimal.constructText s str) ↔
      ∀ t : NumberText, t.text = str → t.integer ≠ [] → t.Fits s.toRanks → ¬ Misread s t := by
  constructor
  · rintro h t rfl hi hfits hmis
    obtain ⟨d, hd, -, hval⟩ := h.accepts t rfl hi hfits
    exact SimpleDecimal.constructText_misread hi hfits hmis ⟨d, hd, hval⟩
  · intro h
    refine ⟨?_, ?_, fun hno => ?_⟩
    · rintro t rfl hi hfits
      exact SimpleDecimal.constructText_fits hi hfits (h t rfl hi hfits)
    · rintro t rfl - hlong
      exact SimpleDecimal.constructText_long hlong
    · cases hx : SimpleDecimal.constructText s str with
      | ok d => exact absurd (SimpleDecimal.isNumber_of_constructText hx) hno
      | error e => exact ⟨e, rfl⟩

/-- 二つの関数が正しいのは、文字列が小数点だけでなく、`SimpleDecimal` が読み間違えない文字列であるときに限る。 -/
theorem decimal_parse_correct_iff (p : Params) (s : SimpleParams) (str : List Char) (array : Nat → Nat) :
    (TextCorrect p.toRanks (Decimal.Valid p) (Decimal.value p) str (Decimal.constructText p str array) ∧
      TextCorrect s.toRanks (SimpleDecimal.Valid s) SimpleDecimal.value str (SimpleDecimal.constructText s str)) ↔
    ¬ (str = ['.'] ∨ str = ['+', '.'] ∨ str = ['-', '.']) ∧
      ∀ t : NumberText, t.text = str → t.integer ≠ [] → t.Fits s.toRanks →
        s.integer ≠ 0 ∧ (t.point = true → s.fraction ≠ 0) ∧
          (t.point = true → t.fraction = [] → s.fraction = 1 → digitsValue t.integer = 0) := by
  refine and_congr Decimal.textCorrect_iff (SimpleDecimal.textCorrect_iff.trans ?_)
  refine forall_congr' fun t => imp_congr_right fun _ => imp_congr_right fun _ => imp_congr_right fun _ => ?_
  unfold Misread
  tauto

/-- 小数点の下が一桁の `SimpleDecimal` は、`5.` を 0.5 と読む。`Decimal` は、`.` を零と読む。 -/
theorem decimal_parse_not_correct :
    SimpleDecimal.constructText onePointSimple ['5', '.'] = .ok ⟨false, 5⟩ ∧
    ¬ TextCorrect onePointSimple.toRanks (SimpleDecimal.Valid onePointSimple) SimpleDecimal.value
      ['5', '.'] (SimpleDecimal.constructText onePointSimple ['5', '.']) ∧
    ¬ TextCorrect onePointParams.toRanks (Decimal.Valid onePointParams) (Decimal.value onePointParams) ['.']
      (Decimal.constructText onePointParams ['.'] fun _ => 0) := by
  refine ⟨by decide, fun h => ?_, fun h => ?_⟩
  · let t : NumberText := ⟨.absent, ['5'], true, [], by simp [Char.isDigit], by simp, fun _ => rfl⟩
    have hbad : Misread onePointSimple t := Or.inr (Or.inr ⟨rfl, rfl, rfl, by decide⟩)
    exact SimpleDecimal.textCorrect_iff.mp h t rfl (by simp [t]) ⟨by decide, by decide⟩ hbad
  · exact Decimal.textCorrect_iff.mp h (Or.inl rfl)

end UnixCommons.Generics
