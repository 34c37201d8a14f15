import UnixCommons.Generics.Lemmas.DecimalText
import UnixCommons.Generics.Lemmas.SimpleDecimal

/-! # 文字列から作る `SimpleDecimal` の補題 -/

namespace UnixCommons.Generics

open Lib

variable {s : SimpleParams} {t : NumberText} {l rest : List Char} {c : Char} {decimal decimal' left left' : Nat}

/-! ## 数字 -/

theorem charDigit_lt_iff : charDigit c < 10 ↔ c.isDigit = true := by
  have hc : c.toNat < 2 ^ 32 := c.val.toNat_lt
  rw [isDigit_iff]
  unfold charDigit
  omega

theorem charDigit_eq (h : c.isDigit = true) : charDigit c = c.toNat - 48 := by
  have hd := isDigit_iff.mp h
  unfold charDigit
  omega

theorem digitsValue_cons : digitsValue (c :: l) = (c.toNat - 48) * 10 ^ l.length + digitsValue l := by
  have h : digitsValue ([c] ++ l) = digitsValue [c] * 10 ^ l.length + digitsValue l := digitsValue_append
  rw [List.singleton_append] at h
  rw [h]
  congr 2
  exact Nat.zero_add _

/-! ## 整数部 -/

theorem SimpleParams.maxInteger_div (h : s.integer ≠ 0) : s.maxInteger / 10 = 10 ^ (s.integer - 1) := by
  obtain ⟨n, hn⟩ : ∃ n, s.integer = n + 1 := ⟨s.integer - 1, by omega⟩
  rw [SimpleParams.maxInteger, hn, Nat.pow_succ, Nat.mul_div_cancel _ (by decide), Nat.add_sub_cancel]

theorem SimpleParams.cast_of_lt {x : Nat} (h : x < 10 ^ s.total) : s.base.cast x = x := by
  have := SimpleParams.pow_lt_modulus (Nat.le_refl s.total)
  exact Element.cast_of_lt (by omega)

theorem SimpleParams.cast_of_lt_integer {x : Nat} (h : x < 10 ^ s.integer) : s.base.cast x = x :=
  SimpleParams.cast_of_lt (Nat.lt_of_lt_of_le h (Nat.pow_le_pow_right (by decide) (Nat.sub_le _ _)))

theorem extractInteger_stop (h : ∀ c, rest.head? = some c → c.isDigit = false) :
    extractInteger s rest decimal = some (decimal, rest) := by
  cases rest with
  | nil => rfl
  | cons c cs =>
      refine if_neg fun hc => ?_
      rw [charDigit_lt_iff, h c rfl] at hc
      cases hc

theorem extractInteger_ok (hl : ∀ c ∈ l, c.isDigit = true) (hrest : ∀ c, rest.head? = some c → c.isDigit = false)
    (hi : s.integer ≠ 0) (h : decimal * 10 ^ l.length + digitsValue l < 10 ^ s.integer) :
    extractInteger s (l ++ rest) decimal = some (decimal * 10 ^ l.length + digitsValue l, rest) := by
  induction l generalizing decimal with
  | nil =>
      rw [List.nil_append, extractInteger_stop hrest]
      simp [digitsValue]
  | cons c l ih =>
      have hc := hl c List.mem_cons_self
      have hstep : decimal * 10 ^ (c :: l).length + digitsValue (c :: l) =
          (decimal * 10 + charDigit c) * 10 ^ l.length + digitsValue l := by
        rw [digitsValue_cons, charDigit_eq hc, List.length_cons, Nat.pow_succ]
        ring
      rw [hstep] at h ⊢
      have hnext : decimal * 10 + charDigit c < 10 ^ s.integer := by
        refine Nat.lt_of_le_of_lt ?_ h
        exact Nat.le_trans (Nat.le_mul_of_pos_right _ (Nat.pow_pos (by decide))) (Nat.le_add_right _ _)
      have hguard : decimal < s.maxInteger / 10 := by
        rw [SimpleParams.maxInteger_div hi]
        rw [show s.integer = s.integer - 1 + 1 by omega, Nat.pow_succ] at hnext
        omega
      rw [List.cons_append, extractInteger, if_pos (charDigit_lt_iff.mpr hc), if_pos hguard,
        SimpleParams.cast_of_lt_integer hnext]
      exact ih (fun c h => hl c (List.mem_cons_of_mem _ h)) h

theorem extractInteger_long (hl : ∀ c ∈ l, c.isDigit = true) (hd : decimal < 10 ^ s.integer)
    (h : 10 ^ s.integer ≤ decimal * 10 ^ l.length + digitsValue l) : extractInteger s (l ++ rest) decimal = none := by
  induction l generalizing decimal with
  | nil =>
      simp only [List.length_nil, Nat.pow_zero, Nat.mul_one] at h
      exact absurd (show 10 ^ s.integer ≤ decimal from h) (by omega)
  | cons c l ih =>
      have hc := hl c List.mem_cons_self
      rw [List.cons_append, extractInteger, if_pos (charDigit_lt_iff.mpr hc)]
      split
      · next hguard =>
        have hstep : decimal * 10 ^ (c :: l).length + digitsValue (c :: l) =
            (decimal * 10 + charDigit c) * 10 ^ l.length + digitsValue l := by
          rw [digitsValue_cons, charDigit_eq hc, List.length_cons, Nat.pow_succ]
          ring
        rw [hstep] at h
        have hnext : decimal * 10 + charDigit c < 10 ^ s.integer := by
          have hlt := charDigit_lt_iff.mpr hc
          have hmax : s.maxInteger = 10 ^ s.integer := rfl
          omega
        rw [SimpleParams.cast_of_lt_integer hnext]
        exact ih (fun c h => hl c (List.mem_cons_of_mem _ h)) hnext h
      · rfl

theorem extractInteger_none (hi : s.integer = 0) (hc : c.isDigit = true) : extractInteger s (c :: l) decimal = none := by
  have hz : s.maxInteger / 10 = 0 := by
    rw [SimpleParams.maxInteger, hi]
    rfl
  rw [extractInteger, if_pos (charDigit_lt_iff.mpr hc), if_neg (by omega)]

theorem extractInteger_sound (h : extractInteger s l decimal = some (decimal', rest)) :
    ∃ digits, l = digits ++ rest ∧ (∀ c ∈ digits, c.isDigit = true) ∧ ∀ c, rest.head? = some c → c.isDigit = false := by
  induction l generalizing decimal with
  | nil =>
      obtain ⟨rfl, rfl⟩ := Prod.mk.inj (Option.some.inj h)
      exact ⟨[], rfl, by simp, by simp⟩
  | cons c l ih =>
      unfold extractInteger at h
      split at h
      · next hc =>
        split at h
        · obtain ⟨digits, rfl, hd, hr⟩ := ih h
          refine ⟨c :: digits, rfl, fun x hx => ?_, hr⟩
          rcases List.mem_cons.mp hx with rfl | hx
          · exact charDigit_lt_iff.mp hc
          · exact hd x hx
        · cases h
      · next hc =>
        obtain ⟨rfl, rfl⟩ := Prod.mk.inj (Option.some.inj h)
        refine ⟨[], rfl, by simp, fun x hx => ?_⟩
        rw [← Option.some.inj hx]
        rw [charDigit_lt_iff] at hc
        simpa using hc

theorem extractFraction_ok (hl : ∀ c ∈ l, c.isDigit = true) (hleft : l.length ≤ left)
    (h : decimal * 10 ^ l.length + digitsValue l < 10 ^ s.total) :
    extractFraction s l left decimal = some (decimal * 10 ^ l.length + digitsValue l, left - l.length, []) := by
  induction l generalizing decimal left with
  | nil => simp [extractFraction, digitsValue]
  | cons c l ih =>
      have hc := hl c List.mem_cons_self
      have hstep : decimal * 10 ^ (c :: l).length + digitsValue (c :: l) =
          (decimal * 10 + charDigit c) * 10 ^ l.length + digitsValue l := by
        rw [digitsValue_cons, charDigit_eq hc, List.length_cons, Nat.pow_succ]
        ring
      rw [hstep] at h ⊢
      rw [List.length_cons] at hleft ⊢
      have hnext : decimal * 10 + charDigit c < 10 ^ s.total := by
        refine Nat.lt_of_le_of_lt ?_ h
        exact Nat.le_trans (Nat.le_mul_of_pos_right _ (Nat.pow_pos (by decide))) (Nat.le_add_right _ _)
      rw [extractFraction, if_pos (charDigit_lt_iff.mpr hc), if_pos (by omega),
        SimpleParams.cast_of_lt hnext, ih (fun c h => hl c (List.mem_cons_of_mem _ h)) (by omega) h,
        show left - 1 - l.length = left - (l.length + 1) by omega]

theorem extractFraction_sound (h : extractFraction s l left decimal = some (decimal', left', [])) :
    ∀ c ∈ l, c.isDigit = true := by
  induction l generalizing decimal left with
  | nil => simp
  | cons c l ih =>
      unfold extractFraction at h
      split at h
      · next hc =>
        split at h
        · intro x hx
          rcases List.mem_cons.mp hx with rfl | hx
          · exact charDigit_lt_iff.mp hc
          · exact ih h x hx
        · cases h
      · cases (Prod.mk.inj (Prod.mk.inj (Option.some.inj h)).2).2

/-! ## 文法に従う文字列 -/

theorem NumberText.head_tail_not_digit : ∀ c, t.tail.head? = some c → c.isDigit = false := by
  intro c hc
  rw [NumberText.head_tail hc]
  rfl

theorem extractDecimal_text (hi : t.integer ≠ []) : DecimalHelper.extractDecimal s t.text = (do
    let (decimal, rest) ← extractInteger s (t.integer ++ t.tail) 0
    let (decimal, rest) ← extractScale s decimal rest
    return (⟨decide (t.sign = .minus), decimal⟩, rest)) := by
  unfold DecimalHelper.extractDecimal
  rw [NumberText.skipSign_text, NumberText.head_text]
  obtain ⟨c, cs, hcs⟩ := List.exists_cons_of_ne_nil hi
  have hc : c.isDigit = true := t.integer_digits c (by rw [hcs]; exact List.mem_cons_self)
  have hlt := charDigit_lt_iff.mpr hc
  rw [hcs, List.cons_append]
  dsimp only
  rw [if_neg (by omega)]

def Misread (s : SimpleParams) (t : NumberText) : Prop :=
  s.integer = 0 ∨ (s.fraction = 0 ∧ t.point = true) ∨
    (s.fraction = 1 ∧ t.point = true ∧ t.fraction = [] ∧ digitsValue t.integer ≠ 0)

theorem extractScale_point (h : t.Fits s.toRanks) (hF : s.fraction ≠ 0) (hp : t.point = true) :
    extractScale s (digitsValue t.integer) t.tail =
      some (if s.fraction > 1 ∨ t.fraction ≠ [] then t.magnitude s.fraction else digitsValue t.integer, []) := by
  have hlt := h.magnitude_lt
  have hlen : t.fraction.length ≤ s.fraction := h.2
  have htail : t.tail = '.' :: t.fraction := by
    rw [NumberText.tail, hp]
    rfl
  -- 読んだ数字に、残りの桁数だけ零を付けたものが値である。
  have hscaled : (digitsValue t.integer * 10 ^ t.fraction.length + digitsValue t.fraction) * 10 ^
      (s.fraction - t.fraction.length) = t.magnitude s.fraction := by
    unfold NumberText.magnitude
    rw [Nat.add_mul, Nat.mul_assoc, ← Nat.pow_add, Nat.add_sub_cancel' hlen]
  have hsmall : digitsValue t.integer * 10 ^ t.fraction.length + digitsValue t.fraction < 10 ^ s.total := by
    refine Nat.lt_of_le_of_lt ?_ hlt
    rw [← hscaled]
    exact Nat.le_mul_of_pos_right _ (Nat.pow_pos (by decide))
  unfold extractScale
  rw [htail, if_pos ⟨hF, rfl⟩, List.tail_cons, extractFraction_ok t.fraction_digits hlen hsmall]
  show (if s.fraction > 1 ∧ s.fraction - t.fraction.length > 0 then _ else _) = _
  by_cases hleft : s.fraction - t.fraction.length > 0
  · by_cases hone : s.fraction > 1
    · rw [if_pos ⟨hone, hleft⟩, if_pos (Or.inl hone),
        SimpleParams.pow10_eq (Nat.le_trans (Nat.sub_le _ _) s.fraction_le), hscaled, SimpleParams.cast_of_lt hlt]
      rfl
    · have hnil : t.fraction = [] := List.length_eq_zero_iff.mp (by omega)
      rw [if_neg fun hc => hone hc.1, if_neg fun hc => hc.elim hone fun hne => hne hnil, hnil]
      simp [digitsValue]
  · have hfull : s.fraction - t.fraction.length = 0 := by omega
    have hne : t.fraction ≠ [] := fun hnil => by
      rw [hnil, List.length_nil] at hfull
      omega
    rw [if_neg fun hc => hleft hc.2, if_pos (Or.inr hne), ← hscaled, hfull, Nat.pow_zero, Nat.mul_one]
    rfl

theorem SimpleDecimal.constructText_of_extract {d : Nat} {rest : List Char} (hi : t.integer ≠ []) (hint : s.integer ≠ 0)
    (h : t.Fits s.toRanks) (hscale : extractScale s (digitsValue t.integer) t.tail = some (d, rest)) :
    SimpleDecimal.constructText s t.text =
      if rest ≠ [] then .error .notNumber else .ok ⟨decide (t.sign = .minus), d⟩ := by
  have hread : extractInteger s (t.integer ++ t.tail) 0 = some (digitsValue t.integer, t.tail) := by
    have hlt : 0 * 10 ^ t.integer.length + digitsValue t.integer < 10 ^ s.integer := by
      rw [Nat.zero_mul, Nat.zero_add]
      exact NumberText.integerWidth_le_iff.mp h.1
    rw [extractInteger_ok t.integer_digits NumberText.head_tail_not_digit hint hlt, Nat.zero_mul, Nat.zero_add]
  unfold SimpleDecimal.constructText
  simp only [extractDecimal_text hi, hread, Option.bind_eq_bind, Option.bind_some, hscale]
  rfl

theorem SimpleDecimal.value_eq_value {d : Nat} (h : d = t.magnitude s.fraction) :
    (⟨decide (t.sign = .minus), d⟩ : SimpleDecimal).value = t.value s.fraction := by
  subst h
  unfold SimpleDecimal.value NumberText.value
  simp

theorem SimpleDecimal.constructText_fits (hi : t.integer ≠ []) (h : t.Fits s.toRanks) (hm : ¬ Misread s t) :
    ∃ d, SimpleDecimal.constructText s t.text = .ok d ∧ d.Valid s ∧ d.value = t.value s.fraction := by
  simp only [Misread, not_or, not_and] at hm
  obtain ⟨hint, hzero, hone⟩ := hm
  have hlt : t.magnitude s.fraction < 10 ^ s.total := h.magnitude_lt
  suffices hscale : extractScale s (digitsValue t.integer) t.tail = some (t.magnitude s.fraction, []) by
    rw [SimpleDecimal.constructText_of_extract hi hint h hscale, if_neg (by simp)]
    exact ⟨_, rfl, hlt, SimpleDecimal.value_eq_value rfl⟩
  cases hp : t.point with
  | true =>
      have hF : s.fraction ≠ 0 := fun hF => hzero hF hp
      rw [extractScale_point h hF hp]
      split
      · rfl
      · next hc =>
        rw [not_or, not_not] at hc
        have hval := not_not.mp (hone (by omega) hp hc.2)
        rw [NumberText.magnitude, hc.2, hval]
        simp [digitsValue]
  | false =>
      have hnil : t.fraction = [] := by
        by_contra hne
        rw [t.point_of_fraction hne] at hp
        cases hp
      have htail : t.tail = [] := by
        rw [NumberText.tail, hp]
        rfl
      have hmag : t.magnitude s.fraction = digitsValue t.integer * 10 ^ s.fraction := by
        rw [NumberText.magnitude, hnil]
        simp [digitsValue]
      have hnone : ¬ (s.fraction ≠ 0 ∧ ([] : List Char).head? = some '.') := fun hc => by cases hc.2
      unfold extractScale
      rw [htail, if_neg hnone, hmag, SimpleParams.maxFraction, SimpleParams.cast_of_lt (hmag ▸ hlt)]
      rfl

theorem SimpleDecimal.constructText_misread (hi : t.integer ≠ []) (h : t.Fits s.toRanks) (hm : Misread s t) :
    ¬ ∃ d, SimpleDecimal.constructText s t.text = .ok d ∧ d.value = t.value s.fraction := by
  rintro ⟨d, hok, hval⟩
  by_cases hint : s.integer = 0
  · obtain ⟨c, cs, hcs⟩ := List.exists_cons_of_ne_nil hi
    have hc : c.isDigit = true := t.integer_digits c (by rw [hcs]; exact List.mem_cons_self)
    unfold SimpleDecimal.constructText at hok
    rw [extractDecimal_text hi, hcs, List.cons_append, extractInteger_none hint hc] at hok
    cases hok
  · rcases hm with hm | ⟨hF, hp⟩ | ⟨hF, hp, hnil, hne⟩
    · exact hint hm
    · have htail : t.tail = '.' :: t.fraction := by
        rw [NumberText.tail, hp]
        rfl
      have hscale : extractScale s (digitsValue t.integer) t.tail =
          some (s.base.cast (digitsValue t.integer * s.maxFraction), t.tail) := if_neg fun hc => hc.1 hF
      rw [SimpleDecimal.constructText_of_extract hi hint h hscale, if_pos (by rw [htail]; simp)] at hok
      cases hok
    · have hscale := extractScale_point h (by omega) hp
      rw [if_neg (by rw [hnil]; simp; omega)] at hscale
      rw [SimpleDecimal.constructText_of_extract hi hint h hscale, if_neg (by simp)] at hok
      have hd := Except.ok.inj hok
      have habs := congrArg Int.natAbs hval
      have hmag : (t.value s.fraction).natAbs = t.magnitude s.fraction := by
        unfold NumberText.value
        split <;> omega
      rw [SimpleDecimal.value_natAbs, hmag, ← hd, NumberText.magnitude, hnil, hF] at habs
      have hz : digitsValue [] = 0 := rfl
      rw [hz, Nat.pow_one, Nat.zero_mul, Nat.add_zero] at habs
      dsimp only at habs
      omega

theorem SimpleDecimal.constructText_long (h : s.integer < t.integerWidth) :
    SimpleDecimal.constructText s t.text = .error .overflow := by
  have hi : t.integer ≠ [] := fun h0 => by
    rw [NumberText.integerWidth, h0] at h
    cases h
  have hbig : 10 ^ s.integer ≤ 0 * 10 ^ t.integer.length + digitsValue t.integer := by
    rw [Nat.zero_mul, Nat.zero_add, ← Nat.not_lt, ← NumberText.integerWidth_le_iff]
    omega
  unfold SimpleDecimal.constructText
  rw [extractDecimal_text hi, extractInteger_long t.integer_digits (Nat.pow_pos (by decide)) hbig]
  rfl

theorem extractScale_sound (h : extractScale s decimal rest = some (decimal', [])) :
    rest = [] ∨ ∃ fraction, rest = '.' :: fraction ∧ ∀ c ∈ fraction, c.isDigit = true := by
  unfold extractScale at h
  split at h
  · next hp =>
    refine Or.inr ⟨rest.tail, ?_, ?_⟩
    · cases rest with
      | nil => cases hp.2
      | cons c cs =>
          rw [Option.some.inj hp.2]
          rfl
    · obtain ⟨⟨d, left, rest'⟩, hx, h⟩ := Option.bind_eq_some_iff.mp h
      have hnil : rest' = [] := by
        dsimp only at h
        split at h
        · exact (Prod.mk.inj (Option.some.inj h)).2
        · exact (Prod.mk.inj (Option.some.inj h)).2
      subst hnil
      exact extractFraction_sound hx
  · exact Or.inl (Prod.mk.inj (Option.some.inj h)).2

theorem isNumber_of_extractDecimal {str : List Char} {d : SimpleDecimal}
    (h : DecimalHelper.extractDecimal s str = some (d, [])) : IsNumber str := by
  unfold DecimalHelper.extractDecimal at h
  cases hb : skipSign str with
  | nil =>
      rw [hb] at h
      cases h
  | cons c cs =>
      rw [hb] at h
      dsimp only at h
      split at h
      · cases h
      · next hc =>
        have hdigit : c.isDigit = true := charDigit_lt_iff.mp (by omega)
        obtain ⟨⟨decimal, rest⟩, hint, h⟩ := Option.bind_eq_some_iff.mp h
        obtain ⟨⟨decimal', rest'⟩, hscale, h⟩ := Option.bind_eq_some_iff.mp h
        have hnil : rest' = [] := (Prod.mk.inj (Option.some.inj h)).2
        subst hnil
        obtain ⟨digits, hl, hd, hr⟩ := extractInteger_sound hint
        have hne : digits ≠ [] := fun h0 => by
          rw [h0, List.nil_append] at hl
          have := hr c (by rw [← hl]; rfl)
          rw [hdigit] at this
          cases this
        rcases extractScale_sound hscale with rfl | ⟨fraction, rfl, hf⟩
        · rw [List.append_nil] at hl
          refine isNumber_of_digits ?_ ?_
          · rw [hb, hl]
            exact hd
          · rw [hb]
            simp
        · exact isNumber_of_point (hb.trans hl) hd hf (by simp [hne])

theorem SimpleDecimal.isNumber_of_constructText {str : List Char} {d : SimpleDecimal}
    (h : SimpleDecimal.constructText s str = .ok d) : IsNumber str := by
  unfold SimpleDecimal.constructText at h
  cases hx : DecimalHelper.extractDecimal s str with
  | none =>
      rw [hx] at h
      cases h
  | some r =>
      obtain ⟨d', rest⟩ := r
      rw [hx] at h
      dsimp only at h
      split at h
      · cases h
      · next hrest =>
        have hnil := not_not.mp hrest
        subst hnil
        exact isNumber_of_extractDecimal hx

end UnixCommons.Generics
