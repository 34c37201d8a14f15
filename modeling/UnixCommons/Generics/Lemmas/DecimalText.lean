import UnixCommons.Generics.NumberText
import UnixCommons.Generics.Lemmas.Decimal

/-!
# 文字列から作る `Decimal` の補題

`splitPoint` は、上の零を除いた整数部と、下の零を除いた端数を取り出す。
-/

namespace UnixCommons.Generics

open Lib

variable {p : Params} {t : NumberText} {l integer fraction : List Char} {N i k digits : Nat} {array : Nat → Nat}

/-! ## 数字から要素を作る -/

def charValues (l : List Char) : List Nat := l.map fun c => c.toNat - 48

theorem foldl_cast_eq (h : ∀ c ∈ l, c.isDigit = true) (hl : l.length ≤ p.digitsPerElement) :
    (charValues l).foldl (fun ret x => p.element.cast (ret * 10 + x)) 0 = digitsValue l := by
  induction l using List.reverseRecOn with
  | nil => rfl
  | append_singleton l c ih =>
      have hl' : l.length ≤ p.digitsPerElement := by
        rw [List.length_append] at hl
        omega
      have hlt : digitsValue (l ++ [c]) < p.base :=
        Nat.lt_of_lt_of_le (digitsValue_lt h) (Nat.pow_le_pow_right (by decide) hl)
      have hb : p.base = p.element.base := rfl
      rw [charValues, List.map_append, List.foldl_append, ← charValues,
        ih (fun c hc => h c (List.mem_append_left _ hc)) hl']
      show p.element.cast (digitsValue l * 10 + (c.toNat - 48)) = _
      rw [← digitsValue_append_singleton]
      exact Element.cast_of_lt_base (by omega)

theorem assembleDecimal_eq (hd : digits ≤ p.digitsPerElement) (hk : k + digits ≤ p.total) :
    assembleDecimal p digits ((charValues (numeral N p.total)).drop k) = N / 10 ^ (p.total - k - digits) % 10 ^ digits := by
  unfold assembleDecimal charValues
  rw [← List.map_drop, ← List.map_take, numeral_slice hk]
  refine (foldl_cast_eq (fun c hc => isDigit_of_mem_numeral hc) ?_).trans digitsValue_numeral
  rw [length_numeral]
  exact hd

structure AssembleInv (p : Params) (N i : Nat) (s : (Nat → Nat) × Nat) : Prop where
  rest : s.2 = p.total - i * p.digitsPerElement
  digit : ∀ j < i, s.1 j = N / p.base ^ j % p.base

theorem AssembleInv.step {s : (Nat → Nat) × Nat} (h : AssembleInv p N i s) (hi : i < p.size) (hN : N < 10 ^ p.total) :
    AssembleInv p N (i + 1) (assembleBody p (charValues (numeral N p.total)) i s) := by
  obtain ⟨array, n⟩ := s
  obtain ⟨hrest, hdigit⟩ := h
  dsimp only at hrest hdigit
  have hlow : i * p.digitsPerElement < p.total := by
    have h1 := (Params.size_spec (p := p)).2
    have h2 : (i + 1) * p.digitsPerElement ≤ p.size * p.digitsPerElement := Nat.mul_le_mul_right _ hi
    rw [Nat.add_mul, Nat.one_mul] at h2
    omega
  have hpow : p.base ^ i = 10 ^ (i * p.digitsPerElement) := by
    rw [Params.base_eq, ← Nat.pow_mul, Nat.mul_comm]
  unfold assembleBody
  dsimp only
  generalize hdg : (if n ≥ p.digitsPerElement then p.digitsPerElement else n) = digits
  have hle : digits ≤ p.digitsPerElement := by
    split at hdg <;> omega
  have hle' : digits ≤ n := by
    split at hdg <;> omega
  refine ⟨?_, fun j hj => ?_⟩
  · dsimp only
    rw [Nat.add_mul, Nat.one_mul]
    split at hdg <;> omega
  · dsimp only
    by_cases hji : j = i
    · subst hji
      rw [Function.update_self, assembleDecimal_eq hle (by omega),
        show p.total - (n - digits) - digits = j * p.digitsPerElement by omega, hpow]
      split at hdg
      · rw [← hdg]
        rfl
      · next hlt =>
        -- 最後の要素では、残りの桁がすべて入る。
        have hq : N / 10 ^ (j * p.digitsPerElement) < 10 ^ digits := by
          refine Nat.div_lt_of_lt_mul ?_
          rw [← Nat.pow_add, show j * p.digitsPerElement + digits = p.total by omega]
          exact hN
        rw [Nat.mod_eq_of_lt hq, Nat.mod_eq_of_lt]
        exact Nat.lt_of_lt_of_le hq (Nat.pow_le_pow_right (by decide) hle)
    · rw [Function.update_of_ne hji]
      exact hdigit j (by omega)

theorem assemble_spec (hN : N < 10 ^ p.total) (negative : Bool) (array : Nat → Nat) :
    (⟨negative, (forUp (assembleBody p (charValues (numeral N p.total))) p.size (array, p.total)).1⟩ : Decimal).Valid p ∧
    (⟨negative, (forUp (assembleBody p (charValues (numeral N p.total))) p.size (array, p.total)).1⟩ : Decimal).magnitude p
      = N := by
  have hinv : AssembleInv p N p.size (forUp (assembleBody p (charValues (numeral N p.total))) p.size (array, p.total)) :=
    forUp_invariant _ ⟨by simp, fun j hj => by omega⟩ fun i s hi h => h.step hi hN
  generalize forUp (assembleBody p (charValues (numeral N p.total))) p.size (array, p.total) = s at hinv
  have hmag : (⟨negative, s.1⟩ : Decimal).magnitude p = N := by
    unfold Decimal.magnitude
    rw [val_congr hinv.digit, val_digits]
    exact Nat.mod_eq_of_lt (Nat.lt_of_lt_of_le hN Params.pow_total_le)
  refine ⟨Decimal.valid_of_magnitude_lt (fun i hi => ?_) (hmag ▸ hN), hmag⟩
  dsimp only
  rw [hinv.digit i hi]
  exact Nat.mod_lt _ Params.base_pos

/-! ## 文法に従う文字列 -/

def NumberText.significant (t : NumberText) : List Char := t.integer.dropWhile isZeroDigit

def NumberText.trimmed (t : NumberText) : List Char := t.fraction.rdropWhile isZeroDigit

theorem NumberText.significant_digits : ∀ c ∈ t.significant, c.isDigit = true :=
  fun c hc => t.integer_digits c ((List.dropWhile_sublist _).mem hc)

theorem NumberText.trimmed_digits : ∀ c ∈ t.trimmed, c.isDigit = true :=
  fun c hc => t.fraction_digits c ((List.rdropWhile_prefix _ _).subset hc)

theorem NumberText.length_trimmed_le : t.trimmed.length ≤ t.fraction.length := (List.rdropWhile_prefix _ _).length_le

theorem NumberText.dropWhile_body : (t.integer ++ t.tail).dropWhile isZeroDigit = t.significant ++ t.tail :=
  dropWhile_append_of_head fun c hc => by
    rw [NumberText.head_tail hc]
    rfl

theorem any_point_of_digits (h : ∀ c ∈ l, c.isDigit = true) : l.any isPoint = false := by
  rw [List.any_eq_false]
  intro c hc
  rw [isDigit_not_point (h c hc)]
  decide

theorem NumberText.splitPoint_eq : splitPoint (t.significant ++ t.tail) =
    (if t.trimmed = [] then t.significant else t.significant ++ '.' :: t.trimmed, t.significant, t.trimmed) := by
  have hsig : t.significant.any isPoint = false := any_point_of_digits NumberText.significant_digits
  cases hp : t.point with
  | false =>
      have hf : t.fraction = [] := by
        by_contra hne
        rw [t.point_of_fraction hne] at hp
        cases hp
      have htrim : t.trimmed = [] := by
        rw [NumberText.trimmed, hf]
        rfl
      have htail : t.tail = [] := by
        rw [NumberText.tail, hp]
        rfl
      rw [htail, List.append_nil, htrim, if_pos rfl, splitPoint, hsig]
      rfl
  | true =>
      have htail : t.tail = '.' :: t.fraction := by
        rw [NumberText.tail, hp]
        rfl
      have hany : (t.significant ++ '.' :: t.fraction).any isPoint = true := by
        rw [List.any_append, List.any_cons]
        simp [isPoint]
      have hdrop : (t.significant ++ '.' :: t.fraction).rdropWhile isZeroDigit = t.significant ++ '.' :: t.trimmed := by
        unfold NumberText.trimmed List.rdropWhile
        rw [List.reverse_append, List.reverse_cons, List.append_assoc, dropWhile_append_of_head, List.reverse_append]
        · simp
        · intro c hc
          rw [← Option.some.inj hc]
          rfl
      rw [htail, splitPoint, if_pos hany, hdrop]
      dsimp only
      by_cases htrim : t.trimmed = []
      · rw [htrim, if_pos List.getLast?_concat, if_pos rfl, List.dropLast_concat]
      · have hlast : (t.significant ++ '.' :: t.trimmed).getLast? = t.trimmed.getLast? := by
          rw [List.getLast?_append_of_ne_nil _ (by simp), List.getLast?_cons_of_ne_nil htrim]
        have hne : (t.significant ++ '.' :: t.trimmed).getLast? ≠ some '.' := by
          rw [hlast]
          intro hmem
          have := NumberText.trimmed_digits _ (List.mem_of_getLast? hmem)
          exact absurd this (by decide)
        have hall : ∀ c ∈ t.significant, (!isPoint c) = true := fun c hc => by
          rw [isDigit_not_point (NumberText.significant_digits c hc)]
          rfl
        rw [if_neg hne, if_neg htrim, List.takeWhile_append_of_pos hall, List.dropWhile_append_of_pos hall]
        simp [isPoint]

theorem NumberText.num_eq (hi : t.significant.length ≤ p.integer) (hf : t.trimmed.length ≤ p.fraction) :
    List.replicate (p.integer - t.significant.length) 0 ++ t.significant.map (fun c => c.toNat - 48) ++
      t.trimmed.map (fun c => c.toNat - 48) ++ List.replicate (p.fraction - t.trimmed.length) 0 =
    charValues (numeral (digitsValue t.integer * 10 ^ p.fraction + digitsValue t.trimmed * 10 ^
      (p.fraction - t.trimmed.length)) p.total) := by
  have hI : p.integer + p.fraction = p.total := Nat.sub_add_cancel p.fraction_le
  have hzero : ∀ n, List.replicate n 0 = charValues (List.replicate n '0') := fun n => by simp [charValues]
  have hchars : ∀ c ∈ List.replicate (p.integer - t.significant.length) '0' ++ t.significant ++
      t.trimmed ++ List.replicate (p.fraction - t.trimmed.length) '0', c.isDigit = true := by
    intro c hc
    simp only [List.mem_append, List.mem_replicate] at hc
    rcases hc with ((⟨-, rfl⟩ | hc) | hc) | ⟨-, rfl⟩
    · rfl
    · exact NumberText.significant_digits c hc
    · exact NumberText.trimmed_digits c hc
    · rfl
  have hlen : (List.replicate (p.integer - t.significant.length) '0' ++ t.significant ++
      t.trimmed ++ List.replicate (p.fraction - t.trimmed.length) '0').length = p.total := by
    simp only [List.length_append, List.length_replicate]
    omega
  have hvalue : digitsValue (List.replicate (p.integer - t.significant.length) '0' ++
      t.significant ++ t.trimmed ++ List.replicate (p.fraction - t.trimmed.length) '0') =
      digitsValue t.integer * 10 ^ p.fraction + digitsValue t.trimmed * 10 ^ (p.fraction - t.trimmed.length) := by
    rw [digitsValue_append, digitsValue_append, digitsValue_append, digitsValue_replicate_zero,
      digitsValue_replicate_zero, List.length_replicate, Nat.zero_mul, Nat.zero_add, Nat.add_zero,
      Nat.add_mul, NumberText.significant, digitsValue_dropWhile,
      Nat.mul_assoc, ← Nat.pow_add, show t.trimmed.length + (p.fraction - t.trimmed.length) = p.fraction by omega]
  have hnum := numeral_digitsValue hchars
  rw [hvalue, hlen] at hnum
  rw [hnum, hzero, hzero]
  simp only [charValues, List.map_append]

theorem NumberText.trimmed_value {F : Nat} (hf : t.fraction.length ≤ F) :
    digitsValue t.trimmed * 10 ^ (F - t.trimmed.length) = digitsValue t.fraction * 10 ^ (F - t.fraction.length) := by
  have hle := NumberText.length_trimmed_le (t := t)
  have hval : digitsValue t.trimmed * 10 ^ (t.fraction.length - t.trimmed.length) = digitsValue t.fraction :=
    digitsValue_rdropWhile
  rw [← hval, Nat.mul_assoc, ← Nat.pow_add]
  congr 2
  omega

theorem Decimal.constructText_text (hne : t.integer ++ t.tail ≠ []) :
    Decimal.constructText p t.text array =
      if t.significant = [] ∧ t.trimmed = [] then .ok ⟨decide (t.sign = .minus),
      fill 0 p.size 0 array⟩ else if p.fraction < t.trimmed.length then .error .overflow
      else if p.integer < t.significant.length then .error .overflow
      else .ok ⟨decide (t.sign = .minus), (forUp (assembleBody p (List.replicate (p.integer - t.significant.length) 0 ++
        t.significant.map (fun c => c.toNat - 48) ++ t.trimmed.map (fun c => c.toNat - 48) ++
        List.replicate (p.fraction - t.trimmed.length) 0)) p.size (array, p.total)).1⟩ := by
  have htext : t.text ≠ [] := fun h => by
    have := NumberText.skipSign_text (t := t)
    rw [h] at this
    exact hne this.symm
  have hdigit : ∀ {l : List Char}, (∀ c ∈ l, c.isDigit = true) → (l.any fun c => !c.isDigit) = false := by
    intro l hl
    rw [List.any_eq_false]
    intro c hc
    rw [hl c hc]
    decide
  have hempty : (if t.trimmed = [] then t.significant else t.significant ++ '.' :: t.trimmed) = [] ↔
      t.significant = [] ∧ t.trimmed = [] := by
    split
    · next h => simp [h]
    · next h => simp [h]
  unfold Decimal.constructText
  rw [if_neg htext, NumberText.skipSign_text, if_neg hne, NumberText.dropWhile_body,
    NumberText.splitPoint_eq, NumberText.head_text]
  dsimp only
  rw [hdigit NumberText.trimmed_digits, hdigit NumberText.significant_digits]
  rw [if_congr hempty rfl rfl]
  rfl

theorem Decimal.constructText_fits (hne : t.integer ++ t.tail ≠ []) (h : t.Fits p.toRanks) :
    ∃ d, Decimal.constructText p t.text array = .ok d ∧ d.Valid p ∧ d.value p = t.value p.fraction := by
  have hlt : t.magnitude p.fraction < 10 ^ p.total := h.magnitude_lt
  obtain ⟨hi, hf⟩ := h
  have hi' : t.significant.length ≤ p.integer := hi
  have hf' : t.trimmed.length ≤ p.fraction := Nat.le_trans NumberText.length_trimmed_le hf
  have hmag : t.magnitude p.fraction =
      digitsValue t.integer * 10 ^ p.fraction + digitsValue t.trimmed * 10 ^ (p.fraction - t.trimmed.length) := by
    rw [NumberText.magnitude, NumberText.trimmed_value hf]
  rw [Decimal.constructText_text hne]
  have hsign : ∀ d : Decimal, d.negative = decide (t.sign = .minus) → d.magnitude p =
      t.magnitude p.fraction → d.value p = t.value p.fraction := by
    intro d hn hm
    unfold Decimal.value NumberText.value
    rw [hn, hm]
    simp
  by_cases hz : t.significant = [] ∧ t.trimmed = []
  · have h0 : (⟨decide (t.sign = .minus), fill 0 p.size 0 array⟩ : Decimal).magnitude p = 0 := by
      unfold Decimal.magnitude
      refine (val_eq_zero_iff Params.base_pos).mpr fun i hi => ?_
      exact if_pos ⟨Nat.zero_le i, hi⟩
    have hmag0 : t.magnitude p.fraction = 0 := by
      have h1 : digitsValue t.integer = 0 := by
        rw [← digitsValue_dropWhile, ← NumberText.significant, hz.1]
        rfl
      rw [hmag, h1, hz.2]
      simp [digitsValue]
    rw [if_pos hz]
    refine ⟨_, rfl, Decimal.valid_of_magnitude_lt (fun i hi => ?_) ?_, hsign _ rfl (h0.trans hmag0.symm)⟩
    · dsimp only [fill]
      rw [if_pos ⟨Nat.zero_le i, hi⟩]
      exact Params.base_pos
    · rw [h0]
      exact Nat.pow_pos (by decide)
  · rw [if_neg hz, if_neg (by omega), if_neg (by omega), NumberText.num_eq hi' hf', ← hmag]
    obtain ⟨hv, hm⟩ := assemble_spec hlt (decide (t.sign = .minus)) array
    exact ⟨_, rfl, hv, hsign _ rfl hm⟩

theorem Decimal.constructText_long (h : p.integer < t.integerWidth) :
    Decimal.constructText p t.text array = .error .overflow := by
  have hlen : p.integer < t.significant.length := h
  have hsig : t.significant ≠ [] := fun h0 => by
    rw [h0, List.length_nil] at hlen
    omega
  have hne : t.integer ++ t.tail ≠ [] := fun h0 => by
    have hint : t.integer = [] := (List.append_eq_nil_iff.mp h0).1
    exact hsig (by rw [NumberText.significant, hint]; rfl)
  rw [Decimal.constructText_text hne, if_neg fun hz => hsig hz.1, if_pos hlen, ite_self]

/-! ## 受け付ける文字列 -/

variable {str body : List Char}

theorem exists_sign (str : List Char) : ∃ sign : Sign, str = sign.text ++ skipSign str := by
  cases str with
  | nil => exact ⟨.absent, rfl⟩
  | cons c cs =>
      by_cases hs : isSign c = true
      · have hskip : skipSign (c :: cs) = cs := if_pos hs
        rw [hskip]
        simp only [isSign, Bool.or_eq_true, decide_eq_true_eq] at hs
        rcases hs with rfl | rfl
        · exact ⟨.minus, rfl⟩
        · exact ⟨.plus, rfl⟩
      · have hskip : skipSign (c :: cs) = c :: cs := if_neg hs
        exact ⟨.absent, hskip.symm⟩

theorem isNumber_of_digits (h : ∀ c ∈ skipSign str, c.isDigit = true) (hne : skipSign str ≠ []) : IsNumber str := by
  obtain ⟨sign, hs⟩ := exists_sign str
  refine ⟨⟨sign, skipSign str, false, [], h, by simp, fun h => absurd rfl h⟩, ?_, by simpa using hne⟩
  conv_rhs => rw [hs]
  simp [NumberText.text, NumberText.tail]

theorem isNumber_of_point (hb : skipSign str = integer ++ '.' :: fraction) (hi : ∀ c ∈ integer, c.isDigit = true)
    (hf : ∀ c ∈ fraction, c.isDigit = true) (hne : integer ++ fraction ≠ []) : IsNumber str := by
  obtain ⟨sign, hs⟩ := exists_sign str
  refine ⟨⟨sign, integer, true, fraction, hi, hf, fun _ => rfl⟩, ?_, hne⟩
  conv_rhs => rw [hs, hb]
  rfl

theorem isDigit_of_zero {c : Char} (h : isZeroDigit c = true) : c.isDigit = true := by
  rw [show c = '0' from of_decide_eq_true h]
  rfl

theorem digits_of_any (h : ¬ (l.any fun c => !c.isDigit) = true) : ∀ c ∈ l, c.isDigit = true := by
  intro c hc
  by_contra hno
  exact h (List.any_eq_true.mpr ⟨c, hc, by simpa using hno⟩)

theorem isNumber_of_splitPoint (hne : skipSign str ≠ [])
    (hi : ∀ c ∈ (splitPoint ((skipSign str).dropWhile isZeroDigit)).2.1, c.isDigit = true)
    (hf : ∀ c ∈ (splitPoint ((skipSign str).dropWhile isZeroDigit)).2.2, c.isDigit = true) :
    IsNumber str ∨ skipSign str = ['.'] := by
  have hzeros : ∀ c ∈ (skipSign str).takeWhile isZeroDigit, c.isDigit = true := fun c hc =>
    isDigit_of_zero (List.mem_takeWhile_imp hc)
  have hbody := List.takeWhile_append_dropWhile (p := isZeroDigit) (l := skipSign str)
  generalize (skipSign str).takeWhile isZeroDigit = zeros at hzeros hbody
  generalize (skipSign str).dropWhile isZeroDigit = rest at hi hf hbody
  unfold splitPoint at hi hf
  by_cases hany : rest.any isPoint = true
  · rw [if_pos hany] at hi hf
    dsimp only at hi hf
    -- `rest` は、`text` の後ろに零が並んだものである。
    have hsplit : rest.rdropWhile isZeroDigit ++ rest.rtakeWhile isZeroDigit = rest := List.rdropWhile_append_rtakeWhile
    have htrail : ∀ c ∈ rest.rtakeWhile isZeroDigit, c.isDigit = true :=
      fun c hc => isDigit_of_zero (List.mem_rtakeWhile_imp hc)
    generalize rest.rdropWhile isZeroDigit = text at hi hf hsplit
    generalize rest.rtakeWhile isZeroDigit = trail at htrail hsplit
    subst hsplit
    by_cases hlast : text.getLast? = some '.'
    · rw [if_pos hlast] at hi
      obtain ⟨head, rfl⟩ := List.getLast?_eq_some_iff.mp hlast
      dsimp only at hi
      rw [List.dropLast_concat] at hi
      by_cases hempty : zeros ++ head ++ trail = []
      · right
        simp only [List.append_eq_nil_iff] at hempty
        rw [← hbody, hempty.1.1, hempty.1.2, hempty.2]
        rfl
      · refine Or.inl (isNumber_of_point (by rw [← hbody]; simp) (fun c hc => ?_) htrail hempty)
        exact (List.mem_append.mp hc).elim (hzeros c) (hi c)
    · rw [if_neg hlast] at hi hf
      dsimp only at hi hf
      have hpoint : text.any isPoint = true := by
        rw [List.any_append, any_point_of_digits htrail, Bool.or_false] at hany
        exact hany
      have htext := List.takeWhile_append_dropWhile (p := fun c => !isPoint c) (l := text)
      -- 最初の小数点から後ろは、小数点と端数である。
      obtain ⟨fraction, hfrac⟩ : ∃ fraction, text.dropWhile (fun c => !isPoint c) = '.' :: fraction := by
        have hhead := List.head?_dropWhile_not (fun c => !isPoint c) text
        cases hd : text.dropWhile (fun c => !isPoint c) with
        | nil =>
            obtain ⟨c, hc, hcp⟩ := List.any_eq_true.mp hpoint
            have := List.dropWhile_eq_nil_iff.mp hd c hc
            rw [hcp] at this
            cases this
        | cons c cs =>
            rw [hd] at hhead
            have hc : c = '.' := by simpa [isPoint] using hhead
            exact ⟨cs, by rw [hc]⟩
      rw [hfrac] at hf htext
      generalize text.takeWhile (fun c => !isPoint c) = head at hi htext
      have hne' : fraction ≠ [] := fun h0 => by
        rw [← htext, h0] at hlast
        exact hlast List.getLast?_concat
      have hwhole : skipSign str = zeros ++ head ++ '.' :: (fraction ++ trail) := by
        rw [← hbody, ← htext]
        simp
      refine Or.inl (isNumber_of_point hwhole (fun c hc => ?_) (fun c hc => ?_) (by simp [hne']))
      · exact (List.mem_append.mp hc).elim (hzeros c) (hi c)
      · exact (List.mem_append.mp hc).elim (hf c) (htrail c)
  · rw [if_neg hany] at hi
    dsimp only at hi
    refine Or.inl (isNumber_of_digits (fun c hc => ?_) hne)
    rw [← hbody, List.mem_append] at hc
    exact hc.elim (hzeros c) (hi c)

theorem splitPoint_nil {r : List Char} (h : (splitPoint r).1 = []) :
    (splitPoint r).2.1 = [] ∧ (splitPoint r).2.2 = [] := by
  unfold splitPoint at h ⊢
  split
  · next hany =>
    rw [if_pos hany] at h
    dsimp only at h ⊢
    split
    · next hlast =>
      rw [if_pos hlast] at h
      exact ⟨h, rfl⟩
    · next hlast =>
      rw [if_neg hlast] at h
      dsimp only at h ⊢
      rw [h]
      exact ⟨rfl, rfl⟩
  · next hany =>
    rw [if_neg hany] at h
    exact ⟨h, rfl⟩

theorem Decimal.isNumber_of_constructText {d : Decimal}
    (h : Decimal.constructText p str array = .ok d) : IsNumber str ∨ skipSign str = ['.'] := by
  unfold Decimal.constructText at h
  split at h
  · cases h
  · split at h
    · cases h
    · next hne =>
      have hkey := isNumber_of_splitPoint hne
      have hnil := splitPoint_nil (r := (skipSign str).dropWhile isZeroDigit)
      generalize splitPoint ((skipSign str).dropWhile isZeroDigit) = r at h hkey hnil
      obtain ⟨text, integer, fraction⟩ := r
      dsimp only at h hkey hnil
      split at h
      · next htext =>
        obtain ⟨h1, h2⟩ := hnil htext
        rw [h1, h2] at hkey
        exact hkey (by simp) (by simp)
      · split at h
        · cases h
        · split at h
          · cases h
          · split at h
            · cases h
            · next hfrac =>
              split at h
              · cases h
              · next hint => exact hkey (digits_of_any hint) (digits_of_any hfrac)

end UnixCommons.Generics
