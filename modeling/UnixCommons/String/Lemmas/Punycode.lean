import Mathlib.Tactic.Ring
import Mathlib.Tactic.Linarith
import Mathlib.Tactic.Positivity
import Mathlib.Tactic.IntervalCases
import Mathlib.Data.List.InsertIdx
import Mathlib.Tactic.Tauto
import UnixCommons.String.Punycode
import UnixCommons.Lib.Spec

/-! # Punycode の数の補題 -/

namespace UnixCommons.String.Punycode

open Lib AsciiStringManip Bootstring

variable {n k q t w i j d delta bias fuel out numpoints : Nat} {firsttime : Bool} {ch : UInt8} {input rest : Bytes}

theorem wchar_eq (h : n < 2 ^ 31) : wchar n = .ok n := if_pos h

theorem wchar_eq_error (h : 2 ^ 31 ≤ n) : wchar n = .error .overflow := if_neg (by omega)

/-! ## `adapt` -/

theorem scaled_le (h : d ≤ 30) : 36 * d / (d + 38) ≤ 15 := by
  have : 36 * d / (d + 38) < 16 := (Nat.div_lt_iff_lt_mul (by omega)).mpr (by omega)
  omega

theorem scaled_lt (d : Nat) : 36 * d / (d + 38) < 36 := (Nat.div_lt_iff_lt_mul (by omega)).mpr (by omega)

theorem adaptLoop_spec (hd : d < 31 * 35 ^ j) (hfuel : j < fuel) (hk : k + 36 * j < 2 ^ 31) :
    ∃ d' k', adaptLoop fuel d k = .ok (d', k') ∧ d' ≤ 455 ∧ k' + 36 * d' / (d' + 38) = k + scale d ∧
      scale d ≤ 36 * j + 15 := by
  induction j generalizing d k fuel with
  | zero =>
      obtain ⟨fuel, rfl⟩ : ∃ m, fuel = m + 1 := ⟨fuel - 1, by omega⟩
      have hd' : d ≤ 30 := by simpa [Nat.lt_succ_iff] using hd
      have hscale : scale d = 36 * d / (d + 38) := by rw [scale, if_neg (by omega)]
      have := scaled_le hd'
      refine ⟨d, k, ?_, by omega, by omega, by omega⟩
      rw [adaptLoop, if_neg (by omega)]
      rfl
  | succ j ih =>
      obtain ⟨fuel, rfl⟩ : ∃ m, fuel = m + 1 := ⟨fuel - 1, by omega⟩
      rw [adaptLoop]
      by_cases hgt : d > 455
      · have hdiv : d / 35 < 31 * 35 ^ j := by
          rw [Nat.div_lt_iff_lt_mul (by decide), Nat.mul_assoc, ← pow_succ]
          exact hd
        have hscale : scale d = 36 + scale (d / 35) := by rw [scale, if_pos hgt]
        obtain ⟨d', k', hrun, hle, hsum, hbound⟩ := ih hdiv (by omega : j < fuel) (by omega : k + 36 + 36 * j < 2 ^ 31)
        refine ⟨d', k', ?_, hle, by omega, by omega⟩
        rw [if_pos hgt, wchar_eq (by omega), ok_bind]
        exact hrun
      · have hscale : scale d = 36 * d / (d + 38) := by rw [scale, if_neg hgt]
        have := scaled_lt d
        refine ⟨d, k, ?_, by omega, by omega, by omega⟩
        rw [if_neg hgt]
        rfl

theorem halved_lt (hdelta : delta < 2 ^ 31) (h2 : firsttime = false → 2 ≤ numpoints) :
    (if firsttime then delta / 700 else delta / 2) + (if firsttime then delta / 700 else delta /
    2) / numpoints < 31 * 35 ^ 5 := by
  cases firsttime with
  | true =>
      have hdiv : delta / 700 / numpoints ≤ delta / 700 := Nat.div_le_self _ _
      simp only [if_true]
      omega
  | false =>
      have hdiv : delta / 2 / numpoints ≤ delta / 2 / 2 := Nat.div_le_div_left (h2 rfl) (by decide)
      simp only [Bool.false_eq_true, if_false]
      omega

theorem adapt_spec (hdelta : delta < 2 ^ 31) (hn : numpoints < 2 ^ 31) (h0 : 0 < numpoints)
    (h2 : firsttime = false → 2 ≤ numpoints) :
    adapt delta numpoints firsttime = .ok (adaptOf delta numpoints firsttime) ∧ adaptOf delta numpoints firsttime ≤ 195 := by
  have hlt := halved_lt hdelta h2
  obtain ⟨d', k', hrun, hle, hsum, hbound⟩ := adaptLoop_spec hlt (by decide : 5 < 32) (by decide : 0 + 36 * 5 < 2 ^ 31)
  refine ⟨?_, hbound⟩
  have hshift : delta >>> 1 = delta / 2 := Nat.shiftRight_eq_div_pow delta 1
  unfold adapt
  rw [wchar_eq hdelta, ok_bind, wchar_eq hn, ok_bind, hshift]
  dsimp only
  rw [if_neg (by omega), wchar_eq (by omega), ok_bind, hrun, ok_bind]
  dsimp only
  rw [wchar_eq (by omega), ok_bind, hsum, wchar_eq (by omega), Nat.zero_add]
  rfl

/-! ## 閾値と重み -/

theorem threshold_eq (h : bias ≤ 195) : threshold (36 * (i + 1)) bias = .ok (thresholdAt bias i) := by
  unfold threshold thresholdAt
  split_ifs with h₁ h₂
  · rfl
  · rw [wchar_eq (by omega), ok_bind, if_pos h₂]
    rfl
  · rw [wchar_eq (by omega), ok_bind, if_neg h₂]
    rfl

theorem thresholdAt_bounds (bias i : Nat) : 1 ≤ thresholdAt bias i ∧ thresholdAt bias i ≤ 26 := by
  unfold thresholdAt
  split_ifs <;> omega

theorem thresholdAt_lt (bias i : Nat) : thresholdAt bias i < 36 := by
  have := thresholdAt_bounds bias i
  omega

theorem le_thresholdAt (hi : 5 ≤ i) (hb : bias ≤ 195) : 21 ≤ thresholdAt bias i := by
  unfold thresholdAt
  split_ifs <;> omega

theorem weight_lt (hb : bias ≤ 195) (hw : w ≤ 35 ^ i) (hd : thresholdAt bias i ≤ d)
    (hdw : d * w < 2 ^ 31) : w * (36 - thresholdAt bias i) < 2 ^ 31 := by
  obtain ⟨h₁, h₂⟩ := thresholdAt_bounds bias i
  by_cases hi : i ≤ 4
  · have hpow : 35 ^ i ≤ 35 ^ 4 := Nat.pow_le_pow_right (by decide) hi
    have hmul : w * (36 - thresholdAt bias i) ≤ 35 ^ 4 * 35 := Nat.mul_le_mul (by omega) (by omega)
    omega
  · have hge := le_thresholdAt (by omega : 5 ≤ i) hb
    have hmul : w * (36 - thresholdAt bias i) ≤ d * w := by
      rw [Nat.mul_comm d w]
      exact Nat.mul_le_mul_left w (by omega)
    omega

theorem index_le (h : 10 ^ i ≤ w) (hw : w < 2 ^ 31) : i ≤ 9 := by
  by_contra hi
  have : 10 ^ 10 ≤ 10 ^ i := Nat.pow_le_pow_right (by decide) (by omega)
  omega

/-! ## 桁を読む -/

theorem readDelta_last (hb : bias ≤ 195) (h36 : digitValue ch < 36)
    (hdw : digitValue ch * w < 2 ^ 31) (ht : digitValue ch < thresholdAt bias i) :
    readDelta bias (ch :: input) w (36 * (i + 1)) out = .ok (some (out + digitValue ch * w, input)) := by
  rw [readDelta]
  dsimp only
  rw [if_neg (by omega), wchar_eq hdw, ok_bind, threshold_eq hb, ok_bind, if_pos ht]
  rfl

theorem readDelta_more (hb : bias ≤ 195) (h36 : digitValue ch < 36)
    (hdw : digitValue ch * w < 2 ^ 31) (ht : thresholdAt bias i ≤ digitValue ch)
    (hw : w * (36 - thresholdAt bias i) < 2 ^ 31) (hi : i ≤ 9) :
    readDelta bias (ch :: input) w (36 * (i + 1)) out =
      readDelta bias input (w * (36 - thresholdAt bias i)) (36 * (i + 1 + 1)) (out + digitValue ch * w) := by
  rw [readDelta]
  dsimp only
  rw [if_neg (by omega), wchar_eq hdw, ok_bind, threshold_eq hb, ok_bind, if_neg (by omega),
    wchar_eq hw, ok_bind, wchar_eq (by omega), ok_bind]
  rfl

structure Weight (i w : Nat) : Prop where
  lower : 10 ^ i ≤ w
  upper : w ≤ 35 ^ i
  lt : w < 2 ^ 31

theorem Weight.one : Weight 0 1 := ⟨by decide, by decide, by decide⟩

theorem Weight.index_le (h : Weight i w) : i ≤ 9 := Punycode.index_le h.lower h.lt

theorem Weight.next (hb : bias ≤ 195) (h : Weight i w) (hd : thresholdAt bias i ≤ d)
    (hdw : d * w < 2 ^ 31) : Weight (i + 1) (w * (36 - thresholdAt bias i)) := by
  obtain ⟨h₁, h₂⟩ := thresholdAt_bounds bias i
  refine ⟨?_, ?_, weight_lt hb h.upper hd hdw⟩
  · rw [pow_succ]
    exact Nat.mul_le_mul h.lower (by omega)
  · rw [pow_succ]
    exact Nat.mul_le_mul h.upper (by omega)

theorem readDelta_eq (hb : bias ≤ 195) (hw : Weight i w)
    (h : ∀ x ∈ terms 36 (thresholdAt bias) i w (input.map digitValue), x < 2 ^ 31) (out : Nat) :
    (readInteger 36 (thresholdAt bias) i w (input.map digitValue) = none ∧
    readDelta bias input w (36 * (i + 1)) out = .ok none) ∨
      ∃ v rest, rest <:+ input ∧ readInteger 36 (thresholdAt bias) i w (input.map digitValue) =
      some (v, rest.map digitValue) ∧
        readDelta bias input w (36 * (i + 1)) out = .ok (some (out + v, rest)) := by
  induction input generalizing i w out with
  | nil => exact .inl ⟨rfl, rfl⟩
  | cons ch input ih =>
      simp only [List.map_cons, terms, readInteger] at h ⊢
      by_cases h36 : 36 ≤ digitValue ch
      · refine .inl ⟨if_pos h36, ?_⟩
        rw [readDelta]
        exact if_pos h36
      rw [if_neg h36] at h ⊢
      by_cases ht : digitValue ch < thresholdAt bias i
      · rw [if_pos ht, List.forall_mem_singleton] at h
        rw [if_pos ht]
        exact .inr ⟨_, input, List.suffix_cons _ _, rfl, readDelta_last hb (by omega) h ht⟩
      · rw [if_neg ht, List.forall_mem_cons] at h
        rw [if_neg ht]
        have hnext := hw.next hb (by omega : thresholdAt bias i ≤ digitValue ch) h.1
        rw [readDelta_more hb (by omega) h.1 (by omega) hnext.lt hw.index_le]
        obtain ⟨hread, hrun⟩ | ⟨v, rest, hsuffix, hread, hrun⟩ := ih hnext h.2 (out + digitValue ch * w)
        · exact .inl ⟨by rw [hread]; rfl, hrun⟩
        · refine .inr ⟨_, rest, hsuffix.trans (List.suffix_cons _ _), by rw [hread]; rfl, ?_⟩
          rw [hrun, Nat.add_assoc]

theorem readDelta_overflow (hb : bias ≤ 195) (hw : Weight i w)
    (h : ∃ x ∈ terms 36 (thresholdAt bias) i w (input.map digitValue), 2 ^ 31 ≤ x) :
    readDelta bias input w (36 * (i + 1)) out = .error .overflow := by
  induction input generalizing i w out with
  | nil => simp [terms] at h
  | cons ch input ih =>
      simp only [List.map_cons, terms] at h
      by_cases h36 : 36 ≤ digitValue ch
      · simp [h36] at h
      rw [if_neg h36] at h
      by_cases hdw : digitValue ch * w < 2 ^ 31
      · by_cases ht : digitValue ch < thresholdAt bias i
        · rw [if_pos ht] at h
          simp only [List.mem_singleton, exists_eq_left] at h
          omega
        · rw [if_neg ht, List.exists_mem_cons_iff] at h
          have hnext := hw.next hb (by omega : thresholdAt bias i ≤ digitValue ch) hdw
          rw [readDelta_more hb (by omega) hdw (by omega) hnext.lt hw.index_le]
          exact ih hnext (h.resolve_left (by omega))
      · rw [readDelta]
        dsimp only
        rw [if_neg (by omega), wchar_eq_error (by omega), error_bind]

/-! ## 桁を書く -/

theorem encodeTable_digits : ∀ d < 36, encodeChar d = .ok (encodeTable.getD d 0) ∧
    encodeTable.getD d 0 ∈ encodeTable ∧ digitValue (encodeTable.getD d 0) = d := by
  decide

theorem pushDelta_spec (hb : bias ≤ 195) (hi : i ≤ 10) (hfuel : i + fuel = 32) (hq : q * 10 ^ i < 2 ^ 31) :
    ∃ ext, pushDelta bias fuel (36 * (i + 1)) q = .ok ext ∧ (∀ b ∈ ext, b ∈ encodeTable) ∧
      Writes 36 (thresholdAt bias) i q (ext.map digitValue) := by
  induction fuel generalizing i q with
  | zero => omega
  | succ fuel ih =>
      obtain ⟨h₁, h₂⟩ := thresholdAt_bounds bias i
      rw [pushDelta, threshold_eq hb, ok_bind]
      by_cases hlt : q < thresholdAt bias i
      · obtain ⟨hch, hmem, hdigit⟩ := encodeTable_digits q (by omega)
        rw [if_pos hlt, hch, ok_bind]
        refine ⟨_, rfl, List.forall_mem_singleton.mpr hmem, ?_⟩
        rw [List.map_singleton, hdigit]
        exact .last hlt
      · have hpow : 10 ^ i ≤ q * 10 ^ i := Nat.le_mul_of_pos_left _ (by omega)
        have hi9 := index_le hpow hq
        have hmod := Nat.mod_lt (q - thresholdAt bias i) (by omega : 36 - thresholdAt bias i > 0)
        obtain ⟨hch, hmem, hdigit⟩ :=
          encodeTable_digits (thresholdAt bias i + (q - thresholdAt bias i) % (36 - thresholdAt bias i)) (by omega)
        have hnext : (q - thresholdAt bias i) / (36 - thresholdAt bias i) * 10 ^ (i + 1) < 2 ^ 31 := by
          have hdiv : (q - thresholdAt bias i) / (36 - thresholdAt bias i) * 10 ≤ q := calc
            (q - thresholdAt bias i) / (36 - thresholdAt bias i) * 10
              ≤ (q - thresholdAt bias i) / (36 - thresholdAt bias i) * (36 - thresholdAt bias i) :=
              Nat.mul_le_mul_left _ (by omega)
            _ ≤ q - thresholdAt bias i := Nat.div_mul_le_self _ _
            _ ≤ q := Nat.sub_le _ _
          rw [pow_succ', ← Nat.mul_assoc]
          exact (Nat.mul_le_mul_right _ hdiv).trans_lt hq
        obtain ⟨ext, hrun, hext, hwrites⟩ := ih (by omega : i + 1 ≤ 10) (by omega) hnext
        rw [if_neg hlt, hch, ok_bind, wchar_eq (by omega), ok_bind]
        have hk : 36 * (i + 1) + 36 = 36 * (i + 1 + 1) := by ring
        rw [hk, hrun, ok_bind]
        refine ⟨_, rfl, List.forall_mem_cons.mpr ⟨hmem, hext⟩, ?_⟩
        rw [List.map_cons, hdigit]
        exact .more (by omega) hwrites

theorem readDelta_writes {ext : Bytes} (hb : bias ≤ 195) (hq : q < 2 ^ 31)
    (h : Writes 36 (thresholdAt bias) 0 q (ext.map digitValue))
    (rest : Bytes) : readDelta bias (ext ++ rest) 1 36 out = .ok (some (out + q, rest)) := by
  have hread : readInteger 36 (thresholdAt bias) 0 1 ((ext ++ rest).map digitValue) = some (q, rest.map digitValue) := by
    have := h.readInteger_append (thresholdAt_lt bias) 1 (rest.map digitValue)
    rwa [Nat.mul_one, ← List.map_append] at this
  have hterms : ∀ x ∈ terms 36 (thresholdAt bias) 0 1 ((ext ++ rest).map digitValue), x < 2 ^ 31 :=
    fun x hx => (le_of_readInteger hread x hx).trans_lt hq
  obtain ⟨hnone, -⟩ | ⟨v, rest', hsuffix, hsome, hrun⟩ := readDelta_eq hb Weight.one hterms out
  · rw [hnone] at hread
    cases hread
  · rw [hsome, Option.some_inj, Prod.mk.injEq] at hread
    obtain ⟨rfl, hrest⟩ := hread
    have hlen : rest'.length = rest.length := by simpa using congrArg List.length hrest
    have heq : rest' = rest :=
      (List.suffix_of_suffix_length_le hsuffix (List.suffix_append ext rest) hlen.le).eq_of_length hlen
    rw [heq] at hrun
    exact hrun

end UnixCommons.String.Punycode

/-! ## Punycode の復号の補題 -/

namespace UnixCommons.String.Punycode

open Lib AsciiStringManip Bootstring

variable {n m i pos delta bias fuel : Nat} {input rest : Bytes} {output : List Nat}

theorem insertIdx_length_append (a b : List Nat) (m : Nat) : (a ++ b).insertIdx a.length m = a ++ m :: b := by
  induction a with
  | nil => rfl
  | cons x a ih => rw [List.cons_append, List.length_cons, List.insertIdx_succ_cons, ih, List.cons_append]

theorem insertAt_eq (h : pos ≤ output.length) (m : Nat) : insertAt (output ++ [0]) pos m = .ok (output.insertIdx pos m) := by
  obtain ⟨a, b, rfl, rfl⟩ : ∃ a b, output = a ++ b ∧ pos = a.length :=
    ⟨output.take pos, output.drop pos, (List.take_append_drop pos output).symm, (List.length_take_of_le h).symm⟩
  obtain ⟨y, c, hy⟩ : ∃ y c, b ++ [0] = y :: c := List.exists_cons_of_ne_nil (by simp)
  have hc : c.length = b.length := by simpa using (congrArg List.length hy).symm
  have hsize : (a ++ b ++ [0]).length = a.length + 1 + b.length := by
    simp only [List.length_append, List.length_singleton]
    omega
  have hlist : a ++ b ++ [0] ++ [0] = a ++ [y] ++ (c ++ [0]) := by simp [hy]
  have htake : (a ++ b ++ [0] ++ [0]).take (a.length + 1) = a ++ [y] := by
    rw [hlist]
    exact List.take_left' (by simp)
  have hdrop : ((a ++ b ++ [0] ++ [0]).drop a.length).take (b.length + 1) = b ++ [0] := by
    rw [List.append_assoc a, List.append_assoc a, List.drop_left]
    exact List.take_left' (by simp)
  have hend : (a ++ b ++ [0] ++ [0]).drop (a.length + 1 + (b.length + 1)) = [] := List.drop_eq_nil_of_le (by simp; omega)
  have hmove : memmove (a ++ b ++ [0] ++ [0]) (a.length + 1) a.length (b.length + 1) = .ok (a ++ [y] ++ b ++ [0]) := by
    rw [memmove, if_pos (by simp; omega), htake, hdrop, hend, List.append_nil, ← List.append_assoc]
    rfl
  have hcut : (a ++ [y] ++ b ++ [0]).take (a.length + 1 + b.length) = a ++ [y] ++ b := List.take_left' (by simp; omega)
  have hset : (a ++ [y] ++ b).set a.length m = a ++ m :: b := by simp
  unfold insertAt
  rw [hsize, show a.length + 1 + b.length - a.length = b.length + 1 by omega, hmove, ok_bind]
  dsimp only
  rw [hcut, if_pos (by simp), hset, insertIdx_length_append]
  rfl

theorem decodeLoop_nil : decodeLoop (fuel + 1) [] n bias i output = .ok (some output) := by
  rw [decodeLoop, if_pos rfl]
  rfl

theorem two_le_numpoints {size : Nat} (hfirst : i ≠ 0 → 1 ≤ size) : decide (i = 0) = false → 2 ≤ size + 1 := by
  intro hi
  have := hfirst (of_decide_eq_false hi)
  omega

theorem decodeLoop_step (h0 : input ≠ []) (hread : readDelta bias input 1 36 i = .ok (some (i + delta, rest)))
    (hdelta : delta < 2 ^ 31) (hlen : output.length + 1 < 2 ^ 31)
    (hfirst : i ≠ 0 → 1 ≤ output.length) (hpoint : n + (i + delta) / (output.length + 1) < 2 ^ 31) :
    decodeLoop (fuel + 1) input n bias i output =
      decodeLoop fuel rest (n + (i + delta) / (output.length + 1)) (adaptOf delta (output.length + 1) (i = 0))
        ((i + delta) % (output.length + 1) + 1)
        (output.insertIdx ((i + delta) % (output.length + 1)) (n + (i + delta) / (output.length + 1))) := by
  have hsize : (output ++ [0]).length = output.length + 1 := by simp
  have hpos : (i + delta) % (output.length + 1) ≤ output.length := Nat.lt_succ_iff.mp (Nat.mod_lt _ (by omega))
  rw [decodeLoop, if_neg h0, hread, ok_bind]
  dsimp only
  rw [hsize, Nat.add_sub_cancel_left,
    (adapt_spec hdelta hlen (by omega) (two_le_numpoints hfirst)).1, ok_bind, wchar_eq hpoint,
    ok_bind, insertAt_eq hpos, ok_bind]

theorem inRange_cons {deltas points : List Nat} {pending : Option (List Nat)} :
    InRange ⟨delta :: deltas, m :: points, pending⟩ ↔ delta < 2 ^ 31 ∧ m < 2 ^ 31 ∧ InRange ⟨deltas, points, pending⟩ := by
  constructor
  · rintro ⟨hd, hp, hq⟩
    obtain ⟨hd, hds⟩ := List.forall_mem_cons.mp hd
    obtain ⟨hp, hps⟩ := List.forall_mem_cons.mp hp
    exact ⟨hd, hp, hds, hps, hq⟩
  · rintro ⟨hd, hp, hds, hps, hq⟩
    exact ⟨List.forall_mem_cons.mpr ⟨hd, hds⟩, List.forall_mem_cons.mpr ⟨hp, hps⟩, hq⟩

theorem decodeLoop_overflow_of_delta (h0 : input ≠ []) (hread : readDelta bias input 1 36 i = .ok (some (i + delta, rest)))
    (hdelta : 2 ^ 31 ≤ delta) : decodeLoop (fuel + 1) input n bias i output = .error .overflow := by
  rw [decodeLoop, if_neg h0, hread, ok_bind]
  dsimp only
  rw [Nat.add_sub_cancel_left, adapt, wchar_eq_error hdelta, error_bind, error_bind]

theorem decodeLoop_overflow_of_point (h0 : input ≠ []) (hread : readDelta bias input 1 36 i = .ok (some (i + delta, rest)))
    (hdelta : delta < 2 ^ 31) (hlen : output.length + 1 < 2 ^ 31)
    (hfirst : i ≠ 0 → 1 ≤ output.length) (hpoint : 2 ^ 31 ≤ n + (i + delta) / (output.length + 1)) :
    decodeLoop (fuel + 1) input n bias i output = .error .overflow := by
  have hsize : (output ++ [0]).length = output.length + 1 := by simp
  rw [decodeLoop, if_neg h0, hread, ok_bind]
  dsimp only
  rw [hsize, Nat.add_sub_cancel_left,
    (adapt_spec hdelta hlen (by omega) (two_le_numpoints hfirst)).1, ok_bind, wchar_eq_error hpoint,
    error_bind]

theorem not_inRange_of_terms {ds : List Nat} {len : Nat} (h0 : ds ≠ [])
    (h : ∃ x ∈ terms 36 (thresholdAt bias) 0 1 ds, 2 ^ 31 ≤ x) :
    ¬ InRange (reading 36 thresholdAt adaptOf ds n bias i len) := by
  obtain ⟨x, hx, hge⟩ := h
  intro hr
  cases hread : readInteger 36 (thresholdAt bias) 0 1 ds with
  | none =>
      rw [reading_of_none h0 hread] at hr
      exact absurd (hr.pending _ rfl x hx) (by omega)
  | some p =>
      obtain ⟨delta, rest⟩ := p
      rw [reading_of_some hread] at hr
      exact absurd ((le_of_readInteger hread x hx).trans_lt (inRange_cons.mp hr).1) (by omega)

theorem decodeLoop_spec (hb : bias ≤ 195) (hfuel : input.length < fuel) (hsize : output.length + input.length < 2 ^ 31)
    (hfirst : i ≠ 0 → 1 ≤ output.length) {r : Reading}
    (hr : reading 36 thresholdAt adaptOf (input.map digitValue) n bias i output.length = r) :
    (InRange r ∧ r.pending ≠ none ∧ decodeLoop fuel input n bias i output = .ok none) ∨
      (InRange r ∧ r.pending = none ∧
        ∃ final, decodeLoop fuel input n bias i output = .ok (some final) ∧ ∀ x, x ∈ final ↔ x ∈ output ∨ x ∈ r.points) ∨
      (¬ InRange r ∧ decodeLoop fuel input n bias i output = .error .overflow) := by
  induction fuel generalizing input n bias i output r with
  | zero => omega
  | succ fuel ih =>
      by_cases h0 : input = []
      · subst h0
        rw [List.map_nil, reading_nil] at hr
        subst hr
        exact .inr (.inl ⟨⟨by simp, by simp, by simp⟩, rfl, output, decodeLoop_nil, by simp⟩)
      by_cases hterms : ∀ x ∈ terms 36 (thresholdAt bias) 0 1 (input.map digitValue), x < 2 ^ 31
      · obtain ⟨hread, hrun⟩ | ⟨delta, rest, -, hread, hrun⟩ := readDelta_eq hb Weight.one hterms i
        · rw [reading_of_none (by simpa using h0) hread] at hr
          subst hr
          refine .inl ⟨⟨by simp, by simp, ?_⟩, by simp, ?_⟩
          · rintro _ ⟨⟩
            exact hterms
          · rw [decodeLoop, if_neg h0, hrun, ok_bind]
            rfl
        · have hshort := length_of_readInteger hread
          rw [List.length_map, List.length_map] at hshort
          have hlen : output.length + 1 < 2 ^ 31 := by omega
          rw [reading_of_some hread] at hr
          subst hr
          by_cases hdelta : delta < 2 ^ 31
          · by_cases hpoint : n + (i + delta) / (output.length + 1) < 2 ^ 31
            · have hpos : (i + delta) % (output.length + 1) ≤ output.length := Nat.lt_succ_iff.mp (Nat.mod_lt _ (by omega))
              have hinsert := List.length_insertIdx_of_le_length hpos (n + (i + delta) / (output.length + 1))
              have hsize' := Nat.add_lt_of_lt_sub (hinsert.trans_lt (by omega : output.length + 1 < 2 ^ 31 - rest.length))
              have hbias := (adapt_spec hdelta hlen (by omega) (two_le_numpoints hfirst)).2
              rw [decodeLoop_step h0 hrun hdelta hlen hfirst hpoint]
              obtain ⟨hin, hpending, hnext⟩ | ⟨hin, hpending, final, hnext, hmem⟩ | ⟨hout, hnext⟩ :=
                ih hbias (by omega) hsize' (by omega) (by rw [hinsert])
              · exact .inl ⟨inRange_cons.mpr ⟨hdelta, hpoint, hin⟩, hpending, hnext⟩
              · refine .inr (.inl ⟨inRange_cons.mpr ⟨hdelta, hpoint, hin⟩, hpending, final, hnext, ?_⟩)
                intro x
                rw [hmem, List.mem_insertIdx hpos, List.mem_cons]
                tauto
              · exact .inr (.inr ⟨fun h => hout (inRange_cons.mp h).2.2, hnext⟩)
            · refine .inr (.inr ⟨fun h => hpoint (inRange_cons.mp h).2.1, ?_⟩)
              exact decodeLoop_overflow_of_point h0 hrun hdelta hlen hfirst (by omega)
          · refine .inr (.inr ⟨fun h => hdelta (inRange_cons.mp h).1, ?_⟩)
            exact decodeLoop_overflow_of_delta h0 hrun (by omega)
      · have hbad : ∃ x ∈ terms 36 (thresholdAt bias) 0 1 (input.map digitValue), 2 ^ 31 ≤ x := by simpa using hterms
        subst hr
        refine .inr (.inr ⟨not_inRange_of_terms (by simpa using h0) hbad, ?_⟩)
        have hrun : readDelta bias input 1 36 i = .error .overflow := readDelta_overflow hb Weight.one hbad
        rw [decodeLoop, if_neg h0, hrun, error_bind]

theorem deltas_lt_of_points {ds : List Nat} {len : Nat} (hlen : (len + ds.length + 1) * 0x110000 < 2 ^ 31)
    (h : ∀ point ∈ (reading 36 thresholdAt adaptOf ds n bias i len).points, point ≤ 0x10FFFF) :
    ∀ delta ∈ (reading 36 thresholdAt adaptOf ds n bias i len).deltas, delta < 2 ^ 31 := by
  induction hsize : ds.length using Nat.strong_induction_on generalizing ds n bias i len with
  | _ size ih =>
      subst hsize
      by_cases h0 : ds = []
      · rw [h0, reading_nil]
        simp
      cases hread : readInteger 36 (thresholdAt bias) 0 1 ds with
      | none =>
          rw [reading_of_none h0 hread]
          simp
      | some p =>
          obtain ⟨delta, rest⟩ := p
          have hshort := length_of_readInteger hread
          rw [reading_of_some hread] at h ⊢
          obtain ⟨hpoint, hpoints⟩ := List.forall_mem_cons.mp h
          refine List.forall_mem_cons.mpr ⟨?_, ih rest.length hshort ?_ hpoints rfl⟩
          · have hdiv : (i + delta) / (len + 1) < 0x110000 := by omega
            have hmul := (Nat.div_lt_iff_lt_mul (by omega)).mp hdiv
            omega
          · exact (Nat.mul_le_mul_right 0x110000 (by omega)).trans_lt hlen

theorem decodeLoop_safe_iff (hout : ∀ ch ∈ output, ch ≤ 0x10FFFF)
    (hsize : (output.length + input.length + 1) * 0x110000 < 2 ^ 31) :
    (∃ r, decodeLoop (input.length + 1) input 0x80 72 0 output = .ok r ∧ ∀ final ∈ r, ∀ ch ∈ final, ch ≤ 0x10FFFF) ↔
      Fits (reading 36 thresholdAt adaptOf (input.map digitValue) 0x80 72 0 output.length) := by
  have hdeltas : (∀ point ∈ (reading 36 thresholdAt adaptOf (input.map digitValue) 0x80 72 0
      output.length).points, point ≤ 0x10FFFF) →
      ∀ delta ∈ (reading 36 thresholdAt adaptOf (input.map digitValue) 0x80 72 0 output.length).deltas, delta < 2 ^ 31 := by
    apply deltas_lt_of_points
    rwa [List.length_map]
  obtain ⟨r, hr⟩ : ∃ r, reading 36 thresholdAt adaptOf (input.map digitValue) 0x80 72 0 output.length = r := ⟨_, rfl⟩
  rw [hr] at hdeltas ⊢
  unfold Fits
  obtain ⟨hin, hpending, hrun⟩ | ⟨hin, hpending, final, hrun, hmem⟩ | ⟨hnot, hrun⟩ :=
    decodeLoop_spec (by decide) (Nat.lt_succ_self _) (by omega) (fun h => absurd rfl h) hr
  · obtain ⟨terms, hterms⟩ := Option.ne_none_iff_exists'.mp hpending
    rw [hrun, hterms]
    exact ⟨fun _ => hin, fun _ => ⟨none, rfl, by simp⟩⟩
  · rw [hrun, hpending]
    constructor
    · rintro ⟨_, ⟨⟩, hall⟩ point hpoint
      exact hall final rfl point ((hmem point).mpr (.inr hpoint))
    · intro hpoints
      refine ⟨some final, rfl, ?_⟩
      rintro _ ⟨⟩ ch hch
      exact ((hmem ch).mp hch).elim (hout ch) (hpoints ch)
  · rw [hrun]
    constructor
    · rintro ⟨_, ⟨⟩, _⟩
    · intro hfits
      refine absurd ?_ hnot
      cases hpending : r.pending with
      | none =>
          rw [hpending] at hfits
          refine ⟨hdeltas hfits, fun point hpoint => (hfits point hpoint).trans_lt (by decide), ?_⟩
          rw [hpending]
          simp
      | some terms =>
          rw [hpending] at hfits
          exact hfits

theorem eq_of_rfind {b : UInt8} {text before after : Bytes}
    (h : rfind b text = some (before, after)) : text = before ++ b :: after := by
  induction text generalizing before with
  | nil => cases h
  | cons x text ih =>
      rw [rfind] at h
      cases hrest : rfind b text with
      | none =>
          rw [hrest] at h
          obtain ⟨rfl, heq⟩ := Option.ite_none_right_eq_some.mp h
          cases heq
          rfl
      | some p =>
          rw [hrest] at h
          cases h
          rw [ih hrest, List.cons_append]

theorem and_high_iff (b : UInt8) : b.toNat &&& 0x80 ≠ 0 ↔ 0x80 ≤ b.toNat :=
  forall_byte (P := fun n => n &&& 0x80 ≠ 0 ↔ 0x80 ≤ n) (by decide +kernel) b

end UnixCommons.String.Punycode

/-! ## Punycode の符号化の補題 -/

namespace UnixCommons.String.Punycode

open Lib AsciiStringManip Bootstring

variable {m n i pos fuel ch : Nat} {head : Bytes} {basic list done todo input : List Nat} {s : EncodeState}

/-- 出力 `head` の後を復号すると、符号点 `n`、位置 `i`、文字列 `list` の状態になり、`delta` はそこから符号点 `m`、位置 `pos` までの距離である。 -/
structure Lockstep (head : Bytes) (basic list : List Nat) (n i m pos : Nat) (s : EncodeState) : Prop where
  output : ∃ ext cnt, s.output = head ++ ext ∧ (∀ b ∈ ext, b ∈ encodeTable) ∧ cnt ≤ ext.length ∧
    ∀ fuel rest, decodeLoop (fuel + cnt) (ext ++ rest) 0x80 72 0 basic = decodeLoop fuel rest n s.bias i list
  handled : s.handled = list.length
  delta : i + s.delta = (m - n) * (list.length + 1) + pos
  first : s.first = decide (i = 0)
  bias : s.bias ≤ 195
  point : n ≤ m
  inserted : i ≠ 0 → 1 ≤ list.length

theorem Lockstep.delta_lt (h : Lockstep head basic list n i m pos s) (hm : m < 0x110000)
    (hlen : (list.length + 1) * 0x110000 < 2 ^ 31)
    (hpos : pos ≤ list.length) : s.delta + 1 < 2 ^ 31 := by
  have hdelta := h.delta
  have hmul : (m - n) * (list.length + 1) ≤ 0x10FFFF * (list.length + 1) := Nat.mul_le_mul_right _ (by omega)
  omega

theorem Lockstep.pass (h : Lockstep head basic list n i m pos s) :
    Lockstep head basic list n i m (pos + 1) { s with delta := s.delta + 1 } :=
  { h with
    delta := by
      have hdelta := h.delta
      dsimp only
      omega }

theorem Lockstep.jump (h : Lockstep head basic list n i m 0 s) {least : Nat} (hle : m ≤ least) :
    Lockstep head basic list n i least 0 { s with delta := s.delta + (least - m) * (list.length + 1) } :=
  { h with
    delta := by
      have hdelta := h.delta
      have hpoint := h.point
      have hsplit : (least - n) * (list.length + 1) = (m - n) * (list.length + 1) + (least - m) * (list.length + 1) := by
        rw [← Nat.add_mul]
        congr 1
        omega
      dsimp only
      omega
    point := h.point.trans hle }

theorem Lockstep.wrap (h : Lockstep head basic list n i m list.length s) :
    Lockstep head basic list n i (m + 1) 0 { s with delta := s.delta + 1 } :=
  { h with
    delta := by
      have hdelta := h.delta
      have hpoint := h.point
      have hsplit : (m + 1 - n) * (list.length + 1) = (m - n) * (list.length + 1) + (list.length + 1) := by
        rw [show m + 1 - n = m - n + 1 by omega, Nat.succ_mul]
      dsimp only
      omega
    point := h.point.trans (Nat.le_succ m) }

theorem Lockstep.emit (h : Lockstep head basic list n i m pos s) (hm : m < 0x110000)
    (hlen : (list.length + 1) * 0x110000 < 2 ^ 31) (hpos : pos ≤ list.length) :
    ∃ ext bias, pushDelta s.bias 32 36 s.delta = .ok ext ∧ adapt s.delta
      (s.handled + 1) s.first = .ok bias ∧ Lockstep head basic (list.insertIdx pos m) m
      (pos + 1) m (pos + 1) ⟨s.output ++ ext, s.handled + 1, 0, bias, false⟩ := by
  have hdelta : s.delta < 2 ^ 31 := (Nat.lt_succ_self _).trans (h.delta_lt hm hlen hpos)
  have hdiv : (i + s.delta) / (list.length + 1) = m - n := by
    rw [h.delta, Nat.mul_comm, Nat.mul_add_div (by omega), Nat.div_eq_of_lt (by omega), Nat.add_zero]
  have hmod : (i + s.delta) % (list.length + 1) = pos := by
    rw [h.delta, Nat.mul_comm, Nat.mul_add_mod, Nat.mod_eq_of_lt (by omega)]
  have hpoint : n + (m - n) = m := Nat.add_sub_cancel' h.point
  obtain ⟨ext, hpush, hmem, hwrites⟩ :=
    pushDelta_spec h.bias (by decide : 0 ≤ 10) (by decide : 0 + 32 = 32) (by simpa using hdelta)
  obtain ⟨hadapt, hbound⟩ := adapt_spec hdelta (by omega : list.length + 1 < 2 ^ 31) (by omega) (two_le_numpoints h.inserted)
  refine ⟨ext, adaptOf s.delta (list.length + 1) (i = 0), hpush, ?_, ?_⟩
  · rw [h.handled, h.first]
    exact hadapt
  obtain ⟨before, cnt, hout, hbefore, hcnt, hrun⟩ := h.output
  have hext : ext ≠ [] := by
    rintro rfl
    exact hwrites.ne_nil rfl
  refine ⟨⟨before ++ ext, cnt + 1, ?_, ?_, ?_, ?_⟩, ?_, ?_, ?_, hbound, le_refl m, ?_⟩
  · rw [hout, List.append_assoc]
  · intro b hb
    exact (List.mem_append.mp hb).elim (hbefore b) (hmem b)
  · have := List.length_pos_of_ne_nil hext
    rw [List.length_append]
    omega
  · intro fuel rest
    have hread : readDelta s.bias (ext ++ rest) 1 36 i = .ok (some (i + s.delta, rest)) :=
      readDelta_writes h.bias hdelta hwrites rest
    have hstep : decodeLoop (fuel + 1) (ext ++ rest) n s.bias i list = _ :=
      decodeLoop_step (by simp [hext]) hread hdelta (by omega) h.inserted (by rw [hdiv]; omega)
    rw [List.append_assoc, ← Nat.add_assoc, Nat.add_right_comm, hrun, hstep, hdiv, hmod, hpoint]
  · rw [List.length_insertIdx_of_le_length hpos, h.handled]
  · rw [Nat.sub_self, Nat.zero_mul, Nat.zero_add, Nat.add_zero]
  · rfl
  · intro _
    rw [List.length_insertIdx_of_le_length hpos]
    omega

/-- 符号点 `m` を書いている時に、`done` までを通った状態で扱われている文字。 -/
def handledAt (m : Nat) (done todo : List Nat) : List Nat := (done.filter (· ≤ m) ++ todo.filter (· < m)).map lowerCode

/-- `handledAt` のうち、`done` にある文字の数。 -/
def posAt (m : Nat) (done : List Nat) : Nat := (done.filter (· ≤ m)).length

theorem lowerCode_of_ge (h : 0x80 ≤ m) : lowerCode m = m := if_neg (by omega)

theorem posAt_le (m : Nat) (done todo : List Nat) : posAt m done ≤ (handledAt m done todo).length := by
  rw [posAt, handledAt, List.length_map, List.length_append]
  omega

theorem length_handledAt_le (m : Nat) (done todo : List Nat) : (handledAt m done todo).length ≤ (done ++ todo).length := by
  rw [handledAt, List.length_map, List.length_append, List.length_append]
  have h₁ := List.length_filter_le (· ≤ m) done
  have h₂ := List.length_filter_le (· < m) todo
  omega

theorem handledAt_of_lt (h : ch < m) : handledAt m (done ++ [ch]) todo = handledAt m done (ch :: todo) := by
  simp [handledAt, h, h.le]

theorem posAt_of_le (h : ch ≤ m) : posAt m (done ++ [ch]) = posAt m done + 1 := by simp [posAt, h]

theorem handledAt_of_gt (h : m < ch) : handledAt m (done ++ [ch]) todo = handledAt m done (ch :: todo) := by
  simp [handledAt, h, h.le]

theorem posAt_of_gt (h : m < ch) : posAt m (done ++ [ch]) = posAt m done := by simp [posAt, h]

theorem handledAt_self (hm : 0x80 ≤ m) :
    handledAt m (done ++ [m]) todo = (handledAt m done (m :: todo)).insertIdx (posAt m done) m := by
  have hpos : posAt m done = ((done.filter (· ≤ m)).map lowerCode).length := by rw [posAt, List.length_map]
  have hleft : handledAt m done (m :: todo) = (done.filter (· ≤ m)).map lowerCode ++
      (todo.filter (· < m)).map lowerCode := by
    simp [handledAt]
  rw [hleft, hpos, insertIdx_length_append]
  simp [handledAt, lowerCode_of_ge hm]

theorem scan_spec (hm80 : 0x80 ≤ m) (hm : m < 0x110000)
    (hlen : (input.length + 1) * 0x110000 < 2 ^ 31) (hsplit : done ++ todo = input)
    (h : Lockstep head basic (handledAt m done todo) n i m (posAt m done) s) :
    ∃ s' n' i', scan m todo s = .ok s' ∧ Lockstep head basic (handledAt m input []) n' i' m (posAt m input) s' := by
  induction todo generalizing done n i s with
  | nil =>
      rw [List.append_nil] at hsplit
      subst hsplit
      exact ⟨s, n, i, rfl, h⟩
  | cons ch todo ih =>
      have hnext : done ++ [ch] ++ todo = input := by simpa using hsplit
      have hpos := posAt_le m done (ch :: todo)
      have hbound := length_handledAt_le m done (ch :: todo)
      rw [hsplit] at hbound
      have hlist := (Nat.mul_le_mul_right 0x110000 (Nat.succ_le_succ hbound)).trans_lt hlen
      have hdelta := h.delta_lt hm hlist hpos
      rw [scan]
      rcases Nat.lt_trichotomy ch m with hlt | rfl | hgt
      · rw [if_pos hlt, wchar_eq hdelta, ok_bind]
        have hpass := h.pass
        rw [← handledAt_of_lt hlt, ← posAt_of_le hlt.le] at hpass
        exact ih hnext hpass
      · rw [if_neg (lt_irrefl ch), if_pos rfl]
        obtain ⟨ext, bias, hpush, hadapt, hemit⟩ := h.emit hm hlist hpos
        rw [hpush, ok_bind, hadapt, ok_bind]
        rw [← handledAt_self hm80, ← posAt_of_le (le_refl ch)] at hemit
        exact ih hnext hemit
      · rw [if_neg hgt.not_gt, if_neg hgt.ne']
        rw [← handledAt_of_gt hgt, ← posAt_of_gt hgt] at h
        exact ih hnext h

theorem foldl_least (m least : Nat) (input : List Nat) :
    let r := input.foldl (fun least ch => if ch ≥ m ∧ ch < least then ch else least) least
    r ≤ least ∧ (r = least ∨ (r ∈ input ∧ m ≤ r)) ∧ ∀ ch ∈ input, m ≤ ch → r ≤ ch := by
  induction input generalizing least with
  | nil => simp
  | cons x input ih =>
      rw [List.foldl_cons]
      obtain ⟨hle, hor, hmin⟩ := ih (if x ≥ m ∧ x < least then x else least)
      dsimp only
      generalize input.foldl _ (if x ≥ m ∧ x < least then x else least) = r at hle hor hmin ⊢
      split_ifs at hle hor with hx
      · refine ⟨hle.trans hx.2.le, .inr ?_, List.forall_mem_cons.mpr ⟨fun _ => hle, hmin⟩⟩
        rcases hor with rfl | ⟨hmem, hge⟩
        · exact ⟨List.mem_cons_self, hx.1⟩
        · exact ⟨List.mem_cons_of_mem x hmem, hge⟩
      · refine ⟨hle, hor.imp_right fun hr => ⟨List.mem_cons_of_mem x hr.1, hr.2⟩, List.forall_mem_cons.mpr ⟨?_, hmin⟩⟩
        intro hxm
        omega

theorem leastFound_spec (hs : ∀ c ∈ input, c < 0x110000) (h : ch ∈ input) (hm : m ≤ ch) :
    leastFound m input ∈ input ∧ m ≤ leastFound m input ∧ ∀ c ∈ input, m ≤ c → leastFound m input ≤ c := by
  obtain ⟨-, hor, hmin⟩ := foldl_least m maxWchar input
  have hlt := (hmin ch h hm).trans_lt (hs ch h)
  obtain ⟨hmem, hge⟩ := hor.resolve_left (by unfold maxWchar at hlt ⊢; omega)
  exact ⟨hmem, hge, hmin⟩

theorem handledAt_nil (m : Nat) (input : List Nat) : handledAt m [] input = (input.filter (· < m)).map lowerCode := by
  simp [handledAt]

theorem handledAt_jump {least : Nat} (hle : m ≤ least) (hmin : ∀ c ∈ input, m ≤ c → least ≤ c) :
    handledAt least [] input = handledAt m [] input := by
  rw [handledAt_nil, handledAt_nil]
  congr 1
  refine List.filter_congr fun c hc => ?_
  have := hmin c hc
  exact decide_eq_decide.mpr (by omega)

theorem handledAt_wrap (m : Nat) (input : List Nat) : handledAt (m + 1) [] input = handledAt m input [] := by
  simp only [handledAt, List.filter_nil, Nat.lt_succ_iff, List.nil_append, List.append_nil]

theorem posAt_eq_length (m : Nat) (input : List Nat) :
    posAt m input = (handledAt m input []).length := by simp [posAt, handledAt]

theorem length_filter_le_eq (m : Nat) (input : List Nat) :
    (input.filter (· ≤ m)).length = (input.filter (· < m)).length + input.count m := by
  induction input with
  | nil => rfl
  | cons x input ih =>
      rw [List.filter_cons, List.filter_cons, List.count_cons]
      rcases Nat.lt_trichotomy x m with hlt | rfl | hgt
      · simp [hlt, hlt.le, hlt.ne, ih, Nat.add_right_comm]
      · simp [ih, Nat.add_assoc]
      · simp [hgt.not_gt, hgt.not_ge, hgt.ne', ih]

theorem length_handledAt_lt (h : m ∈ input) : (handledAt m [] input).length < (handledAt (m + 1) [] input).length := by
  have hpos := List.count_pos_iff.mpr h
  have hle := length_filter_le_eq m input
  rw [handledAt_wrap, handledAt_nil, handledAt, List.length_map, List.length_map, List.filter_nil, List.append_nil]
  omega

theorem handledAt_full (h : input.length ≤ (handledAt m [] input).length) : handledAt m [] input = input.map lowerCode := by
  rw [handledAt_nil, List.length_map] at h
  rw [handledAt_nil, List.filter_sublist.eq_of_length_le h]

theorem exists_unhandled (h : (handledAt m [] input).length < input.length) : ∃ ch ∈ input, m ≤ ch := by
  rw [handledAt_nil, List.length_map, List.length_filter_lt_length_iff_exists] at h
  simpa using h

theorem encodeLoop_spec (hs : ∀ c ∈ input, c < 0x110000) (hlen : (input.length + 1) * 0x110000 < 2 ^ 31) (hm : 0x80 ≤ m)
    (hfuel : input.length < fuel + (handledAt m [] input).length)
    (h : Lockstep head basic (handledAt m [] input) n i m 0 s) :
    ∃ s' n' i' m', encodeLoop input fuel m s = .ok s'.output ∧ Lockstep head basic (input.map lowerCode) n' i' m' 0 s' := by
  induction fuel generalizing m n i s with
  | zero =>
      have := length_handledAt_le m [] input
      rw [List.nil_append] at this
      omega
  | succ fuel ih =>
      rw [encodeLoop, h.handled]
      by_cases hlt : (handledAt m [] input).length < input.length
      · obtain ⟨ch, hch, hmch⟩ := exists_unhandled hlt
        obtain ⟨hmem, hge, hmin⟩ := leastFound_spec hs hch hmch
        have hleast := hs _ hmem
        have hjump := h.jump hge
        rw [← handledAt_jump hge hmin] at h hjump hlt hfuel ⊢
        have hlist := (Nat.mul_le_mul_right 0x110000 (Nat.succ_le_succ hlt.le)).trans_lt hlen
        have hdelta := hjump.delta_lt hleast hlist (Nat.zero_le _)
        obtain ⟨s', n', i', hrun, hlock⟩ := scan_spec (by omega) hleast hlen (List.nil_append input) hjump
        rw [h.handled] at hrun
        rw [posAt_eq_length] at hlock
        have hbound := length_handledAt_le (leastFound m input) input []
        rw [List.append_nil] at hbound
        have hlist' := (Nat.mul_le_mul_right 0x110000 (Nat.succ_le_succ hbound)).trans_lt hlen
        have hdelta' := hlock.delta_lt hleast hlist' le_rfl
        have hwrap := hlock.wrap
        rw [← handledAt_wrap] at hwrap
        have hgrow := length_handledAt_lt hmem
        have hsum : s.delta + (leastFound m input - m) * ((handledAt (leastFound m input) [] input).length + 1) < 2 ^ 31 :=
          (Nat.lt_succ_self _).trans hdelta
        have hproduct := (Nat.le_add_left _ s.delta).trans_lt hsum
        have hpoints : (handledAt (leastFound m input) [] input).length + 1 < 2 ^ 31 := by omega
        rw [if_pos hlt, wchar_eq hpoints, ok_bind, wchar_eq hproduct, ok_bind, wchar_eq hsum,
          ok_bind, hrun, ok_bind, wchar_eq hdelta', ok_bind, wchar_eq (by omega), ok_bind]
        exact ih (by omega) (by omega) hwrap
      · rw [if_neg hlt]
        rw [handledAt_full (by omega)] at h
        exact ⟨s, n, i, m, rfl, h⟩

theorem toNat_toLower : ∀ ch < 0x80, (toLower (UInt8.ofNat ch)).toNat = lowerCode ch ∧ lowerCode ch < 0x80 := by decide

theorem basicPart_spec (hs : ∀ c ∈ input, c < 0x110000) :
    ∃ basic, basicPart input = some basic ∧ basic.map UInt8.toNat = handledAt 0x80 [] input ∧
      ∀ b ∈ basic, b.toNat < 0x80 := by
  simp only [handledAt_nil]
  induction input with
  | nil => exact ⟨[], rfl, rfl, by simp⟩
  | cons ch input ih =>
      obtain ⟨hch, hs⟩ := List.forall_mem_cons.mp hs
      obtain ⟨basic, hrun, hmap, hlt⟩ := ih hs
      rw [basicPart, if_neg (by omega), hrun, List.filter_cons]
      by_cases h80 : ch < 0x80
      · obtain ⟨hlower, hbound⟩ := toNat_toLower ch h80
        refine ⟨toLower (UInt8.ofNat ch) :: basic, by simp [h80], by simp [h80, hlower, hmap], ?_⟩
        exact List.forall_mem_cons.mpr ⟨by rw [hlower]; exact hbound, hlt⟩
      · exact ⟨basic, by simp [h80], by simp [h80, hmap], hlt⟩

theorem rfind_of_notMem {b : UInt8} {text : Bytes} (h : b ∉ text) : rfind b text = none := by
  induction text with
  | nil => rfl
  | cons x text ih =>
      rw [rfind, ih (List.not_mem_of_not_mem_cons h)]
      exact if_neg (Ne.symm (List.ne_of_not_mem_cons h))

theorem rfind_append {b : UInt8} {before after : Bytes} (h : b ∉ after) :
    rfind b (before ++ b :: after) = some (before, after) := by
  induction before with
  | nil =>
      rw [List.nil_append, rfind, rfind_of_notMem h]
      exact if_pos rfl
  | cons x before ih => rw [List.cons_append, rfind, ih]

theorem hyphen_notMem {text : Bytes} (h : ∀ b ∈ text, b ∈ encodeTable) : ascii '-' ∉ text := by
  intro hmem
  exact absurd (h _ hmem) (by decide)

theorem punycodeDecode_append {basic text : Bytes} (hbasic : ∀ b ∈ basic, b.toNat < 0x80)
    (htext : ∀ b ∈ text, b ∈ encodeTable) :
    punycodeDecode ((if basic = [] then [] else basic ++ [ascii '-']) ++ text) =
      decodeLoop (text.length + 1) text 0x80 72 0 (basic.map UInt8.toNat) := by
  unfold punycodeDecode
  by_cases h : basic = []
  · rw [if_pos h, List.nil_append, rfind_of_notMem (hyphen_notMem htext), h]
    rfl
  · have hany : (basic.any fun b => b.toNat &&& 0x80 ≠ 0) = false := by
      rw [List.any_eq_false]
      intro b hb
      have hlow := hbasic b hb
      rw [decide_eq_true_iff, and_high_iff]
      omega
    rw [if_neg h, List.append_assoc, List.singleton_append, rfind_append (hyphen_notMem htext)]
    dsimp only
    rw [hany]
    rfl

theorem Lockstep.init (head : Bytes) (basic : List Nat) :
    Lockstep head basic basic 0x80 0 0x80 0 ⟨head, basic.length, 0, 72, true⟩ where
  output := ⟨[], 0, (List.append_nil head).symm, by simp, le_refl 0, fun _ _ => rfl⟩
  handled := rfl
  delta := by simp
  first := rfl
  bias := (by decide : 72 ≤ 195)
  point := le_refl _
  inserted := fun h => absurd rfl h

/-! ## 書かれる文字 -/

theorem encodeChar_returns (d : Nat) : Returns (encodeChar d) (· ∈ encodeTable) fun _ => True := by
  refine Returns.ite (fun h => ?_) fun _ => Returns.throw trivial
  have hget : encodeTable.getD d 0 = encodeTable[d] := by simp [List.getD_eq_getElem?_getD, h]
  rw [hget]
  exact Returns.pure (List.getElem_mem h)

theorem pushDelta_returns (bias fuel k q : Nat) :
    Returns (pushDelta bias fuel k q) (fun ext => ext ≠ [] ∧ ∀ b ∈ ext, b ∈ encodeTable) fun _ => True := by
  induction fuel generalizing k q with
  | zero => exact Returns.throw trivial
  | succ fuel ih =>
      refine Returns.skip fun t => Returns.ite (fun _ => ?_) fun _ => ?_
      · refine Returns.bind ((encodeChar_returns _).mono (fun ch hch => ?_) fun _ => id)
        exact Returns.pure ⟨List.cons_ne_nil _ _, List.forall_mem_singleton.mpr hch⟩
      · refine Returns.bind ((encodeChar_returns _).mono (fun ch hch => ?_) fun _ => id)
        refine Returns.skip fun k => Returns.bind ((ih _ _).mono (fun rest hrest => ?_) fun _ => id)
        exact Returns.pure ⟨List.cons_ne_nil _ _, List.forall_mem_cons.mpr ⟨hch, hrest.2⟩⟩

structure Written (p : UInt8 → Prop) (s : EncodeState) : Prop where
  started : s.output = [] → s.handled = 0
  mem : ∀ b ∈ s.output, p b

variable {p : UInt8 → Prop}

theorem scan_written (hp : ∀ b ∈ encodeTable, p b) (input : List Nat) (h : Written p s) :
    Returns (scan m input s) (Written p) fun _ => True := by
  induction input generalizing s with
  | nil => exact Returns.pure h
  | cons ch input ih =>
      rw [scan]
      refine Returns.ite (fun _ => Returns.skip fun delta => ih ⟨h.started, h.mem⟩) fun _ =>
        Returns.ite (fun _ => ?_) fun _ => ih h
      refine Returns.bind ((pushDelta_returns s.bias 32 36 s.delta).mono (fun ext hext => ?_) fun _ => id)
      refine Returns.skip fun bias => ih ⟨fun hnil => ?_, ?_⟩
      · exact absurd (List.append_eq_nil_iff.mp hnil).2 hext.1
      · exact List.forall_mem_append.mpr ⟨h.mem, fun b hb => hp b (hext.2 b hb)⟩

theorem encodeLoop_written (hp : ∀ b ∈ encodeTable, p b) (hne : input ≠ []) (h : Written p s) :
    Returns (encodeLoop input fuel m s) (fun out => out ≠ [] ∧ ∀ b ∈ out, p b) fun _ => True := by
  induction fuel generalizing m s with
  | zero => exact Returns.throw trivial
  | succ fuel ih =>
      rw [encodeLoop]
      refine Returns.ite (fun _ => ?_) fun hdone => Returns.pure ⟨fun hnil => ?_, h.mem⟩
      · refine Returns.skip fun points => Returns.skip fun product => Returns.skip fun delta => ?_
        have hs : Written p { s with delta := delta } := ⟨h.started, h.mem⟩
        refine Returns.bind ((scan_written hp input hs).mono (fun s' hs' => ?_) fun _ => id)
        exact Returns.skip fun delta => Returns.skip fun least => ih ⟨hs'.started, hs'.mem⟩
      · have hpos := List.length_pos_of_ne_nil hne
        rw [h.started hnil] at hdone
        exact hdone hpos

theorem mem_basicPart {basic : Bytes} (h : basicPart input = some basic) : ∀ b ∈ basic,
    ∃ ch ∈ input, ch < 0x80 ∧ b = toLower (UInt8.ofNat ch) := by
  induction input generalizing basic with
  | nil =>
      obtain rfl := Option.some.inj h
      simp
  | cons ch input ih =>
      rw [basicPart] at h
      by_cases hneg : ch ≥ 2 ^ 31
      · rw [if_pos hneg] at h
        cases h
      rw [if_neg hneg] at h
      cases hrest : basicPart input with
      | none =>
          rw [hrest] at h
          split_ifs at h <;> cases h
      | some rest =>
          rw [hrest] at h
          have hmem : ∀ b ∈ rest, ∃ c ∈ ch :: input, c < 0x80 ∧ b = toLower (UInt8.ofNat c) := by
            intro b hb
            obtain ⟨c, hc, hlt⟩ := ih hrest b hb
            exact ⟨c, List.mem_cons_of_mem _ hc, hlt⟩
          by_cases hch : ch < 0x80
          · obtain rfl : toLower (UInt8.ofNat ch) :: rest = basic := by simpa [hch] using h
            exact List.forall_mem_cons.mpr ⟨⟨ch, List.mem_cons_self, hch, rfl⟩, hmem⟩
          · obtain rfl : rest = basic := by simpa [hch] using h
            exact hmem

theorem toLower_ne_zero (hch : ch < 0x80) (h0 : ch ≠ 0) : toLower (UInt8.ofNat ch) ≠ 0 := by
  intro h
  have hlower := (toNat_toLower ch hch).1
  rw [h, lowerCode] at hlower
  split_ifs at hlower
  · exact absurd hlower (by simp)
  · exact h0 hlower.symm

theorem punycodeEncode_text {out : Bytes} (hne : input ≠ []) (h0 : 0 ∉ input)
    (h : punycodeEncode input = .ok (some out)) : out ≠ [] ∧ 0 ∉ out := by
  unfold punycodeEncode at h
  cases hbasic : basicPart input with
  | none =>
      rw [hbasic] at h
      cases h
  | some basic =>
      have hwritten : Written (· ≠ 0) ⟨if basic = [] then [] else basic ++ [ascii '-'], basic.length, 0, 72, true⟩ := by
        refine ⟨fun hnil => ?_, fun b hb => ?_⟩
        · by_cases hb : basic = []
          · rw [hb]
            rfl
          · simp [hb] at hnil
        · have hmem : ∀ b ∈ basic, b ≠ 0 := by
            intro b hb
            obtain ⟨ch, hch, hlt, rfl⟩ := mem_basicPart hbasic b hb
            exact toLower_ne_zero hlt fun he => h0 (he ▸ hch)
          dsimp only at hb
          split_ifs at hb with hnil
          · cases hb
          · rcases List.mem_append.mp hb with hb | hb
            · exact hmem b hb
            · obtain rfl := List.mem_singleton.mp hb
              decide
      have hloop : Returns (encodeLoop input (input.length + 1) 0x80 _) (fun out => out ≠ [] ∧
          ∀ b ∈ out, b ≠ 0) fun _ => True :=
        encodeLoop_written (List.forall_mem_ne'.mpr (show 0 ∉ encodeTable by decide)) hne hwritten
      rw [hbasic] at h
      dsimp only at h
      obtain ⟨text, hrun, h⟩ := bind_eq_ok.mp h
      obtain rfl : text = out := Option.some.inj (Except.ok.inj h)
      obtain ⟨htext, hmem⟩ := hloop.of_ok hrun
      exact ⟨htext, fun hzero => hmem 0 hzero rfl⟩

end UnixCommons.String.Punycode
