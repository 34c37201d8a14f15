import Mathlib
import UnixCommons.String.Utf8Text
import UnixCommons.String.Lemmas.XmlEncode

/-!
# UTF-8 の文字列の補題

先頭のバイトの数だけの後に続くバイトを持つ並びを、完全な並びと呼ぶ。
-/

namespace UnixCommons.String.Utf8Text

open Lib UTF8Handler Utf8 XmlEncode
open Generics (arraySize)

variable {b : UInt8} {s p q src rest : Bytes} {n : Nat} {cs : List Nat}

/-! ## 完全な並び -/

def IsComplete : Bytes → Prop
  | [] => False
  | b :: s => getOctetCount b.toNat = s.length + 1 ∧ ∀ c ∈ s, IsTail c

instance : DecidablePred IsComplete
  | [] => inferInstanceAs (Decidable False)
  | _ :: _ => inferInstanceAs (Decidable (_ ∧ _))

inductive Completes : Bytes → Prop
  | nil : Completes []
  | cons {s rest : Bytes} (h : IsComplete s) (hrest : Completes rest) : Completes (s ++ rest)

theorem IsComplete.length_eq (h : IsComplete (b :: s)) : (b :: s).length = getOctetCount b.toNat := h.1.symm

theorem IsComplete.ne_nil (h : IsComplete s) : s ≠ [] := by
  rintro rfl
  exact h

theorem isComplete_of_isSequence (h : IsSequence s) : IsComplete s := by
  cases s with
  | nil => exact absurd h isSequence_nil
  | cons a s =>
      refine ⟨?_, ?_⟩
      · rw [getOctetCount_eq (lead_of_isSequence h), ← h.length_eq, List.length_cons]
      · rcases h.cases with ⟨x, he, hx⟩ | ⟨x, b, he, -, hb⟩ | ⟨x, b, c, he, -, hb, hc⟩ | ⟨x, b, c, d, he, -, hb, hc, hd⟩ <;>
        obtain ⟨rfl, rfl⟩ := List.cons.inj he
        · simp
        · simpa using hb
        · simpa using ⟨IsSecond.isTail hb, hc⟩
        · simpa using ⟨IsSecond.isTail hb, hc, hd⟩

theorem completes_of_wellFormed (h : WellFormed s) : Completes s := by
  induction h with
  | nil => exact .nil
  | cons h _ ih => exact .cons (isComplete_of_isSequence h) ih

theorem getOctetCount_le (b : UInt8) : getOctetCount b.toNat ≤ 6 := by
  rw [getOctetCount_table]
  split_ifs <;> omega

def leading (s : Bytes) : List Bytes :=
  match s with
  | [] => []
  | b :: s =>
      if _h : IsComplete ((b :: s).take (getOctetCount b.toNat)) then
        (b :: s).take (getOctetCount b.toNat) :: leading ((b :: s).drop (getOctetCount b.toNat))
      else
        []
termination_by s.length
decreasing_by
  have hpos : getOctetCount b.toNat ≠ 0 := by
    intro h0
    rw [h0] at _h
    exact _h
  rw [List.length_drop, List.length_cons]
  omega

theorem leading_append (h : IsComplete p) (rest : Bytes) : leading (p ++ rest) = p :: leading rest := by
  cases p with
  | nil => exact absurd h id
  | cons b p =>
      have hlen := h.length_eq
      rw [List.cons_append, leading, ← List.cons_append, ← hlen, List.take_left, List.drop_left, dif_pos h]

theorem flatten_leading_of_completes (h : Completes s) : (leading s).flatten = s := by
  induction h with
  | nil => rw [leading, List.flatten_nil]
  | cons h _ ih => rw [leading_append h, List.flatten_cons, ih]

theorem length_leading_le (s : Bytes) : (leading s).length ≤ s.length := by
  induction s using leading.induct with
  | case1 =>
      rw [leading]
      exact Nat.le_refl _
  | case2 b s h ih =>
      have hpos := List.length_pos_of_ne_nil h.ne_nil
      rw [leading, dif_pos h, List.length_cons]
      rw [List.length_take] at hpos
      rw [List.length_drop] at ih
      omega
  | case3 b s h =>
      rw [leading, dif_neg h]
      exact Nat.zero_le _

theorem leading_cases (b : UInt8) (s : Bytes) :
    (∃ p rest, IsComplete p ∧ b :: s = p ++ rest) ∨
    (¬ IsComplete ((b :: s).take (getOctetCount b.toNat)) ∧ leading (b :: s) = []) := by
  by_cases h : IsComplete ((b :: s).take (getOctetCount b.toNat))
  · exact .inl ⟨_, _, h, (List.take_append_drop _ _).symm⟩
  · refine .inr ⟨h, ?_⟩
    rw [leading, dif_neg h]

/-! ## `utf8_substr` -/

theorem tailsLoop_eq (hn : n ≤ s.length) : tailsLoop n s = .ok (decide (∀ c ∈ s.take n, IsTail c)) := by
  induction n generalizing s with
  | zero => simp [tailsLoop, pure, Except.pure]
  | succ n ih =>
      cases s with
      | nil => simp at hn
      | cons b s =>
          have htail := isTail_iff b
          rw [tailsLoop]
          by_cases hb : IsTail b
          · rw [if_neg (not_not.mpr (htail.mpr hb)), ih (Nat.le_of_succ_le_succ hn)]
            simp [hb]
          · rw [if_pos (mt htail.mp hb)]
            simp [hb, pure, Except.pure]

theorem isComplete_take_iff (h0 : getOctetCount b.toNat ≠ 0) (hle : getOctetCount b.toNat ≤ (b :: s).length) :
    IsComplete ((b :: s).take (getOctetCount b.toNat)) ↔ ∀ c ∈ s.take (getOctetCount b.toNat - 1), IsTail c := by
  rw [List.length_cons] at hle
  obtain ⟨m, hm⟩ : ∃ m, getOctetCount b.toNat = m + 1 := ⟨_, (Nat.succ_pred_eq_of_ne_zero h0).symm⟩
  rw [hm, List.take_succ_cons, IsComplete, hm, List.length_take, Nat.min_eq_left (by omega)]
  exact and_iff_right rfl

theorem substrLoop_incomplete (h : ¬ IsComplete ((b :: s).take (getOctetCount b.toNat)))
    (maxOctets length : Nat) : substrLoop maxOctets length (b :: s).length (b :: s) =
      if maxOctets = 0 ∨ getOctetCount b.toNat > maxOctets then .ok (some length) else .ok none := by
  rw [substrLoop.eq_def]
  by_cases hmax : maxOctets = 0
  · rw [if_pos (.inl hmax), if_pos (.inl hmax)]
    rfl
  · rw [if_neg (by simpa using hmax)]
    dsimp only
    by_cases hlong : getOctetCount b.toNat > maxOctets
    · rw [if_pos hlong, if_pos (.inr hlong)]
      rfl
    · rw [if_neg hlong, if_neg (not_or.mpr ⟨hmax, hlong⟩)]
      by_cases hshort : getOctetCount b.toNat = 0 ∨ getOctetCount b.toNat > (b :: s).length
      · rw [dif_pos hshort]
        rfl
      · rw [not_or, Nat.not_lt] at hshort
        obtain ⟨h0, hle⟩ := hshort
        have htails : tailsLoop (getOctetCount b.toNat - 1) s = .ok false := by
          rw [tailsLoop_eq (by rw [List.length_cons] at hle; omega)]
          exact congrArg Except.ok (decide_eq_false (mt (isComplete_take_iff h0 hle).mpr h))
        rw [dif_neg (by omega), htails, ok_bind]
        rfl

theorem substrLoop_complete (h : IsComplete p) (maxOctets length : Nat) (rest : Bytes) :
    substrLoop maxOctets length (p ++ rest).length (p ++ rest) =
      if maxOctets < p.length then .ok (some length)
      else substrLoop (maxOctets - p.length) (length + p.length) rest.length rest := by
  cases p with
  | nil => exact absurd h id
  | cons b p =>
      have hlen := h.length_eq
      have hpos : 0 < (b :: p).length := Nat.succ_pos _
      have htails : tailsLoop ((b :: p).length - 1) (p ++ rest) = .ok true := by
        rw [List.length_cons, Nat.add_sub_cancel, tailsLoop_eq (by simp), List.take_left]
        exact congrArg Except.ok (decide_eq_true h.2)
      rw [List.cons_append, substrLoop.eq_def]
      by_cases hmax : maxOctets = 0
      · rw [if_pos (.inl hmax), if_pos (by omega)]
        rfl
      · rw [if_neg (by simpa using hmax)]
        dsimp only
        rw [← hlen]
        by_cases hlong : maxOctets < (b :: p).length
        · rw [if_pos hlong, if_pos hlong]
          rfl
        · rw [if_neg hlong, if_neg hlong, dif_neg (by simp), htails, ok_bind, if_pos rfl,
            ← List.cons_append, List.drop_left, List.length_append, Nat.add_sub_cancel_left]

theorem substrLoop_spec (src : Bytes) (maxOctets length : Nat) :
    substrLoop maxOctets length src.length src = .ok none ∨
      ∃ k, substrLoop maxOctets length src.length src = .ok (some (length + k)) ∧ k ≤ maxOctets ∧
      k ≤ src.length ∧ Completes (src.take k) := by
  induction hn : src.length using Nat.strong_induction_on generalizing src maxOctets length with
  | _ n ih =>
    subst hn
    cases src with
    | nil =>
        refine .inr ⟨0, ?_, Nat.zero_le _, Nat.zero_le _, .nil⟩
        rw [substrLoop, if_pos (.inr rfl)]
        rfl
    | cons b s =>
        rcases leading_cases b s with ⟨p, rest, hp, heq⟩ | ⟨hbad, -⟩
        · have hpos := List.length_pos_of_ne_nil hp.ne_nil
          rw [heq, substrLoop_complete hp]
          split_ifs with hmax
          · exact .inr ⟨0, rfl, Nat.zero_le _, Nat.zero_le _, .nil⟩
          · have hlt : rest.length < (b :: s).length := by
              rw [heq, List.length_append]
              omega
            rcases ih _ hlt rest (maxOctets - p.length) (length + p.length) rfl with hnone | ⟨k, hk, hle, hsize, hcomplete⟩
            · exact .inl hnone
            · refine .inr ⟨p.length + k, by rw [hk, Nat.add_assoc], by omega, by rw [List.length_append]; omega, ?_⟩
              rw [List.take_length_add_append]
              exact .cons hp hcomplete
        · rw [substrLoop_incomplete hbad]
          split_ifs
          · exact .inr ⟨0, rfl, Nat.zero_le _, Nat.zero_le _, .nil⟩
          · exact .inl rfl

theorem wellFormed_take_cases (h : IsSequence s) (hw : WellFormed ((s ++ rest).take n)) (hn : n ≤ (s ++ rest).length) :
    n = 0 ∨ (s.length ≤ n ∧ WellFormed (rest.take (n - s.length))) := by
  have hsplit := List.take_append_drop n (s ++ rest)
  have hlen : ((s ++ rest).take n).length = n := by rw [List.length_take, Nat.min_eq_left hn]
  generalize (s ++ rest).take n = t at hw hsplit hlen
  cases hw with
  | nil => exact .inl hlen.symm
  | @cons q r hq hr =>
      rw [List.append_assoc] at hsplit
      obtain ⟨rfl, hrest⟩ := hq.append_inj h hsplit
      rw [List.length_append] at hlen
      refine .inr ⟨by omega, ?_⟩
      have hr' : rest.take (n - q.length) = r := by
        rw [← hrest, ← hlen, Nat.add_sub_cancel_left, List.take_left]
      rwa [hr']

theorem substrLoop_wellFormed (h : WellFormed src) (maxOctets length : Nat) :
    ∃ k, substrLoop maxOctets length src.length src = .ok (some (length + k)) ∧ k ≤ maxOctets ∧
      k ≤ src.length ∧ WellFormed (src.take k) ∧
      ∀ n ≤ src.length, n ≤ maxOctets → WellFormed (src.take n) → n ≤ k := by
  induction h generalizing maxOctets length with
  | nil =>
      refine ⟨0, ?_, Nat.zero_le _, Nat.zero_le _, .nil, fun n hn _ _ => hn⟩
      rw [substrLoop, if_pos (.inr rfl)]
      rfl
  | @cons s rest hs _ ih =>
      rw [substrLoop_complete (isComplete_of_isSequence hs)]
      split_ifs with hmax
      · refine ⟨0, rfl, Nat.zero_le _, Nat.zero_le _, .nil, ?_⟩
        intro n hn hle hw
        rcases wellFormed_take_cases hs hw hn with rfl | ⟨hge, -⟩
        · exact Nat.le_refl 0
        · omega
      · obtain ⟨k, hk, hle, hsize, hw, hlongest⟩ := ih (maxOctets - s.length) (length + s.length)
        refine ⟨s.length + k, by rw [hk, Nat.add_assoc], by omega, by rw [List.length_append]; omega, ?_, ?_⟩
        · rw [List.take_length_add_append]
          exact .cons hs hw
        · intro n hn hmaxn hwn
          rcases wellFormed_take_cases hs hwn hn with rfl | ⟨hge, hwn⟩
          · exact Nat.zero_le _
          · have := hlongest (n - s.length) (by rw [List.length_append] at hn; omega) (by omega) hwn
            omega

/-! ## `utf8_to_wchar` -/

theorem charTailLoop_eq {dest : Nat} (hn : n ≤ s.length) : charTailLoop n s dest = .ok (tailLoop n s dest) := by
  induction n generalizing s dest with
  | zero => rfl
  | succ n ih =>
      cases s with
      | nil => simp at hn
      | cons b s =>
          rw [charTailLoop, tailLoop, List.headD_cons, List.tail_cons]
          split_ifs with hb
          · rfl
          · exact ih (Nat.le_of_succ_le_succ hn)

theorem tailLoop_stop {dest : Nat} (hb : ¬ IsTail b) : tailLoop (n + 1) (b :: s) dest = (false, dest) := by
  rw [tailLoop, List.headD_cons, if_pos (mt (isTail_iff b).mp hb)]

theorem tailLoop_spec {dest : Nat} (hn : n ≤ s.length) :
    (tailLoop n s dest).1 = decide (∀ c ∈ s.take n, IsTail c) ∧ ∀ rest, tailLoop n (s ++ rest) dest = tailLoop n s dest := by
  induction n generalizing s dest with
  | zero => simp [tailLoop]
  | succ n ih =>
      cases s with
      | nil => simp at hn
      | cons b s =>
          by_cases hb : IsTail b
          · obtain ⟨hfst, happend⟩ := @ih s (dest * 64 + b.toNat % 64) (Nat.le_of_succ_le_succ hn)
            rw [tailLoop_cons hb, hfst]
            refine ⟨by simp [hb], fun rest => ?_⟩
            rw [List.cons_append, tailLoop_cons hb, happend]
          · rw [tailLoop_stop hb]
            refine ⟨by simp [hb], fun rest => ?_⟩
            rw [List.cons_append, tailLoop_stop hb]

def wcharOf (p : Bytes) : Nat := (utf8CharToWchar p p.length).2

theorem wcharOf_of_isSequence (h : IsSequence p) : wcharOf p = decode p := by
  have hchar := utf8CharToWchar_of_isSequence h []
  rw [List.append_nil] at hchar
  rw [wcharOf, hchar]

theorem charToWchar_eq (h0 : getOctetCount b.toNat ≠ 0) (hle : getOctetCount b.toNat ≤ (b :: s).length) :
    charToWchar (b :: s) (getOctetCount b.toNat) = .ok (utf8CharToWchar (b :: s) (getOctetCount b.toNat)) := by
  have hcount : getOctetCount b.toNat ≠ 0 ∧ getOctetCount b.toNat ≤ 6 := ⟨h0, getOctetCount_le b⟩
  rw [charToWchar, if_pos hcount, utf8CharToWchar, if_pos hcount]
  exact charTailLoop_eq (by rw [List.length_cons] at hle; omega)

theorem utf8CharToWchar_fst (h0 : getOctetCount b.toNat ≠ 0) (hle : getOctetCount b.toNat ≤ (b :: s).length) :
    (utf8CharToWchar (b :: s) (getOctetCount b.toNat)).1 = decide (IsComplete ((b :: s).take (getOctetCount b.toNat))) := by
  rw [utf8CharToWchar, if_pos ⟨h0, getOctetCount_le b⟩]
  refine (tailLoop_spec (s := s) (by rw [List.length_cons] at hle; omega)).1.trans ?_
  exact decide_eq_decide.mpr (isComplete_take_iff h0 hle).symm

theorem utf8CharToWchar_complete (h : IsComplete p) (rest : Bytes) : utf8CharToWchar
    (p ++ rest) p.length = (true, wcharOf p) := by
  cases p with
  | nil => exact absurd h id
  | cons b p =>
      have hlen := h.length_eq
      have hcount : (b :: p).length ≠ 0 ∧ (b :: p).length ≤ 6 := ⟨by simp, by rw [hlen]; exact getOctetCount_le b⟩
      have hsame : utf8CharToWchar (b :: p ++ rest) (b :: p).length = utf8CharToWchar (b :: p) (b :: p).length := by
        rw [utf8CharToWchar, if_pos hcount, utf8CharToWchar, if_pos hcount]
        exact (tailLoop_spec (by simp)).2 rest
      have hfst := utf8CharToWchar_fst (s := p) (by omega) (Nat.le_of_eq hlen.symm)
      rw [← hlen, List.take_length, decide_eq_true h] at hfst
      rw [hsame]
      exact Prod.ext hfst rfl

/-- 計算が止まるのでなく、`InvalidFormatException` を投げる場合。 -/
def Fault.IsFormat (e : Fault) : Prop := e = .incomplete ∨ e = .invalidOctet

theorem toWcharLoop_complete {capacity : Nat} {dst : List Nat} (h : IsComplete p) (rest : Bytes) :
    toWcharLoop capacity (p ++ rest).length (p ++ rest) dst =
      pushWchar capacity dst (wcharOf p) >>= fun dst => toWcharLoop capacity rest.length rest dst := by
  have hchar := utf8CharToWchar_complete h rest
  cases p with
  | nil => exact absurd h id
  | cons b p =>
      have hlen := h.length_eq
      have hle : (b :: p).length ≤ (b :: (p ++ rest)).length := by simp
      have hread : charToWchar (b :: (p ++ rest)) (b :: p).length = .ok (true, wcharOf (b :: p)) := by
        rw [hlen, charToWchar_eq (by rw [← hlen]; simp) (by rwa [← hlen]), ← hlen]
        exact congrArg Except.ok hchar
      rw [List.cons_append, toWcharLoop.eq_def, dif_neg (by simp)]
      dsimp only
      rw [← hlen, if_neg (Nat.not_lt.mpr hle), dif_neg (by simp), hread, ok_bind]
      dsimp only
      rw [if_neg (by simp), ← List.cons_append, List.drop_left, List.length_append, Nat.add_sub_cancel_left]

theorem toWcharLoop_incomplete {capacity : Nat} {dst : List Nat} (h : ¬ IsComplete ((b :: s).take (getOctetCount b.toNat))) :
    ∃ e, e.IsFormat ∧ toWcharLoop capacity (b :: s).length (b :: s) dst = .error e := by
  rw [toWcharLoop.eq_def, dif_neg (by simp)]
  dsimp only
  by_cases hshort : (b :: s).length < getOctetCount b.toNat
  · rw [if_pos hshort]
    exact ⟨.incomplete, .inl rfl, rfl⟩
  · rw [if_neg hshort]
    by_cases h0 : getOctetCount b.toNat = 0
    · rw [dif_pos h0]
      exact ⟨.invalidOctet, .inr rfl, rfl⟩
    · have hfst := utf8CharToWchar_fst h0 (Nat.not_lt.mp hshort)
      rw [dif_neg h0, charToWchar_eq h0 (Nat.not_lt.mp hshort), ok_bind]
      rw [decide_eq_false h] at hfst
      refine ⟨.invalidOctet, .inr rfl, ?_⟩
      generalize utf8CharToWchar (b :: s) (getOctetCount b.toNat) = r at hfst
      obtain ⟨result, wch⟩ := r
      obtain rfl : result = false := hfst
      rfl

theorem toWcharLoop_of_fits (capacity : Nat) (src : Bytes) (dst : List Nat)
    (hlt : dst.length + (leading src).length < 2 ^ 31)
    (hle : dst.length + (leading src).length ≤ capacity) :
    ((leading src).flatten = src ∧ toWcharLoop capacity src.length src dst = .ok (dst ++ (leading src).map wcharOf)) ∨
      ((leading src).flatten ≠ src ∧ ∃ e, e.IsFormat ∧ toWcharLoop capacity src.length src dst = .error e) := by
  induction hn : src.length using Nat.strong_induction_on generalizing src dst with
  | _ n ih =>
    subst hn
    cases src with
    | nil =>
        refine .inl ⟨by rw [leading, List.flatten_nil], ?_⟩
        rw [leading, List.map_nil, List.append_nil, toWcharLoop.eq_def]
        rfl
    | cons b s =>
        rcases leading_cases b s with ⟨p, rest, hp, heq⟩ | ⟨hbad, hnil⟩
        · have hpos := List.length_pos_of_ne_nil hp.ne_nil
          rw [heq] at hlt hle ⊢
          rw [leading_append hp, List.length_cons] at hlt hle
          have hpush : pushWchar capacity dst (wcharOf p) = .ok (dst ++ [wcharOf p]) := by
            rw [pushWchar, if_pos (by omega), putWchar, if_pos (by omega)]
            rfl
          have hsize : rest.length < (b :: s).length := by
            rw [heq, List.length_append]
            omega
          rw [toWcharLoop_complete hp, hpush, ok_bind, leading_append hp, List.flatten_cons, List.map_cons]
          rcases ih _ hsize rest (dst ++ [wcharOf p]) (by simp; omega) (by simp; omega)
            rfl with ⟨hflat, hrun⟩ | ⟨hflat, hrun⟩
          · refine .inl ⟨by rw [hflat], ?_⟩
            rw [hrun, List.append_assoc, List.singleton_append]
          · exact .inr ⟨fun h => hflat (List.append_cancel_left h), hrun⟩
        · refine .inr ⟨?_, toWcharLoop_incomplete hbad⟩
          rw [hnil]
          exact (List.cons_ne_nil b s).symm

theorem toWcharLoop_of_not_fits (capacity : Nat) (src : Bytes) (dst : List Nat)
    (h : ¬ (dst.length + (leading src).length < 2 ^ 31 ∧ dst.length + (leading src).length ≤ capacity))
    (hdst : dst.length < 2 ^ 31 ∧ dst.length ≤ capacity) :
    ∃ e, ¬ e.IsFormat ∧ toWcharLoop capacity src.length src dst = .error e := by
  induction hn : src.length using Nat.strong_induction_on generalizing src dst with
  | _ n ih =>
    subst hn
    cases src with
    | nil =>
        rw [leading, List.length_nil] at h
        exact absurd hdst h
    | cons b s =>
        rcases leading_cases b s with ⟨p, rest, hp, heq⟩ | ⟨-, hnil⟩
        · have hpos := List.length_pos_of_ne_nil hp.ne_nil
          rw [heq, leading_append hp, List.length_cons] at h
          have hsize : rest.length < (b :: s).length := by
            rw [heq, List.length_append]
            omega
          rw [heq, toWcharLoop_complete hp, pushWchar]
          split_ifs with hlt
          · rw [putWchar]
            split_ifs with hle
            · exact ih _ hsize rest (dst ++ [wcharOf p])
                (by simpa [Nat.add_assoc, Nat.add_comm 1] using h) (by simp; omega) rfl
            · exact ⟨.outOfBounds, by simp [Fault.IsFormat], rfl⟩
          · exact ⟨.overflow, by simp [Fault.IsFormat], rfl⟩
        · rw [hnil, List.length_nil] at h
          exact absurd hdst h

def Fits (src : Bytes) : Prop :=
  (leading src).length < 2 ^ 31 ∧ (leading src).length +
    (if (leading src).flatten = src then 1 else 0) ≤ arraySize (src.length + 1)

theorem utf8ToWchar_of_fits (h : Fits src) :
    ((leading src).flatten = src ∧ utf8ToWchar src = .ok ((leading src).map wcharOf ++ [0])) ∨
      ((leading src).flatten ≠ src ∧ ∃ e, e.IsFormat ∧ utf8ToWchar src = .error e) := by
  obtain ⟨hlt, hle⟩ := h
  unfold utf8ToWchar
  rcases toWcharLoop_of_fits (arraySize (src.length + 1)) src [] (by simpa using hlt) (by rw [List.length_nil]; omega) with
    ⟨hflat, hrun⟩ | ⟨hflat, e, he, hrun⟩
  · refine .inl ⟨hflat, ?_⟩
    rw [if_pos hflat] at hle
    dsimp only
    rw [hrun, ok_bind, List.nil_append, putWchar, if_pos (by rw [List.length_map]; omega)]
    rfl
  · refine .inr ⟨hflat, e, he, ?_⟩
    dsimp only
    rw [hrun, error_bind]

theorem utf8ToWchar_of_not_fits (h : ¬ Fits src) : ∃ e, ¬ e.IsFormat ∧ utf8ToWchar src = .error e := by
  unfold utf8ToWchar
  dsimp only
  by_cases hloop : (leading src).length < 2 ^ 31 ∧ (leading src).length ≤ arraySize (src.length + 1)
  · rcases toWcharLoop_of_fits _ src [] (by simpa using hloop.1) (by simpa using hloop.2) with ⟨hflat, hrun⟩ | ⟨hflat, -⟩
    · have hfull : ¬ (leading src).length < arraySize (src.length + 1) := by
        intro hlt
        refine h ⟨hloop.1, ?_⟩
        rw [if_pos hflat]
        omega
      refine ⟨.outOfBounds, by simp [Fault.IsFormat], ?_⟩
      rw [hrun, ok_bind, List.nil_append, putWchar, List.length_map, if_neg hfull]
      rfl
    · refine absurd ⟨hloop.1, ?_⟩ h
      rw [if_neg hflat]
      exact hloop.2
  · obtain ⟨e, he, hrun⟩ := toWcharLoop_of_not_fits (arraySize (src.length + 1)) src [] (by simpa using hloop) (by simp)
    refine ⟨e, he, ?_⟩
    rw [hrun, error_bind]

/-! ## `wchar_to_utf8` -/

theorem subStringLoop_eq (src : List Nat) (res : Bytes) :
    subStringLoop src res = res ++ src.flatMap XmlEncode.wcharToUtf8 := by
  induction src generalizing res with
  | nil => rw [subStringLoop, List.flatMap_nil, List.append_nil]
  | cons c src ih => rw [subStringLoop, ih, List.flatMap_cons, List.append_assoc]

theorem pointerLoop_eq {w : List Nat} (h : 0 ∉ w) (res : Bytes) :
    pointerLoop (w ++ [0]) res = .ok (res ++ w.flatMap XmlEncode.wcharToUtf8) := by
  induction w generalizing res with
  | nil =>
      rw [List.nil_append, pointerLoop, if_pos rfl, List.flatMap_nil, List.append_nil]
      rfl
  | cons c w ih =>
      rw [List.mem_cons, not_or] at h
      rw [List.cons_append, pointerLoop, if_neg (Ne.symm h.1), ih h.2, List.flatMap_cons, List.append_assoc]

theorem wcharToUtf8_scalars (h : ∀ c ∈ cs, IsScalar c) : wcharToUtf8 cs = cs.flatMap encode := by
  rw [wcharToUtf8, subStringLoop_eq, List.nil_append]
  exact List.flatMap_congr fun c hc => wcharToUtf8_eq (h c hc).lt

theorem wellFormed_flatMap_encode (h : ∀ c ∈ cs, IsScalar c) : WellFormed (cs.flatMap encode) := by
  induction cs with
  | nil => exact .nil
  | cons c cs ih =>
      obtain ⟨hc, hcs⟩ := List.forall_mem_cons.mp h
      exact .cons (isSequence_encode hc) (ih hcs)

theorem mapM_wcharToUtf8Char (h : ∀ c ∈ cs, IsScalar c) :
    (cs.mapM wcharToUtf8Char).map List.flatten = some (cs.flatMap encode) := by
  have hmap : cs.mapM wcharToUtf8Char = some (cs.map encode) := by
    induction cs with
    | nil => rfl
    | cons c cs ih =>
        obtain ⟨hc, hcs⟩ := List.forall_mem_cons.mp h
        rw [List.mapM_cons, wcharToUtf8Char_eq hc.lt, ih hcs]
        rfl
  rw [hmap]
  rfl

theorem wellFormed_replicate (hb : b.toNat ≤ 0x7F) (n : Nat) : WellFormed (List.replicate n b) := by
  induction n with
  | zero => exact .nil
  | succ n ih => exact .cons (isSequence_one.mpr hb) ih

theorem leading_flatMap_encode (h : ∀ c ∈ cs, IsScalar c) :
    leading (cs.flatMap encode) = cs.map encode ∧ (leading (cs.flatMap encode)).map wcharOf = cs := by
  induction cs with
  | nil => exact ⟨leading.eq_def [], by rw [List.flatMap_nil, leading, List.map_nil]⟩
  | cons c cs ih =>
      obtain ⟨hc, hcs⟩ := List.forall_mem_cons.mp h
      obtain ⟨hleading, hvalue⟩ := ih hcs
      have hseq := isSequence_encode hc
      rw [List.flatMap_cons, leading_append (isComplete_of_isSequence hseq)]
      refine ⟨by rw [hleading, List.map_cons], ?_⟩
      rw [List.map_cons, wcharOf_of_isSequence hseq, decode_encode hc.lt, hvalue]

end UnixCommons.String.Utf8Text
