import UnixCommons.String.UTF8Handler
import UnixCommons.Lib.Utf8
import UnixCommons.Lib.Spec

/-!
# UTF-8 の検査の補題

一つの並びの検査は、三つ目のバイトを読まない四バイトの並びを除いて、表 3-7 と一致する。
-/

namespace UnixCommons.String.UTF8Handler

open Lib Lib.Utf8

variable {a b c d : UInt8} {src str rest : Bytes} {n : Nat}

/-! ## バイトの検査 -/

theorem isTail_iff (b : UInt8) : b.toNat &&& 0xC0 = 0x80 ↔ IsTail b :=
  forall_byte (P := fun n => n &&& 0xC0 = 0x80 ↔ 0x80 ≤ n ∧ n ≤ 0xBF) (by decide +kernel) b

theorem masks_iff (b : UInt8) :
    (b.toNat &&& 0xE0 = 0xA0 ↔ 0xA0 ≤ b.toNat ∧ b.toNat ≤ 0xBF) ∧
    (b.toNat &&& 0xE0 = 0x80 ↔ 0x80 ≤ b.toNat ∧ b.toNat ≤ 0x9F) ∧
      (b.toNat &&& 0xF0 = 0x80 ↔ 0x80 ≤ b.toNat ∧ b.toNat ≤ 0x8F) :=
  forall_byte (P := fun n => (n &&& 0xE0 = 0xA0 ↔ 0xA0 ≤ n ∧ n ≤ 0xBF) ∧ (n &&& 0xE0 = 0x80 ↔ 0x80 ≤ n ∧ n ≤ 0x9F) ∧
    (n &&& 0xF0 = 0x80 ↔ 0x80 ≤ n ∧ n ≤ 0x8F)) (by decide +kernel) b

theorem checkSecond_iff (a b : UInt8) : checkSecond a.toNat b.toNat = true ↔ IsSecond a b := by
  have htail := isTail_iff b
  obtain ⟨h₁, h₂, h₃⟩ := masks_iff b
  unfold checkSecond IsSecond
  unfold IsTail at htail
  split_ifs <;> simp only [decide_eq_true_eq, h₁, h₂, h₃, htail] <;> omega

theorem byteAt_zero : byteAt (a :: src) 0 = .ok a.toNat := rfl

theorem byteAt_one : byteAt (a :: b :: src) 1 = .ok b.toNat := rfl

theorem byteAt_two : byteAt (a :: b :: c :: src) 2 = .ok c.toNat := rfl

theorem byteAt_three : byteAt (a :: b :: c :: d :: src) 3 = .ok d.toNat := rfl

/-! ## 一つの並び -/

def SkipsThird : Bytes → Prop
  | [a, b] => (0xF0 ≤ a.toNat ∧ a.toNat ≤ 0xF4) ∧ IsSecond a b
  | a :: b :: c :: d :: _ => ((0xF0 ≤ a.toNat ∧ a.toNat ≤ 0xF4) ∧ IsSecond a b) ∧ ¬ IsTail c ∧ IsTail d
  | _ => False

def SequenceRight (src : Bytes) (r : Except Fault (Bool × Nat)) : Prop :=
  (∃ n, r = .ok (true, n) ∧ n ≤ src.length ∧ IsSequence (src.take n)) ∨ (r = .ok (false, 0) ∧ StartsBad src)

theorem sequence_of_take (n : Nat) (q : Bytes) (hq : IsSequence q) (h : src = q ++ rest)
    (hn : n = q.length) : SequenceRight src (.ok (true, n)) := by
  subst h hn
  exact .inl ⟨_, rfl, by simp, by simpa using hq⟩

theorem byteAt_end : byteAt src src.length = .ok 0 := by
  simp [byteAt, pure, Except.pure]

theorem byteAt_past (h : src.length < n) : byteAt src n = .error .pastNul := by
  rw [byteAt, if_neg (by omega), if_neg (by omega)]
  rfl

theorem isCorrectUtf8Sequence_of_lead (h₁ : ¬ a.toNat ≤ 0x7F)
    (h₂ : ¬ (a.toNat < 0xC2 ∨ a.toNat > 0xF4)) {b2 : Nat} (hb : byteAt (a :: src) 1 = .ok b2) :
    isCorrectUtf8Sequence (a :: src) =
      if a.toNat ≤ 0xDF then
        if b2 &&& 0xC0 = 0x80 then .ok (true, 2) else .ok (false, 0)
      else if ¬ checkSecond a.toNat b2 then
        .ok (false, 0)
      else if a.toNat < 0xF0 then do
        if (← byteAt (a :: src) 2) &&& 0xC0 ≠ 0x80 then return (false, 0) else return (true, 3)
      else do
        if (← byteAt (a :: src) 3) &&& 0xC0 ≠ 0x80 then return (false, 0) else return (true, 4) := by
  unfold isCorrectUtf8Sequence
  rw [byteAt_zero, ok_bind, if_neg h₁, if_neg h₂, hb]
  rfl

theorem isCorrectUtf8Sequence_two (ha : 0xC2 ≤ a.toNat ∧ a.toNat ≤ 0xDF) : SequenceRight (a :: src)
    (isCorrectUtf8Sequence (a :: src)) := by
  cases src with
  | nil =>
      refine .inr ⟨?_, startsBad_cons (by omega) ?_ ?_ ?_⟩
      · rw [isCorrectUtf8Sequence_of_lead (by omega) (by omega) byteAt_end, if_pos ha.2]
        rfl
      all_goals simp
  | cons b src =>
      rw [isCorrectUtf8Sequence_of_lead (by omega) (by omega) byteAt_one, if_pos ha.2]
      by_cases hb : IsTail b
      · rw [if_pos ((isTail_iff b).mpr hb)]
        exact sequence_of_take 2 [a, b] (isSequence_two.mpr ⟨ha, hb⟩) rfl rfl
      · rw [if_neg (mt (isTail_iff b).mp hb)]
        refine .inr ⟨rfl, startsBad_cons (by omega) ?_ ?_ ?_⟩
        · rintro _ _ ⟨⟩ -
          exact hb
        · intro _ _ _ _ h
          omega
        · intro _ _ _ _ _ h
          omega

theorem isCorrectUtf8Sequence_of_second (ha : 0xE0 ≤ a.toNat ∧ a.toNat ≤ 0xF4)
    (hb : byteAt (a :: src) 1 = .ok b.toNat) : isCorrectUtf8Sequence (a :: src) =
      if ¬ IsSecond a b then .ok (false, 0)
      else if a.toNat < 0xF0 then do
        if (← byteAt (a :: src) 2) &&& 0xC0 ≠ 0x80 then return (false, 0) else return (true, 3)
      else do
        if (← byteAt (a :: src) 3) &&& 0xC0 ≠ 0x80 then return (false, 0) else return (true, 4) := by
  rw [isCorrectUtf8Sequence_of_lead (by omega) (by omega) hb, if_neg (by omega)]
  exact if_congr (not_congr (checkSecond_iff a b)) rfl rfl

theorem not_isTail_zero : ¬ IsTail 0 := by decide

theorem not_isSecond_zero : ¬ IsSecond a 0 := by
  unfold IsSecond
  split_ifs <;> simp

theorem isCorrectUtf8Sequence_three (ha : 0xE0 ≤ a.toNat ∧ a.toNat ≤ 0xEF) : SequenceRight
    (a :: src) (isCorrectUtf8Sequence (a :: src)) := by
  have hbad : (∀ b c rest, src = b :: c :: rest → IsSecond a b → ¬ IsTail c) → StartsBad (a :: src) := by
    intro h
    refine startsBad_cons (by omega) ?_ (fun b c rest hs _ => h b c rest hs) ?_
    · intro _ _ _ h
      omega
    · intro _ _ _ _ _ h
      omega
  match src with
  | [] =>
      have hread : byteAt [a] 1 = .ok (0 : UInt8).toNat := byteAt_end
      rw [isCorrectUtf8Sequence_of_second (by omega) hread, if_pos not_isSecond_zero]
      exact .inr ⟨rfl, hbad (by simp)⟩
  | [b] =>
      have hread : byteAt [a, b] 2 = .ok (0 : UInt8).toNat := byteAt_end
      rw [isCorrectUtf8Sequence_of_second (by omega) byteAt_one, if_pos (by omega : a.toNat < 0xF0),
        hread, ok_bind, if_pos (mt (isTail_iff 0).mp not_isTail_zero)]
      refine .inr ⟨?_, hbad (by simp)⟩
      split <;> rfl
  | b :: c :: src =>
      rw [isCorrectUtf8Sequence_of_second (by omega) byteAt_one, if_pos (by omega : a.toNat < 0xF0), byteAt_two, ok_bind]
      by_cases hb : IsSecond a b
      · rw [if_neg (not_not.mpr hb)]
        by_cases hc : IsTail c
        · rw [if_neg (not_not.mpr ((isTail_iff c).mpr hc))]
          exact sequence_of_take 3 [a, b, c] (isSequence_three.mpr ⟨ha, hb, hc⟩) rfl rfl
        · rw [if_pos (mt (isTail_iff c).mp hc)]
          refine .inr ⟨rfl, hbad ?_⟩
          rintro _ _ _ ⟨⟩ -
          exact hc
      · rw [if_pos hb]
        refine .inr ⟨rfl, hbad ?_⟩
        rintro _ _ _ ⟨⟩ h
        exact absurd h hb

theorem startsBad_four (ha : 0xF0 ≤ a.toNat ∧ a.toNat ≤ 0xF4)
    (h : ∀ b c d rest, src = b :: c :: d :: rest → IsSecond a b → IsTail c → ¬ IsTail d) : StartsBad (a :: src) := by
  refine startsBad_cons (by omega) ?_ ?_ (fun b c d rest hs _ => h b c d rest hs)
  · intro _ _ _ h
    omega
  · intro _ _ _ _ h
    omega

theorem isCorrectUtf8Sequence_four (ha : 0xF0 ≤ a.toNat ∧ a.toNat ≤ 0xF4) (hs : ¬ SkipsThird (a :: src)) :
    SequenceRight (a :: src) (isCorrectUtf8Sequence (a :: src)) := by
  match src with
  | [] =>
      have hread : byteAt [a] 1 = .ok (0 : UInt8).toNat := byteAt_end
      rw [isCorrectUtf8Sequence_of_second (by omega) hread, if_pos not_isSecond_zero]
      exact .inr ⟨rfl, startsBad_four ha (by simp)⟩
  | [b] =>
      have hb : ¬ IsSecond a b := fun hb => hs ⟨ha, hb⟩
      rw [isCorrectUtf8Sequence_of_second (by omega) byteAt_one, if_pos hb]
      exact .inr ⟨rfl, startsBad_four ha (by simp)⟩
  | [b, c] =>
      have hread : byteAt [a, b, c] 3 = .ok (0 : UInt8).toNat := byteAt_end
      rw [isCorrectUtf8Sequence_of_second (by omega) byteAt_one, if_neg (by omega : ¬ a.toNat < 0xF0), hread, ok_bind,
        if_pos (mt (isTail_iff 0).mp not_isTail_zero)]
      refine .inr ⟨?_, startsBad_four ha (by simp)⟩
      split <;> rfl
  | b :: c :: d :: src =>
      rw [isCorrectUtf8Sequence_of_second (by omega) byteAt_one, if_neg (by omega : ¬ a.toNat < 0xF0), byteAt_three, ok_bind]
      by_cases hb : IsSecond a b
      · rw [if_neg (not_not.mpr hb)]
        by_cases hd : IsTail d
        · rw [if_neg (not_not.mpr ((isTail_iff d).mpr hd))]
          have hc : IsTail c := by
            by_contra hc
            exact hs ⟨⟨ha, hb⟩, hc, hd⟩
          exact sequence_of_take 4 [a, b, c, d] (isSequence_four.mpr ⟨ha, hb, hc, hd⟩) rfl rfl
        · rw [if_pos (mt (isTail_iff d).mp hd)]
          refine .inr ⟨rfl, startsBad_four ha ?_⟩
          rintro _ _ _ _ ⟨⟩ - -
          exact hd
      · rw [if_pos hb]
        refine .inr ⟨rfl, startsBad_four ha ?_⟩
        rintro _ _ _ _ ⟨⟩ h
        exact absurd h hb

theorem isCorrectUtf8Sequence_right (hs : ¬ SkipsThird (a :: src)) : SequenceRight (a :: src)
    (isCorrectUtf8Sequence (a :: src)) := by
  by_cases h₁ : a.toNat ≤ 0x7F
  · have hone : isCorrectUtf8Sequence (a :: src) = .ok (true, 1) := by
      unfold isCorrectUtf8Sequence
      rw [byteAt_zero, ok_bind, if_pos h₁]
      rfl
    rw [hone]
    exact sequence_of_take 1 [a] (isSequence_one.mpr h₁) rfl rfl
  · by_cases h₂ : a.toNat < 0xC2 ∨ a.toNat > 0xF4
    · refine .inr ⟨?_, startsBad_cons h₁ ?_ ?_ ?_⟩
      · unfold isCorrectUtf8Sequence
        rw [byteAt_zero, ok_bind, if_neg h₁, if_pos h₂]
        rfl
      · intro _ _ _ h
        omega
      · intro _ _ _ _ h
        omega
      · intro _ _ _ _ _ h
        omega
    · by_cases h₃ : a.toNat ≤ 0xDF
      · exact isCorrectUtf8Sequence_two (by omega)
      · by_cases h₄ : a.toNat ≤ 0xEF
        · exact isCorrectUtf8Sequence_three (by omega)
        · exact isCorrectUtf8Sequence_four (by omega) hs

theorem SkipsThird.spec (h : SkipsThird src) :
    StartsBad src ∧ (isCorrectUtf8Sequence src = .error .pastNul ∨
      (isCorrectUtf8Sequence src = .ok (true, 4) ∧ 4 ≤ src.length)) := by
  match src, h with
  | [a, b], ⟨ha, hb⟩ =>
      refine ⟨startsBad_four ha (by simp), .inl ?_⟩
      have hread : byteAt [a, b] 3 = .error .pastNul := byteAt_past (by simp)
      rw [isCorrectUtf8Sequence_of_second (by omega) byteAt_one, if_neg (not_not.mpr hb),
        if_neg (by omega : ¬ a.toNat < 0xF0), hread, error_bind]
  | a :: b :: c :: d :: src, ⟨⟨ha, hb⟩, hc, hd⟩ =>
      refine ⟨startsBad_four ha ?_, .inr ⟨?_, by simp⟩⟩
      · rintro _ _ _ _ ⟨⟩ - h
        exact absurd h hc
      · rw [isCorrectUtf8Sequence_of_second (by omega) byteAt_one, if_neg (not_not.mpr hb),
          if_neg (by omega : ¬ a.toNat < 0xF0),
          byteAt_three, ok_bind, if_neg (not_not.mpr ((isTail_iff d).mpr hd))]
        rfl

/-! ## `octets_count` -/

theorem getOctetCount_eq (h : a.toNat ≤ 0x7F ∨ (0xC2 ≤ a.toNat ∧ a.toNat ≤ 0xF4)) :
    getOctetCount a.toNat = sequenceLength a := by
  rw [getOctetCount_table, sequenceLength]
  split_ifs <;> omega

theorem lead_of_isSequence (h : IsSequence (a :: src)) : a.toNat ≤ 0x7F ∨ (0xC2 ≤ a.toNat ∧ a.toNat ≤ 0xF4) := by
  rcases h.cases with ⟨x, he, hx⟩ | ⟨x, b, he, hx, -⟩ | ⟨x, b, c, he, hx, -⟩ | ⟨x, b, c, d, he, hx, -⟩ <;>
  · obtain ⟨rfl, -⟩ := List.cons.inj he
    omega

theorem getOctetCount_of_skipsThird (h : SkipsThird (a :: src)) : getOctetCount a.toNat = 4 := by
  have ha : 0xF0 ≤ a.toNat ∧ a.toNat ≤ 0xF4 := by
    match src, h with
    | [b], h => exact h.1
    | b :: c :: d :: src, h => exact h.1.1
  rw [getOctetCount_eq (by omega), sequenceLength, if_neg (by omega), if_neg (by omega), if_neg (by omega)]

theorem octetsCount_eq (h : isCorrectUtf8Sequence src = .ok (true, n)) : getOctetCount (src.headD 0).toNat = n := by
  cases src with
  | nil =>
      obtain rfl : 1 = n := by
        have hone : isCorrectUtf8Sequence [] = .ok (true, 1) := by decide
        rw [hone] at h
        simpa using h
      decide
  | cons a src =>
      by_cases hs : SkipsThird (a :: src)
      · rcases hs.spec.2 with he | ⟨he, -⟩
        · rw [he] at h
          cases h
        · obtain rfl : 4 = n := by
            rw [he] at h
            simpa using h
          exact getOctetCount_of_skipsThird hs
      · rcases isCorrectUtf8Sequence_right hs with ⟨m, he, hle, hseq⟩ | ⟨he, -⟩
        · obtain rfl : m = n := by
            rw [he] at h
            simpa using h
          cases m with
          | zero => exact absurd hseq isSequence_nil
          | succ m =>
              rw [List.take_succ_cons] at hseq
              rw [List.headD_cons, getOctetCount_eq (lead_of_isSequence hseq), ← hseq.length_eq]
              simpa using hle
        · rw [he] at h
          cases h

/-! ## 文字列 -/

theorem stringLoop_cons {fuel pos : Nat} (ha : a ≠ 0) : stringLoop (fuel + 1) pos (a :: src) = (do
    let (correct, octetsCount) ← isCorrectUtf8Sequence (a :: src)
    if ¬ correct then
      return some pos
    else if octetsCount ≤ (a :: src).length then
      stringLoop fuel (pos + octetsCount) ((a :: src).drop octetsCount)
    else
      throw .pastNul) := by
  rw [stringLoop, byteAt_zero, ok_bind, if_neg]
  intro h
  exact ha (UInt8.toNat_inj.mp h)

theorem stringLoop_spec {fuel : Nat} (pos : Nat) (h0 : 0 ∉ str) (hfuel : str.length < fuel)
    (hs : ∀ w r, str = w ++ r → WellFormed w → ¬ SkipsThird r) :
    (stringLoop fuel pos str = .ok none ∧ WellFormed str) ∨ ∃ k, stringLoop fuel pos str = .ok
    (some (pos + k)) ∧ FirstBad str k := by
  induction fuel generalizing pos str with
  | zero => omega
  | succ fuel ih =>
      cases str with
      | nil => exact .inl ⟨rfl, .nil⟩
      | cons a src =>
          have ha : a ≠ 0 := by
            rintro rfl
            exact h0 List.mem_cons_self
          rw [stringLoop_cons ha]
          rcases isCorrectUtf8Sequence_right (hs [] _ rfl .nil) with ⟨n, he, hle, hseq⟩ | ⟨he, hbad⟩
          · rw [he, ok_bind]
            dsimp only
            rw [if_neg (by simp), if_pos hle]
            have hpos : 0 < n := by
              rcases Nat.eq_zero_or_pos n with rfl | hpos
              · exact absurd hseq isSequence_nil
              · exact hpos
            have hsplit := List.take_append_drop n (a :: src)
            have h0' : 0 ∉ (a :: src).drop n := fun hm => h0 (List.mem_of_mem_drop hm)
            have hlen : ((a :: src).drop n).length < fuel := by
              rw [List.length_drop]
              omega
            have hs' : ∀ w r, (a :: src).drop n = w ++ r → WellFormed w → ¬ SkipsThird r := by
              intro w r hr hw
              refine hs ((a :: src).take n ++ w) r ?_ (hw.cons hseq)
              rw [List.append_assoc, ← hr, hsplit]
            rcases ih (pos + n) h0' hlen hs' with ⟨hr, hw⟩ | ⟨k, hr, hw, hbad⟩
            · refine .inl ⟨hr, ?_⟩
              rw [← hsplit]
              exact hw.cons hseq
            · refine .inr ⟨n + k, by rw [hr, Nat.add_assoc], ?_, ?_⟩
              · rw [List.take_add]
                exact hw.cons hseq
              · rwa [← List.drop_drop]
          · rw [he]
            exact .inr ⟨0, rfl, .nil, hbad⟩

theorem stringLoop_ge {fuel pos k : Nat} (h : stringLoop fuel pos str = .ok (some k)) : pos ≤ k := by
  induction fuel generalizing pos str with
  | zero => cases h
  | succ fuel ih =>
      cases str with
      | nil => cases h
      | cons a src =>
          by_cases ha : a = 0
          · subst ha
            cases h
          · rw [stringLoop_cons ha] at h
            obtain ⟨r, hq, h⟩ := bind_eq_ok.mp h
            obtain ⟨correct, n⟩ := r
            dsimp only at h
            split_ifs at h with hc hle
            · exact Nat.le_trans (Nat.le_add_right _ _) (ih h)
            · obtain rfl : pos = k := by simpa [pure, Except.pure] using h
              exact Nat.le_refl _

theorem not_skipsThird_of_isSequence {s : Bytes} (h : IsSequence s) : ¬ SkipsThird (s ++ rest) := by
  intro hs
  have hbad := hs.spec.1.2 s.length
  rw [List.take_left] at hbad
  exact hbad h

theorem stringLoop_of_skipsThird {w : Bytes} {fuel pos k : Nat} (hw : WellFormed w) (hs : SkipsThird rest)
    (h : stringLoop fuel pos (w ++ rest) = .ok (some k)) : pos + w.length < k := by
  induction hw generalizing fuel pos with
  | nil =>
      cases fuel with
      | zero => cases h
      | succ fuel =>
          obtain ⟨-, hrun⟩ := hs.spec
          rw [List.nil_append] at h
          cases rest with
          | nil => cases hs
          | cons a src =>
              by_cases ha : a = 0
              · subst ha
                cases h
              · rw [stringLoop_cons ha] at h
                rcases hrun with he | ⟨he, hlen⟩
                · rw [he] at h
                  cases h
                · rw [he, ok_bind] at h
                  dsimp only at h
                  rw [if_neg (by simp), if_pos hlen] at h
                  have := stringLoop_ge h
                  simp only [List.length_nil]
                  omega
  | @cons s w hseq hw ih =>
      cases fuel with
      | zero => cases h
      | succ fuel =>
          have hright : ¬ SkipsThird (s ++ (w ++ rest)) := not_skipsThird_of_isSequence hseq
          rw [List.append_assoc] at h
          cases s with
          | nil => exact absurd hseq isSequence_nil
          | cons a src =>
              by_cases ha : a = 0
              · subst ha
                cases h
              · rw [List.cons_append] at h hright
                rw [stringLoop_cons ha] at h
                rcases isCorrectUtf8Sequence_right hright with ⟨n, he, hle, hseq'⟩ | ⟨he, hbad⟩
                · have hsplit := List.take_append_drop n (a :: (src ++ (w ++ rest)))
                  rw [← List.cons_append] at hsplit hseq'
                  obtain ⟨htake, hdrop⟩ := hseq'.append_inj hseq hsplit
                  rw [he, ok_bind] at h
                  dsimp only at h
                  rw [if_neg (by simp), if_pos hle, ← List.cons_append, hdrop] at h
                  have hlt := ih h
                  have hn : n = (a :: src).length := by
                    rw [← htake, List.length_take, Nat.min_eq_left (by simpa using hle)]
                  rw [List.length_append]
                  omega
                · have := hbad.2 (a :: src).length
                  rw [← List.cons_append, List.take_left] at this
                  exact absurd hseq this

/-! ## 一つの文字の変換 -/

theorem isCorrectUtf8Sequence_of_isSequence {s : Bytes} (h : IsSequence s) (rest : Bytes) :
    isCorrectUtf8Sequence (s ++ rest) = .ok (true, s.length) := by
  have hright : ¬ SkipsThird (s ++ rest) := not_skipsThird_of_isSequence h
  cases s with
  | nil => exact absurd h isSequence_nil
  | cons a src =>
      rw [List.cons_append] at hright ⊢
      rcases isCorrectUtf8Sequence_right hright with ⟨n, he, hle, hseq⟩ | ⟨-, hbad⟩
      · have hsplit := List.take_append_drop n (a :: (src ++ rest))
        rw [← List.cons_append] at hsplit hseq hle
        obtain ⟨htake, -⟩ := hseq.append_inj h hsplit
        rw [he, ← htake, List.length_take, Nat.min_eq_left hle]
      · have := hbad.2 (a :: src).length
        rw [← List.cons_append, List.take_left] at this
        exact absurd h this

theorem and_mask (n k : Nat) : n &&& (2 ^ k - 1) = n % 2 ^ k := Nat.and_two_pow_sub_one_eq_mod n k

theorem shift_or (dest n : Nat) : (dest <<< 6) ||| (n &&& 0x3F) = dest * 64 + n % 64 := by
  have hmod : n &&& 0x3F = n % 64 := and_mask n 6
  rw [hmod, Nat.shiftLeft_eq, Nat.mul_comm]
  exact (Nat.two_pow_add_eq_or_of_lt (Nat.mod_lt n (by decide : 0 < 2 ^ 6)) dest).symm

theorem tailLoop_cons {dest : Nat} (hb : IsTail b) : tailLoop (n + 1)
    (b :: src) dest = tailLoop n src (dest * 64 + b.toNat % 64) := by
  have htail := (isTail_iff b).mpr hb
  rw [tailLoop, List.headD_cons, if_neg (not_not.mpr htail), shift_or, List.tail_cons]

theorem IsSecond.isTail (h : IsSecond a b) : IsTail b := by
  unfold IsSecond at h
  unfold IsTail
  split_ifs at h <;> omega

theorem utf8CharToWchar_of_isSequence {s : Bytes} (h : IsSequence s) (rest : Bytes) :
    utf8CharToWchar (s ++ rest) s.length = (true, decode s) := by
  rcases h.cases with ⟨a, rfl, ha⟩ | ⟨a, b, rfl, ha, hb⟩ | ⟨a, b, c, rfl, ha, hb, hc⟩ | ⟨a, b, c, d, rfl, ha, hb, hc, hd⟩
  · have hfirst : a.toNat &&& 0x7F = a.toNat := (and_mask a.toNat 7).trans (Nat.mod_eq_of_lt (by omega))
    change tailLoop 0 rest (a.toNat &&& 0x7F) = _
    rw [hfirst]
    rfl
  · have hfirst : a.toNat &&& 0x1F = a.toNat % 32 := and_mask a.toNat 5
    change tailLoop 1 (b :: rest) (a.toNat &&& 0x1F) = _
    rw [hfirst, tailLoop_cons hb]
    rfl
  · have hfirst : a.toNat &&& 0x0F = a.toNat % 16 := and_mask a.toNat 4
    change tailLoop 2 (b :: c :: rest) (a.toNat &&& 0x0F) = _
    rw [hfirst, tailLoop_cons (IsSecond.isTail hb), tailLoop_cons hc]
    rfl
  · have hfirst : a.toNat &&& 0x07 = a.toNat % 8 := and_mask a.toNat 3
    change tailLoop 3 (b :: c :: d :: rest) (a.toNat &&& 0x07) = _
    rw [hfirst, tailLoop_cons (IsSecond.isTail hb), tailLoop_cons hc, tailLoop_cons hd]
    rfl

theorem or_lead :
    (∀ m < 32, m ||| 0xC0 = 0xC0 + m) ∧ (∀ m < 16, m ||| 0xE0 = 0xE0 + m) ∧ (∀ m < 8, m ||| 0xF0 = 0xF0 + m) ∧
      ∀ m < 64, m ||| 0x80 = 0x80 + m := by
  decide

theorem shiftRight_and {n i k : Nat} (h : n / 2 ^ i < 2 ^ k) : (n >>> i) &&& (2 ^ k - 1) = n / 2 ^ i := by
  rw [and_mask, Nat.shiftRight_eq_div_pow, Nat.mod_eq_of_lt h]

theorem or_tail (m : Nat) : (m &&& 0x3F) ||| 0x80 = 0x80 + m % 64 := by
  have hm : m &&& 0x3F = m % 64 := and_mask m 6
  rw [hm, or_lead.2.2.2 _ (Nat.mod_lt _ (by decide))]

theorem wcharToUtf8Char_eq {n : Nat} (h : n < 0x110000) : wcharToUtf8Char n = some (encode n) := by
  obtain ⟨h₂, h₃, h₄, -⟩ := or_lead
  unfold wcharToUtf8Char encode
  split_ifs with c₁ c₂ c₃ c₄
  · have hm : n &&& 0x7F = n := (and_mask n 7).trans (Nat.mod_eq_of_lt (by omega))
    rw [hm]
  · have hm : (n >>> 6) &&& 0x1F = n / 64 := shiftRight_and (i := 6) (k := 5) (by omega)
    rw [hm, h₂ _ (by omega), or_tail]
  · have hm : (n >>> 12) &&& 0x0F = n / 4096 := shiftRight_and (i := 12) (k := 4) (by omega)
    rw [hm, h₃ _ (by omega), or_tail, or_tail, Nat.shiftRight_eq_div_pow]
  · have hm : (n >>> 18) &&& 0x07 = n / 262144 := shiftRight_and (i := 18) (k := 3) (by omega)
    rw [hm, h₄ _ (by omega), or_tail, or_tail, or_tail, Nat.shiftRight_eq_div_pow, Nat.shiftRight_eq_div_pow]
  · omega

end UnixCommons.String.UTF8Handler
