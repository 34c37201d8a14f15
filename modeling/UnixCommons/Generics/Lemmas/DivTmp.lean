import UnixCommons.Generics.DecimalDiv
import UnixCommons.Generics.Lemmas.Decimal

/-! # 割り算の作業用の配列の補題 -/

namespace UnixCommons.Generics

open Lib

variable {p : Params} {t : DivTmp} {a : Nat → Nat} {cap X i j m n x f c : Nat}

/-- 長さ `cap` の配列は `X` を表し、`size_` より上の要素は零である。 -/
structure DivTmp.Holds (p : Params) (cap : Nat) (t : DivTmp) (X : Nat) : Prop where
  digit : ∀ j < cap, t.tmpArray j < p.base
  size_pos : 0 < t.size
  size_le : t.size ≤ cap
  zero : ∀ j, t.size ≤ j → j < cap → t.tmpArray j = 0
  value : val p.base t.tmpArray cap = X

theorem DivTmp.Holds.val_eq (h : t.Holds p cap X) (hn : t.size ≤ n) (hc : n ≤ cap) : val p.base t.tmpArray n = X := by
  rw [← h.value]
  exact (val_eq_of_zero hc fun j hj hj' => h.zero j (by omega) hj').symm

theorem DivTmp.Holds.lt_pow (h : t.Holds p cap X) : X < p.base ^ t.size := by
  rw [← h.val_eq (Nat.le_refl _) h.size_le]
  exact val_lt fun j hj => h.digit j (Nat.lt_of_lt_of_le hj h.size_le)

/-! ## 縮める -/

theorem shrinkLoop_spec (hn : 0 < n) : 0 < shrinkLoop a n ∧ shrinkLoop a n ≤ n ∧
    (∀ j, shrinkLoop a n ≤ j → j < n → a j = 0) ∧ (shrinkLoop a n = 1 ∨ a (shrinkLoop a n - 1) ≠ 0) := by
  induction n with
  | zero => omega
  | succ n ih =>
      unfold shrinkLoop
      split
      · next h =>
        obtain ⟨h1, h2, h3, h4⟩ := ih (by omega)
        refine ⟨h1, by omega, fun j hj hj' => ?_, h4⟩
        by_cases hjn : j = n
        · rw [hjn]
          exact h.2
        · exact h3 j hj (by omega)
      · next h =>
        refine ⟨Nat.succ_pos n, Nat.le_refl _, fun j hj hj' => by omega, ?_⟩
        rw [Nat.add_sub_cancel]
        by_cases hz : a n = 0
        · exact Or.inl (by omega)
        · exact Or.inr hz

theorem DivTmp.Holds.shrink (h : t.Holds p cap X) :
    t.shrink.Holds p cap X ∧ (t.shrink.size = 1 ∨ t.shrink.tmpArray (t.shrink.size - 1) ≠ 0) := by
  obtain ⟨h1, h2, h3, h4⟩ := shrinkLoop_spec (a := t.tmpArray) h.size_pos
  refine ⟨⟨h.digit, h1, Nat.le_trans h2 h.size_le, fun j hj hj' => ?_, h.value⟩, h4⟩
  rcases Nat.lt_or_ge j t.size with hlt | hge
  · exact h3 j hj hlt
  · exact h.zero j hge hj'

theorem DivTmp.shrink_initialSize (h : t.initialSize = 0) : t.shrink.initialSize = t.shrink.size := if_pos h

/-! ## 一つの要素を掛ける -/

theorem mulCarry_spec (hx : x < p.base) (hf : f < p.base) (hc : c < p.base) :
    (mulCarry p x f c).1 + p.base * (mulCarry p x f c).2 = x * f + c ∧ (mulCarry p x f c).1 < p.base ∧
      (mulCarry p x f c).2 < p.base := by
  have hbase : p.element.base = p.base := rfl
  obtain ⟨h1, h2, h3⟩ := Element.mulElements_spec (e := p.element) hx hf
  rw [hbase] at h1 h2 h3
  -- 積に一つの要素を足しても、上の要素は `BASE` に届かない。
  have hlt : x * f + c < p.base * p.base :=
    calc x * f + c < x * p.base + p.base := Nat.add_lt_add_of_le_of_lt (Nat.mul_le_mul_left _ (Nat.le_of_lt hf)) hc
      _ = (x + 1) * p.base := (Nat.succ_mul _ _).symm
      _ ≤ p.base * p.base := Nat.mul_le_mul_right _ hx
  unfold mulCarry
  generalize p.element.mulElements x f = r at h1 h2 h3
  obtain ⟨result, overElement⟩ := r
  dsimp only at h1 h2 h3 ⊢
  have hadd : p.element.add result c = result + c := Element.cast_of_lt_base (by omega)
  rw [hadd]
  split
  · next hge =>
    have hsub : p.element.sub (result + c) p.base = result + c - p.base := Element.sub_of_le_base hge (by omega)
    have hover : p.element.add overElement 1 = overElement + 1 := Element.cast_of_lt_base (by omega)
    have hmul : p.base * (overElement + 1) = p.base * overElement + p.base := Nat.mul_succ _ _
    rw [hsub, hover]
    refine ⟨by dsimp only; omega, by dsimp only; omega, ?_⟩
    refine Nat.lt_of_mul_lt_mul_left (a := p.base) ?_
    dsimp only
    omega
  · exact ⟨by dsimp only; omega, by dsimp only; omega, h3⟩

/-- `DivTmpArrayBase::mul` のループの不変条件。 -/
structure MulInv (p : Params) (a₀ : Nat → Nat) (f n : Nat) (i : Nat) (s : (Nat → Nat) × Nat) : Prop where
  digit : ∀ j < n, s.1 j < p.base
  carry : s.2 < p.base
  value : val p.base s.1 i + p.base ^ i * s.2 = f * val p.base a₀ i
  rest : ∀ j, i ≤ j → s.1 j = a₀ j

theorem MulInv.step {s : (Nat → Nat) × Nat} (h : MulInv p a f n i s) (hi : i < n)
    (hf : f < p.base) : MulInv p a f n (i + 1) (divTmpMulBody p f i s) := by
  obtain ⟨h1, h2, h3⟩ := mulCarry_spec (h.digit i hi) hf h.carry
  unfold divTmpMulBody
  generalize mulCarry p (s.1 i) f s.2 = r at h1 h2 h3
  obtain ⟨result, overElement⟩ := r
  dsimp only at h1 h2 h3 ⊢
  refine ⟨digits_update h.digit h2, h3, ?_, fun j hj => ?_⟩
  · rw [val_update_succ, carry_step h.value h1, val_succ, h.rest i (Nat.le_refl i)]
    ring
  · dsimp only
    rw [Function.update_of_ne (by omega)]
    exact h.rest j (by omega)

theorem DivTmp.Holds.mul (h : t.Holds p cap X) (hf : f < p.base) (hX : X * f < p.base ^ cap) :
    Returns (t.mul p cap f)
      (fun t' => t'.Holds p cap (X * f) ∧ t'.initialSize = t.initialSize ∧
        (t'.size = t.size ∨ t'.size = t.size + 1 ∧ p.base ^ t.size ≤ X * f)) fun _ => False := by
  have hpos := Params.base_pos (p := p)
  have hinv : MulInv p t.tmpArray f t.size t.size (forUp (divTmpMulBody p f) t.size (t.tmpArray, 0)) :=
    forUp_invariant _ ⟨fun j hj => h.digit j (Nat.lt_of_lt_of_le hj h.size_le), hpos,
      by simp, fun _ _ => rfl⟩ fun i s hi hs => hs.step hi hf
  unfold DivTmp.mul
  generalize forUp (divTmpMulBody p f) t.size (t.tmpArray, 0) = r at hinv
  obtain ⟨b, overflow⟩ := r
  obtain ⟨hd, hc, hv, hr⟩ := hinv
  dsimp only at hd hc hv hr ⊢
  rw [h.val_eq (Nat.le_refl _) h.size_le, Nat.mul_comm f] at hv
  have hdigit : ∀ j < cap, b j < p.base := fun j hj => by
    rcases Nat.lt_or_ge j t.size with hlt | hge
    · exact hd j hlt
    · rw [hr j hge]
      exact h.digit j hj
  have hzero : ∀ j, t.size ≤ j → j < cap → b j = 0 := fun j hj hj' => by
    rw [hr j hj]
    exact h.zero j hj hj'
  refine Returns.ite (fun hne => Returns.bind ?_) (fun hz => Returns.pure ?_)
  · have hge : p.base ^ t.size ≤ X * f := by
      have := Nat.le_mul_of_pos_right (p.base ^ t.size) (Nat.pos_of_ne_zero hne)
      omega
    have hlt : t.size < cap := (Nat.pow_lt_pow_iff_right Params.one_lt_base).mp (Nat.lt_of_le_of_lt hge hX)
    rw [assert, if_pos (decide_eq_true hlt)]
    refine Returns.pure (Returns.pure ⟨⟨digits_update hdigit hc, Nat.succ_pos _, hlt, fun j hj hj' => ?_, ?_⟩, rfl,
      Or.inr ⟨rfl, hge⟩⟩)
    · dsimp only at hj ⊢
      rw [Function.update_of_ne (by omega)]
      exact hzero j (by omega) hj'
    · dsimp only
      have hup : ∀ j, t.size + 1 ≤ j → j < cap → Function.update b t.size overflow j = 0 := fun j hj hj' => by
        rw [Function.update_of_ne (by omega)]
        exact hzero j (by omega) hj'
      rw [val_eq_of_zero hlt hup, val_update_succ, Nat.mul_comm overflow]
      exact hv
  · have hz : overflow = 0 := by omega
    subst hz
    refine ⟨⟨hdigit, h.size_pos, h.size_le, hzero, ?_⟩, rfl, Or.inl rfl⟩
    dsimp only
    rw [val_eq_of_zero h.size_le hzero]
    omega

/-! ## 一つの要素で割る -/

/-- `DivTmpArrayBase::div` のループの不変条件。 -/
structure DivInv (p : Params) (a₀ : Nat → Nat) (d n : Nat) (i : Nat) (s : (Nat → Nat) × Nat) : Prop where
  digit : ∀ j < n, s.1 j < p.base
  remainder : s.2 < d
  value : val p.base a₀ n = val p.base a₀ i + p.base ^ i * (d * val p.base (fun j => s.1 (i + j)) (n - i) + s.2)
  low : ∀ j < i, s.1 j = a₀ j
  high : ∀ j, n ≤ j → s.1 j = a₀ j

theorem DivInv.step {s : (Nat → Nat) × Nat} {d : Nat} (h : DivInv p a d n (i + 1) s) (hi : i < n)
    (hd : d ≤ p.base) : DivInv p a d n i (divTmpDivBody p d i s) := by
  obtain ⟨h1, h2, h3⟩ := Element.divElements_spec (e := p.element) h.remainder (h.digit i hi) hd
  rw [show p.element.base = p.base from rfl] at h1 h2
  unfold divTmpDivBody
  generalize p.element.divElements s.2 (s.1 i) d = r at h1 h2 h3
  obtain ⟨q, r⟩ := r
  dsimp only at h1 h2 h3 ⊢
  have hsplit : val p.base (fun j => Function.update s.1 i q (i + j)) (n - i) =
      p.base * val p.base (fun j => s.1 (i + 1 + j)) (n - (i + 1)) + q := by
    rw [show n - i = n - (i + 1) + 1 by omega, val_succ_left, Nat.add_zero, Function.update_self, Nat.add_comm]
    congr 2
    refine val_congr fun j hj => ?_
    rw [Function.update_of_ne (show i + (1 + j) ≠ i by omega), Nat.add_assoc]
  refine ⟨digits_update h.digit h2, h3, ?_, fun j hj => ?_, fun j hj => ?_⟩
  · rw [hsplit]
    refine divide_step ?_ (h.low i (Nat.lt_succ_self i) ▸ h1)
    rw [h.value, val_succ]
  · dsimp only
    rw [Function.update_of_ne (by omega)]
    exact h.low j (by omega)
  · dsimp only
    rw [Function.update_of_ne (by omega)]
    exact h.high j hj

theorem DivTmp.Holds.div {d : Nat} (h : t.Holds p cap X) (hd : 0 < d) (hb : d ≤ p.base) :
    (t.div p d).1.Holds p cap (X / d) ∧ (t.div p d).2 = X % d := by
  have hinv : DivInv p t.tmpArray d t.size 0 (forDown (divTmpDivBody p d) t.size (t.tmpArray, 0)) :=
    forDown_invariant _ ⟨fun j hj => h.digit j (Nat.lt_of_lt_of_le hj h.size_le), hd,
      by simp, fun _ _ => rfl, fun _ _ => rfl⟩ fun i s hi hs => hs.step hi hb
  unfold DivTmp.div
  generalize forDown (divTmpDivBody p d) t.size (t.tmpArray, 0) = r at hinv
  obtain ⟨b, rem⟩ := r
  obtain ⟨hdigit, hr, hv, -, hhigh⟩ := hinv
  dsimp only at hdigit hr hv hhigh ⊢
  simp only [Nat.zero_add, Nat.sub_zero, Nat.pow_zero, Nat.one_mul, val_zero] at hv
  rw [h.val_eq (Nat.le_refl _) h.size_le] at hv
  have hzero : ∀ j, t.size ≤ j → j < cap → b j = 0 := fun j hj hj' => by
    rw [hhigh j hj]
    exact h.zero j hj hj'
  have hq : X / d = val p.base b t.size := by
    rw [hv, Nat.add_comm, Nat.add_mul_div_left _ _ hd, Nat.div_eq_of_lt hr, Nat.zero_add]
  have hm : X % d = rem := by
    rw [hv, Nat.mul_add_mod, Nat.mod_eq_of_lt hr]
  have hquot : DivTmp.Holds p cap ⟨b, t.size, t.initialSize⟩ (X / d) := by
    refine ⟨fun j hj => ?_, h.size_pos, h.size_le, hzero, ?_⟩
    · rcases Nat.lt_or_ge j t.size with hlt | hge
      · exact hdigit j hlt
      · exact Nat.lt_of_le_of_lt (Nat.le_of_eq (hzero j hge hj)) Params.base_pos
    · rw [hq, val_eq_of_zero h.size_le hzero]
  exact ⟨hquot.shrink.1, hm.symm⟩

/-! ## コンストラクタ -/

variable {d : Decimal}

theorem Params.fractionEnd_add_size_lt : p.fractionEnd + p.size < p.divTmpSize := by
  have h := Params.divTmpSize_eq (p := p)
  rcases Params.tmpSize_eq (p := p) with ⟨-, h'⟩ | ⟨-, h' | h'⟩ <;> omega

structure DividendInv (p : Params) (array : Nat → Nat) (i : Nat) (s : (Nat → Nat) × Nat) : Prop where
  digit : ∀ j, s.1 j < p.base
  overElement : s.2 < p.fractionRemainder
  value : val p.base (fun j => s.1 (p.fractionEnd + j)) i + p.base ^ i * s.2 = p.fractionRemainder * val p.base array i
  low : ∀ j < p.fractionEnd, s.1 j = 0
  high : ∀ j, p.fractionEnd + i ≤ j → s.1 j = 0

theorem DividendInv.step {s : (Nat → Nat) × Nat} (h : DividendInv p a i s) (ha : a i < p.base) :
    DividendInv p a (i + 1) (dividendBody p a i s) := by
  have hO := Params.fractionOver_pos (p := p)
  have hRO := Params.remainder_mul_over (p := p)
  have hmod := Nat.mod_lt (a i) hO
  have hdm := Nat.mod_add_div (a i) p.fractionOver
  have hover := h.overElement
  have hlt : a i % p.fractionOver * p.fractionRemainder + s.2 < p.base :=
    calc a i % p.fractionOver * p.fractionRemainder + s.2
        < a i % p.fractionOver * p.fractionRemainder + p.fractionRemainder := by omega
      _ = (a i % p.fractionOver + 1) * p.fractionRemainder := (Nat.succ_mul _ _).symm
      _ ≤ p.fractionOver * p.fractionRemainder := Nat.mul_le_mul_right _ hmod
      _ = p.base := by rw [Nat.mul_comm, hRO]
  have hcast : p.element.cast (a i % p.fractionOver * p.fractionRemainder + s.2) =
      a i % p.fractionOver * p.fractionRemainder + s.2 :=
    Element.cast_of_lt_base (by rw [show p.element.base = p.base from rfl]; omega)
  have hstep : a i % p.fractionOver * p.fractionRemainder + s.2 + p.base * (a i / p.fractionOver) =
      p.fractionRemainder * a i + s.2 := by
    generalize a i % p.fractionOver = r at hdm
    generalize a i / p.fractionOver = q at hdm
    rw [← hdm, ← hRO]
    ring
  unfold dividendBody
  rw [hcast]
  refine ⟨fun j => ?_, ?_, ?_, fun j hj => ?_, fun j hj => ?_⟩
  · exact digits_update (n := j + 1) (fun j _ => h.digit j) hlt j (Nat.lt_succ_self j)
  · dsimp only
    refine Nat.div_lt_of_lt_mul ?_
    rw [Nat.mul_comm, hRO]
    exact ha
  · dsimp only
    have hval : val p.base (fun j => Function.update s.1 (p.fractionEnd + i)
          (a i % p.fractionOver * p.fractionRemainder + s.2) (p.fractionEnd + j)) i =
        val p.base (fun j => s.1 (p.fractionEnd + j)) i :=
      val_congr fun j hj => Function.update_of_ne (by omega) _ _
    rw [val_succ, hval, Function.update_self, carry_step h.value hstep, val_succ]
    ring
  · dsimp only
    rw [Function.update_of_ne (by omega)]
    exact h.low j hj
  · dsimp only
    rw [Function.update_of_ne (by omega)]
    exact h.high j (by omega)

theorem val_shifted (hlow : ∀ j < p.fractionEnd, a j = 0) (hn : p.fractionEnd + n ≤ m)
    (hhigh : ∀ j, p.fractionEnd + n ≤ j → j < m → a j = 0) :
    val p.base a m = p.base ^ p.fractionEnd * val p.base (fun j => a (p.fractionEnd + j)) n := by
  rw [val_eq_of_zero hn hhigh, val_add, (val_eq_zero_iff Params.base_pos).mpr hlow, Nat.zero_add]

theorem DivTmp.dividend_holds (h : d.Valid p) :
    (DivTmp.dividend p d).Holds p p.divTmpSize (d.magnitude p * 10 ^ p.fraction) ∧
    (DivTmp.dividend p d).initialSize = 0 := by
  have hsize := Params.fractionEnd_add_size_lt (p := p)
  have hpos := Params.base_pos (p := p)
  unfold DivTmp.dividend
  split
  · next hR =>
    refine ⟨⟨fun j hj => ?_, by dsimp only; omega, Nat.le_refl _, fun j hj hj' => absurd hj' (Nat.not_lt.mpr hj), ?_⟩, rfl⟩
    · dsimp only
      split
      · exact h.digit _ (by omega)
      · exact hpos
    · dsimp only
      rw [val_shifted (n := p.size) (fun j hj => if_neg (by omega)) (by omega)
        (fun j hj _ => if_neg (by omega)), ← Params.pow_fraction, hR, Nat.one_mul, Nat.mul_comm]
      congr 1
      refine val_congr fun j hj => ?_
      rw [if_pos (by omega), Nat.add_sub_cancel_left]
  · have hinv : DividendInv p d.array p.size (forUp (dividendBody p d.array) p.size (fun _ => 0, 0)) :=
      forUp_invariant _ ⟨fun _ => hpos, Params.fractionRemainder_pos,
        by simp, fun _ _ => rfl, fun _ _ => rfl⟩ fun i s hi hs => hs.step (h.digit i hi)
    generalize forUp (dividendBody p d.array) p.size (fun _ => 0, 0) = r at hinv
    obtain ⟨b, overElement⟩ := r
    obtain ⟨hdigit, hover, hv, hlow, hhigh⟩ := hinv
    dsimp only at hdigit hover hv hlow hhigh ⊢
    have hR : p.fractionRemainder ≤ p.base := by
      rw [← Params.remainder_mul_over]
      exact Nat.le_mul_of_pos_right _ Params.fractionOver_pos
    refine ⟨⟨digits_update (fun j _ => hdigit j) (Nat.lt_of_lt_of_le hover hR),
      by dsimp only; omega, Nat.le_refl _, fun j hj hj' => absurd hj' (Nat.not_lt.mpr hj), ?_⟩, rfl⟩
    dsimp only
    have hval : val p.base (fun j => Function.update b (p.fractionEnd + p.size) overElement
        (p.fractionEnd + j)) p.size = val p.base (fun j => b (p.fractionEnd + j)) p.size :=
      val_congr fun j hj => Function.update_of_ne (by omega) _ _
    rw [val_shifted (n := p.size + 1), val_succ, hval, Function.update_self,
      Nat.mul_comm overElement, hv, ← Params.pow_fraction]
    · unfold Decimal.magnitude
      ring
    · intro j hj
      rw [Function.update_of_ne (by omega)]
      exact hlow j hj
    · omega
    · intro j hj hj'
      rw [Function.update_of_ne (by omega)]
      exact hhigh j (by omega)

theorem DivTmp.divisor_holds (h : d.Valid p) :
    (DivTmp.divisor p d).Holds p (p.size + 1) (d.magnitude p) ∧ (DivTmp.divisor p d).initialSize = 0 := by
  refine ⟨⟨fun j hj => ?_, Nat.succ_pos _, Nat.le_refl _, fun j hj hj' => absurd hj' (Nat.not_lt.mpr hj), ?_⟩, rfl⟩
  · unfold DivTmp.divisor
    dsimp only
    split
    · exact h.digit j ‹_›
    · exact Params.base_pos
  · unfold DivTmp.divisor Decimal.magnitude
    dsimp only
    rw [val_succ, if_neg (Nat.lt_irrefl _), Nat.zero_mul, Nat.add_zero]
    exact val_congr fun j hj => if_pos hj

theorem DivTmp.Holds.exportTo (h : t.Holds p p.divTmpSize X) (array : Nat → Nat) :
    (t.exportTo p array = none → 10 ^ p.total ≤ X) ∧
    (∀ r, t.exportTo p array = some r → (∀ i < p.size, r i < p.base) ∧ val p.base r p.size = X ∧ X < 10 ^ p.total) := by
  have hsize := Params.fractionEnd_add_size_lt (p := p)
  have hs : p.size ≤ p.divTmpSize := by omega
  have hdigit : ∀ i < p.size, t.tmpArray i < p.base := fun i hi => h.digit i (by omega)
  have hlast := last_lt_iff hdigit
  have hle : val p.base t.tmpArray p.size ≤ X := by
    rw [← h.value]
    exact val_le hs
  unfold DivTmp.exportTo
  split
  · next hge =>
    refine ⟨fun _ => ?_, by simp⟩
    have : ¬ val p.base t.tmpArray p.size < 10 ^ p.total := fun hlt => by
      have := hlast.mpr hlt
      omega
    omega
  · next hlt =>
    split
    · next hany =>
      refine ⟨fun _ => ?_, by simp⟩
      simp only [List.any_eq_true, List.mem_range'_1, decide_eq_true_eq] at hany
      obtain ⟨i, ⟨hi, hi'⟩, hne⟩ := hany
      by_contra hX
      refine hne (digit_eq_zero_of_val_lt (m := p.size) (n := p.divTmpSize) (B := p.base) ?_ hi (by omega) Params.base_pos)
      rw [h.value]
      exact Nat.lt_of_lt_of_le (Nat.not_le.mp hX) Params.pow_total_le
    · next hnone =>
      refine ⟨by simp, ?_⟩
      rintro r hr
      cases hr
      have hzero : ∀ i, p.size ≤ i → i < p.divTmpSize → t.tmpArray i = 0 := fun i hi hi' => by
        by_contra hne
        refine hnone (List.any_eq_true.mpr ⟨i, ?_, decide_eq_true hne⟩)
        rw [List.mem_range'_1]
        omega
      have hX : val p.base t.tmpArray p.size = X := by
        rw [← h.value, val_eq_of_zero hs hzero]
      refine ⟨fun i hi => ?_, ?_, ?_⟩
      · dsimp only
        rw [if_pos hi]
        exact hdigit i hi
      · rw [← hX]
        exact val_congr fun i hi => if_pos hi
      · rw [← hX]
        exact hlast.mp (by omega)

end UnixCommons.Generics
