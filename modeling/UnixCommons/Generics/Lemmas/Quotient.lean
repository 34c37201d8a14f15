import UnixCommons.Generics.Lemmas.DivTmp

/-!
# 商の一つの要素の補題

見積もりは正しい商を一つしか超えず、超えたときは、引いたときの借りで見つかって足し戻される。
-/

namespace UnixCommons.Generics

open Lib

variable {p : Params} {tmp v : Nat → Nat} {u₀ u₁ u₂ v₁ v₂ P V W index guess high r n i : Nat}

/-! ## 見積もり -/

/-- 窓 `W` の上の三つの要素と、除数 `V` の上の二つの要素。 -/
structure Window (p : Params) (u₀ u₁ u₂ v₁ v₂ P V W : Nat) : Prop where
  u₁_lt : u₁ < p.base
  u₂_lt : u₂ < p.base
  v₁_pos : 0 < v₁
  v₁_lt : v₁ < p.base
  v₂_lt : v₂ < p.base
  dividend_le : ((u₀ * p.base + u₁) * p.base + u₂) * P ≤ W
  dividend_lt : W < ((u₀ * p.base + u₁) * p.base + u₂ + 1) * P
  divisor_le : (v₁ * p.base + v₂) * P ≤ V
  divisor_lt : V < (v₁ * p.base + v₂ + 1) * P
  lt : W < p.base * V

section Estimate

variable (h : Window p u₀ u₁ u₂ v₁ v₂ P V W)
include h

theorem Window.top_lt : (u₀ * p.base + u₁) * p.base + u₂ < (v₁ * p.base + v₂ + 1) * p.base := by
  refine Nat.lt_of_mul_lt_mul_right (a := P) ?_
  calc ((u₀ * p.base + u₁) * p.base + u₂) * P ≤ W := h.dividend_le
    _ < p.base * V := h.lt
    _ ≤ p.base * ((v₁ * p.base + v₂ + 1) * P) := Nat.mul_le_mul_left _ (Nat.le_of_lt h.divisor_lt)
    _ = (v₁ * p.base + v₂ + 1) * p.base * P := by ring

theorem Window.u₀_le : u₀ ≤ v₁ := by
  have h1 := h.top_lt
  have h2 := h.v₂_lt
  by_contra hgt
  have h3 : (v₁ + 1) * p.base ≤ u₀ * p.base := Nat.mul_le_mul_right _ (by omega)
  have h4 : (v₁ * p.base + v₂ + 1) * p.base ≤ (u₀ * p.base + u₁) * p.base := by
    refine Nat.mul_le_mul_right _ ?_
    rw [Nat.succ_mul] at h3
    omega
  omega

theorem Window.first_guess {q : Nat} (hq : q * v₁ + r = u₀ * p.base + u₁) (hr : r < v₁) : W < (q + 1) * V := by
  refine lt_mul_of_top_lt (P := p.base * P) (u := u₀ * p.base + u₁) (v := v₁) ?_ ?_ ?_
  · refine Nat.lt_of_lt_of_le h.dividend_lt ?_
    rw [← Nat.mul_assoc]
    refine Nat.mul_le_mul_right _ ?_
    have := h.u₂_lt
    rw [Nat.succ_mul]
    omega
  · refine Nat.le_trans ?_ h.divisor_le
    rw [← Nat.mul_assoc]
    exact Nat.mul_le_mul_right _ (Nat.le_add_right _ _)
  · rw [Nat.succ_mul]
    omega

theorem Window.decrement {q : Nat} (hq : (u₀ * p.base + u₁) * p.base + u₂ < q * (v₁ * p.base + v₂)) : W < q * V :=
  lt_mul_of_top_lt h.dividend_lt h.divisor_le hq

theorem Window.accepted {q : Nat} (hq : q * (v₁ * p.base + v₂) ≤ (u₀ * p.base + u₁) * p.base + u₂) :
    q ≤ p.base ∧ (q < p.base → q * V ≤ W + V) := by
  have hBV : p.base ≤ v₁ * p.base + v₂ :=
    Nat.le_trans (Nat.le_mul_of_pos_left _ h.v₁_pos) (Nat.le_add_right _ _)
  constructor
  · by_contra hgt
    have h1 : (p.base + 1) * (v₁ * p.base + v₂) ≤ q * (v₁ * p.base + v₂) := Nat.mul_le_mul_right _ (by omega)
    have h2 := h.top_lt
    rw [Nat.succ_mul] at h1 h2
    rw [Nat.mul_comm p.base] at h1
    omega
  · intro hlt
    refine mul_le_add_of_top_le h.dividend_le h.divisor_lt ?_ hq
    exact Nat.le_trans (Nat.mul_le_mul_right _ (Nat.le_trans (Nat.le_of_lt hlt) hBV)) h.divisor_le

theorem guessLoop_spec (hindex : 2 ≤ index) (hu₂ : tmp (index - 2) = u₂) (n : Nat) (hn : 0 < n)
    (hfuel : p.base + 1 ≤ r + n) (hguess : guess < p.base) (hhigh : high ≤ 1) (hr : r < 2 * p.base)
    (hq : (high * p.base + guess) * v₁ + r = u₀ * p.base + u₁) (hW : W < (high * p.base + guess + 1) * V) :
    Returns (guessLoop p index v₁ v₂ tmp n guess high r)
      (fun q => q < p.base ∧ W < (q + 1) * V ∧ q * V ≤ W + V) fun _ => False := by
  have hbase : p.element.base = p.base := rfl
  have hu₀ := h.u₀_le
  have hv₁ := h.v₁_lt
  have hv₂ := h.v₂_lt
  have hu₁ := h.u₁_lt
  have hpos := h.v₁_pos
  -- 見積もりと三つの要素の比較は、`r` と `v₂` との積の比較である。
  have hcompare : ∀ q r, q * v₁ + r = u₀ * p.base + u₁ →
      (q * (v₁ * p.base + v₂) ≤ (u₀ * p.base + u₁) * p.base + u₂ ↔ q * v₂ ≤ r * p.base + u₂) := by
    intro q r hq
    rw [← hq, show q * (v₁ * p.base + v₂) = q * v₁ * p.base + q * v₂ by ring, Nat.add_mul]
    omega
  induction n generalizing guess high r with
  | zero => omega
  | succ n ih =>
      unfold guessLoop
      refine Returns.ite (fun hlt => Returns.bind ?_) (fun hge => Returns.pure ?_)
      · rw [assert, if_pos (decide_eq_true hindex)]
        refine Returns.pure ?_
        obtain ⟨h1, h2, h3⟩ := Element.mulElements_spec (e := p.element) hv₂ hguess
        rw [hbase] at h1 h2 h3
        generalize p.element.mulElements v₂ guess = m at h1 h2 h3
        obtain ⟨minor, major⟩ := m
        dsimp only at h1 h2 h3 ⊢
        have hle : high * v₂ ≤ v₂ := by
          have := Nat.mul_le_mul_right v₂ hhigh
          omega
        have hmajor : p.element.add major (high * v₂) = major + high * v₂ := Element.cast_of_lt_base (by omega)
        have hradd : p.element.add r v₁ = r + v₁ := Element.cast_of_lt_base (by omega)
        have hprod : (high * p.base + guess) * v₂ = (major + high * v₂) * p.base + minor := by
          rw [Nat.add_mul, Nat.mul_comm guess, ← h1]
          ring
        rw [hmajor, hradd, hu₂]
        have hcond : (major + high * v₂ < r ∨ major + high * v₂ = r ∧ minor ≤ u₂) ↔
            (high * p.base + guess) * v₂ ≤ r * p.base + u₂ := by
          rw [hprod]
          have hu := h.u₂_lt
          constructor
          · rintro (hl | ⟨hl, hm⟩)
            · have := Nat.mul_le_mul_right p.base (Nat.succ_le_of_lt hl)
              rw [Nat.succ_mul] at this
              omega
            · rw [hl]
              omega
          · intro hl
            rcases Nat.lt_trichotomy (major + high * v₂) r with hc | hc | hc
            · exact Or.inl hc
            · rw [hc] at hl
              exact Or.inr ⟨hc, by omega⟩
            · have := Nat.mul_le_mul_right p.base (Nat.succ_le_of_lt hc)
              rw [Nat.succ_mul] at this
              omega
        refine Returns.ite (fun hbreak => Returns.pure ?_) (fun hnot => ?_)
        · -- 見積もりが受け入れられる。
          have hacc := h.accepted ((hcompare _ r hq).mpr (hcond.mp hbreak.1))
          have hzero : high = 0 := by
            rcases Nat.eq_zero_or_pos high with h0 | h0
            · exact h0
            · have h1 : high = 1 := by omega
              subst h1
              have := hbreak.2
              omega
          subst hzero
          rw [Nat.zero_mul, Nat.zero_add] at hacc hW
          exact ⟨hguess, hW, hacc.2 hguess⟩
        · -- 見積もりを一つ減らす。
          have hdec : 0 < high * p.base + guess ∧ W < (high * p.base + guess) * V := by
            by_cases hc : (high * p.base + guess) * v₂ ≤ r * p.base + u₂
            · have hno : high = 1 ∧ guess = 0 := by
                have := fun hx => hnot ⟨hcond.mpr hc, hx⟩
                omega
              obtain ⟨rfl, rfl⟩ := hno
              rw [Nat.one_mul, Nat.add_zero]
              exact ⟨by omega, h.lt⟩
            · refine ⟨?_, h.decrement (Nat.not_le.mp (mt (hcompare _ r hq).mp hc))⟩
              rcases Nat.eq_zero_or_pos (high * p.base + guess) with h0 | h0
              · rw [h0] at hc
                omega
              · exact h0
          obtain ⟨hqpos, hWdec⟩ := hdec
          refine Returns.ite (fun hz => ?_) (fun hz => ?_)
          · subst hz
            have h1 : high = 1 := by
              rcases Nat.eq_zero_or_pos high with h0 | h0
              · subst h0
                omega
              · omega
            subst h1
            have hsub : p.element.sub 1 1 = 0 := Element.sub_of_le_base (Nat.le_refl 1) (by omega)
            rw [hsub]
            have hpred : 0 * p.base + (p.base - 1) + 1 = 1 * p.base + 0 := by omega
            refine ih (by omega) (by omega) (by omega) (by omega) (by omega) ?_ ?_
            · rw [← hq, ← hpred]
              ring
            · rw [hpred]
              exact hWdec
          · have hpred : high * p.base + (guess - 1) + 1 = high * p.base + guess := by omega
            refine ih (by omega) (by omega) (by omega) hhigh (by omega) ?_ ?_
            · rw [← hq, ← hpred]
              ring
            · rw [hpred]
              exact hWdec
      · -- 余りが一つの要素を超えれば、見積もりは大きすぎない。
        have hr' : p.base ≤ r := by omega
        have hzero : high = 0 := by
          rcases Nat.eq_zero_or_pos high with h0 | h0
          · exact h0
          · exfalso
            have h1 : p.base * v₁ ≤ (high * p.base + guess) * v₁ := by
              refine Nat.mul_le_mul_right _ ?_
              exact Nat.le_trans (Nat.le_mul_of_pos_left _ h0) (Nat.le_add_right _ _)
            have h2 : u₀ * p.base ≤ v₁ * p.base := Nat.mul_le_mul_right _ hu₀
            rw [Nat.mul_comm p.base] at h1
            omega
        subst hzero
        rw [Nat.zero_mul, Nat.zero_add] at hq hW
        have hle : guess * v₂ ≤ r * p.base + u₂ := by
          have h1 : guess * v₂ ≤ p.base * p.base := Nat.mul_le_mul (Nat.le_of_lt hguess) (Nat.le_of_lt hv₂)
          have h2 : p.base * p.base ≤ r * p.base := Nat.mul_le_mul_right _ hr'
          omega
        have hacc := h.accepted ((hcompare _ r hq).mpr hle)
        exact ⟨hguess, hW, hacc.2 hguess⟩

theorem guessNextQuotient_spec (hindex : 2 ≤ index) (hu₀ : tmp index = u₀)
    (hu₁ : tmp (index - 1) = u₁) (hu₂ : tmp (index - 2) = u₂) :
    Returns (guessNextQuotient p index v₁ v₂ tmp)
      (fun q => q < p.base ∧ W < (q + 1) * V ∧ q * V ≤ W + V) fun _ => False := by
  have hbase : p.element.base = p.base := rfl
  have hle := h.u₀_le
  have hv₁ := h.v₁_lt
  have hpos := h.v₁_pos
  unfold guessNextQuotient
  rw [hu₀, hu₁, assert, assert, if_pos (decide_eq_true (by omega)), if_pos (decide_eq_true (Or.inl hle))]
  refine Returns.bind (Returns.pure (Returns.bind (Returns.pure (Returns.ite (fun hge => ?_) (fun hlt => ?_)))))
  · have heq : u₀ = v₁ := by omega
    have hsub : p.element.sub u₀ v₁ = 0 := by
      rw [Element.sub_of_le_base (by omega) (by omega), heq, Nat.sub_self]
    obtain ⟨h1, h2, h3⟩ := Element.divElements_spec (e := p.element) (x := 0) hpos h.u₁_lt (Nat.le_of_lt hv₁)
    rw [hbase] at h2
    rw [hsub]
    generalize p.element.divElements 0 u₁ v₁ = g at h1 h2 h3
    obtain ⟨guess, r⟩ := g
    dsimp only at h1 h2 h3 ⊢
    have hq : (1 * p.base + guess) * v₁ + r = u₀ * p.base + u₁ := by
      rw [heq, Nat.add_mul, Nat.one_mul, Nat.mul_comm guess, Nat.mul_comm p.base]
      omega
    exact guessLoop_spec h hindex hu₂ _ (Nat.succ_pos _) (by omega) h2 (Nat.le_refl 1) (by omega) hq
      (h.first_guess hq h3)
  · obtain ⟨h1, h2, h3⟩ := Element.divElements_spec (e := p.element) (x := u₀) (by omega) h.u₁_lt (Nat.le_of_lt hv₁)
    rw [hbase] at h1 h2
    generalize p.element.divElements u₀ u₁ v₁ = g at h1 h2 h3
    obtain ⟨guess, r⟩ := g
    dsimp only at h1 h2 h3 ⊢
    have hq : (0 * p.base + guess) * v₁ + r = u₀ * p.base + u₁ := by
      rw [h1, Nat.zero_mul, Nat.zero_add, Nat.mul_comm]
    exact guessLoop_spec h hindex hu₂ _ (Nat.succ_pos _) (by omega) h2 (Nat.zero_le 1) (by omega) hq
      (h.first_guess hq h3)

end Estimate

/-! ## 引き算と足し戻し -/

variable {divisor : DivTmp} {x t : Nat}

theorem borrowElement_spec (hx : x < p.base) (ht : t ≤ p.base) :
    (borrowElement p x t).1 + t = x + p.base * (borrowElement p x t).2 ∧ (borrowElement p x t).1 < p.base ∧
      (borrowElement p x t).2 ≤ 1 := by
  have hbase : p.element.base = p.base := rfl
  have hpos := Params.base_pos (p := p)
  unfold borrowElement
  split
  · next hlt =>
    have hsub : p.element.sub p.base t = p.base - t := Element.sub_of_le_base ht (by omega)
    have hadd : p.element.add x (p.base - t) = x + (p.base - t) := Element.cast_of_lt_base (by omega)
    rw [hsub, hadd]
    dsimp only
    omega
  · next hge =>
    have hsub : p.element.sub x t = x - t := Element.sub_of_le_base (by omega) (by omega)
    rw [hsub]
    dsimp only
    omega

/-- `apply_next_quotient` のループの不変条件。 -/
structure ApplyInv (p : Params) (a₀ v : Nat → Nat) (index guess n i : Nat) (s : (Nat → Nat) × Nat × Nat) : Prop where
  digit : ∀ j < n, s.1 (index + j) < p.base
  carry : s.2.1 < p.base
  borrow : s.2.2 ≤ 1
  value : val p.base (fun j => s.1 (index + j)) i + guess * val p.base v i =
    val p.base (fun j => a₀ (index + j)) i + p.base ^ i * (s.2.1 + s.2.2)
  rest : ∀ j, j < index ∨ index + i ≤ j → s.1 j = a₀ j

theorem window_update {y : Nat} : (fun j => Function.update tmp (index + i) y (index + j)) =
    Function.update (fun j => tmp (index + j)) i y := by
  funext j
  by_cases hji : j = i
  · rw [hji, Function.update_self, Function.update_self]
  · rw [Function.update_of_ne (by omega), Function.update_of_ne hji]

theorem ApplyInv.step {a₀ : Nat → Nat} {s : (Nat → Nat) × Nat × Nat} (h : ApplyInv p a₀ v index guess n i s) (hi : i < n)
    (hv : v i < p.base) (hg : guess < p.base) : ApplyInv p a₀ v index guess n (i + 1) (applyBody p index guess v i s) := by
  have hbase : p.element.base = p.base := rfl
  have hb := h.borrow
  obtain ⟨h1, h2, h3⟩ := mulCarry_spec hv hg h.carry
  unfold applyBody
  generalize mulCarry p (v i) guess s.2.1 = m at h1 h2 h3
  obtain ⟨temp, carry⟩ := m
  dsimp only at h1 h2 h3 ⊢
  have hadd : p.element.add temp s.2.2 = temp + s.2.2 := Element.cast_of_lt_base (by omega)
  obtain ⟨h4, h5, h6⟩ := borrowElement_spec (t := temp + s.2.2) (h.digit i hi) (by omega)
  rw [hadd]
  generalize borrowElement p (s.1 (index + i)) (temp + s.2.2) = b at h4 h5 h6
  obtain ⟨y, borrow⟩ := b
  dsimp only at h4 h5 h6 ⊢
  have hwin : ∀ k, val p.base (fun j => Function.update s.1 (index + i) y (index + j)) k =
      val p.base (Function.update (fun j => s.1 (index + j)) i y) k := fun k => by rw [window_update]
  refine ⟨fun j hj => ?_, h3, h6, ?_, fun j hj => ?_⟩
  · have := digits_update (i := i) (n := n) (a := fun j => s.1 (index + j)) h.digit h5 j hj
    rw [← window_update] at this
    exact this
  · dsimp only
    rw [hwin, val_update_succ, val_succ, val_succ, ← h.rest (index + i) (Or.inr (Nat.le_refl _)),
      Nat.mul_add, ← Nat.mul_assoc guess]
    refine borrow_step h.value ?_
    rw [Nat.mul_comm guess, Nat.mul_add]
    omega
  · dsimp only
    rw [Function.update_of_ne (by omega)]
    exact h.rest j (by omega)

theorem applyNextQuotient_spec (hn : divisor.initialSize = n) (hcap : index + n ≤ p.divTmpSize)
    (hd : ∀ j ≤ n, tmp (index + j) < p.base) (hv : ∀ j < n, divisor.tmpArray j < p.base)
    (hg : guess < p.base) : Returns (applyNextQuotient p index guess divisor tmp)
      (fun r => (∀ j ≤ n, r.2 (index + j) < p.base) ∧
        val p.base (fun j => r.2 (index + j)) (n + 1) + guess * val p.base divisor.tmpArray n =
          val p.base (fun j => tmp (index + j)) (n + 1) + p.base ^ (n + 1) * (if r.1 then 1 else 0) ∧
        (∀ j, j < index ∨ index + n < j → r.2 j = tmp j)) fun _ => False := by
  have hbase : p.element.base = p.base := rfl
  have hinv : ApplyInv p tmp divisor.tmpArray index guess n n
      (forUp (applyBody p index guess divisor.tmpArray) n (tmp, 0, 0)) :=
    forUp_invariant _ ⟨fun j hj => hd j (Nat.le_of_lt hj), Params.base_pos, Nat.zero_le 1,
      by simp, fun _ _ => rfl⟩ fun i s hi hs => hs.step hi (hv i hi) hg
  unfold applyNextQuotient
  rw [hn, assert, if_pos (decide_eq_true hcap)]
  refine Returns.bind (Returns.pure ?_)
  dsimp only
  generalize forUp (applyBody p index guess divisor.tmpArray) n (tmp, 0, 0) = s at hinv
  obtain ⟨a, carry, borrow⟩ := s
  obtain ⟨hdigit, hc, hb, hval, hrest⟩ := hinv
  dsimp only at hdigit hc hb hval hrest ⊢
  have htop := hrest (index + n) (Or.inr (Nat.le_refl _))
  have hadd : p.element.add carry borrow = carry + borrow := Element.cast_of_lt_base (by omega)
  obtain ⟨h4, h5, h6⟩ := borrowElement_spec (p := p) (x := a (index + n)) (t := carry + borrow)
    (htop ▸ hd n (Nat.le_refl n)) (by omega)
  rw [hadd]
  generalize borrowElement p (a (index + n)) (carry + borrow) = b at h4 h5 h6
  rw [htop] at h4
  obtain ⟨y, last⟩ := b
  dsimp only at h4 h5 h6 ⊢
  refine Returns.pure ⟨fun j hj => ?_, ?_, fun j hj => ?_⟩
  · dsimp only
    by_cases hjn : j = n
    · rw [hjn, Function.update_self]
      exact h5
    · rw [Function.update_of_ne (by omega)]
      exact hdigit j (by omega)
  · dsimp only
    rw [window_update, val_update_succ, val_succ]
    have hlast : (if decide (last ≠ 0) = true then 1 else 0) = last := by
      simp only [decide_eq_true_eq]
      split <;> omega
    rw [hlast]
    have hstep := borrow_step (y := 0) hval (by rw [Nat.add_zero]; exact h4)
    rw [Nat.zero_mul, Nat.add_zero] at hstep
    exact hstep
  · dsimp only
    rw [Function.update_of_ne (by omega)]
    exact hrest j (by omega)

structure FixInv (p : Params) (a₀ v : Nat → Nat) (index n i : Nat) (s : (Nat → Nat) × Nat) : Prop where
  digit : ∀ j < n, s.1 (index + j) < p.base
  carry : s.2 ≤ 1
  value : val p.base (fun j => s.1 (index + j)) i + p.base ^ i * s.2 =
    val p.base (fun j => a₀ (index + j)) i + val p.base v i
  rest : ∀ j, j < index ∨ index + i ≤ j → s.1 j = a₀ j

theorem FixInv.step {a₀ : Nat → Nat} {s : (Nat → Nat) × Nat} (h : FixInv p a₀ v index n i s)
    (hi : i < n) (hv : v i < p.base) : FixInv p a₀ v index n (i + 1) (fixBody p index v i s) := by
  have hbase : p.element.base = p.base := rfl
  have hc := h.carry
  have hx := h.digit i hi
  have hcast : p.element.cast (s.1 (index + i) + v i + s.2) = s.1 (index + i) + v i + s.2 :=
    Element.cast_of_lt_base (by omega)
  -- 新しい要素と繰り上がりが決まれば、残りは二つの枝で同じである。
  have hmain : ∀ y c, c ≤ 1 → y < p.base → y + p.base * c = s.1 (index + i) + v i + s.2 →
      FixInv p a₀ v index n (i + 1) (Function.update s.1 (index + i) y, c) := by
    intro y c hc' hy heq
    refine ⟨fun j hj => ?_, hc', ?_, fun j hj => ?_⟩
    · have := digits_update (i := i) (n := n) (a := fun j => s.1 (index + j)) h.digit hy j hj
      rw [← window_update] at this
      exact this
    · dsimp only
      rw [window_update, val_update_succ, val_succ, val_succ, carry_step h.value heq,
        ← h.rest (index + i) (Or.inr (Nat.le_refl _))]
      ring
    · dsimp only
      rw [Function.update_of_ne (by omega)]
      exact h.rest j (by omega)
  unfold fixBody
  rw [hcast]
  dsimp only
  split
  · next hge =>
    have hsub : p.element.sub (s.1 (index + i) + v i + s.2) p.base = s.1 (index + i) + v i + s.2 - p.base :=
      Element.sub_of_le_base hge (by omega)
    rw [hsub]
    exact hmain _ 1 (Nat.le_refl 1) (by omega) (by omega)
  · next hlt => exact hmain _ 0 (Nat.zero_le 1) (by omega) (by omega)

theorem fixNextQuotient_spec (hn : divisor.initialSize = n) (hd : ∀ j ≤ n, tmp (index + j) < p.base)
    (hv : ∀ j < n, divisor.tmpArray j < p.base) (hr : r < p.base ^ n)
    (hval : val p.base (fun j => tmp (index + j)) (n + 1) + val p.base divisor.tmpArray n = r + p.base ^ (n + 1)) :
    (∀ j ≤ n, fixNextQuotient p index divisor tmp (index + j) < p.base) ∧
      val p.base (fun j => fixNextQuotient p index divisor tmp (index + j)) (n + 1) = r ∧
      (∀ j, j < index ∨ index + n < j → fixNextQuotient p index divisor tmp j = tmp j) := by
  have hbase : p.element.base = p.base := rfl
  have hpos := Params.base_pos (p := p)
  have hinv : FixInv p tmp divisor.tmpArray index n n (forUp (fixBody p index divisor.tmpArray) n (tmp, 0)) :=
    forUp_invariant _ ⟨fun j hj => hd j (Nat.le_of_lt hj), Nat.zero_le 1, by simp, fun _ _ => rfl⟩
      fun i s hi hs => hs.step hi (hv i hi)
  unfold fixNextQuotient
  rw [hn]
  generalize forUp (fixBody p index divisor.tmpArray) n (tmp, 0) = s at hinv
  obtain ⟨a, carry⟩ := s
  obtain ⟨hdigit, hc, hvalue, hrest⟩ := hinv
  dsimp only at hdigit hc hvalue hrest ⊢
  have htop := hrest (index + n) (Or.inr (Nat.le_refl _))
  have hlow := val_lt hdigit
  have hd₀ := hd n (Nat.le_refl n)
  rw [val_succ] at hval
  have hsum : val p.base (fun j => a (index + j)) n + p.base ^ n * (carry + tmp (index + n)) = r + p.base ^ n * p.base := by
    rw [← Nat.pow_succ, ← hval, Nat.mul_add, Nat.mul_comm (p.base ^ n) (tmp (index + n))]
    omega
  have hcarry : carry + tmp (index + n) = p.base := by
    have h1 := congrArg (· / p.base ^ n) hsum
    simp only [Nat.add_mul_div_left _ _ (Nat.pow_pos hpos), Nat.div_eq_of_lt hlow, Nat.div_eq_of_lt hr] at h1
    omega
  have hrem : val p.base (fun j => a (index + j)) n = r := by
    rw [hcarry] at hsum
    omega
  have hzero : p.element.sub (a (index + n)) (p.element.sub p.base carry) = 0 := by
    rw [htop, Element.sub_of_le_base (x := p.base) (y := carry) (by omega) (by omega),
      Element.sub_of_le_base (by omega) (by omega)]
    omega
  rw [hzero]
  refine ⟨fun j hj => ?_, ?_, fun j hj => ?_⟩
  · by_cases hjn : j = n
    · rw [hjn, Function.update_self]
      exact hpos
    · rw [Function.update_of_ne (by omega)]
      exact hdigit j (by omega)
  · rw [window_update, val_update_succ, hrem, Nat.zero_mul, Nat.add_zero]
  · rw [Function.update_of_ne (by omega)]
    exact hrest j (by omega)

theorem val_top {a : Nat → Nat} {k : Nat} : val p.base a (k + 2) =
    val p.base a k + (a (k + 1) * p.base + a k) * p.base ^ k := by
  rw [val_succ, val_succ, Nat.pow_succ]
  ring

theorem nextQuotient_spec (hn : divisor.initialSize = n) (hn₂ : 2 ≤ n)
    (hcap : index + n ≤ p.divTmpSize) (hd : ∀ j ≤ n, tmp (index + j) < p.base)
    (hv : ∀ j < n, divisor.tmpArray j < p.base) (hmax : 0 < divisor.tmpArray (n - 1))
    (hlt : val p.base (fun j => tmp (index + j)) (n + 1) < p.base * val p.base divisor.tmpArray n) :
    Returns (nextQuotient p index (divisor.tmpArray (n - 1)) (divisor.tmpArray (n - 2)) divisor tmp)
      (fun r => r.1 < p.base ∧ (∀ j ≤ n, r.2 (index + j) < p.base) ∧
        val p.base (fun j => tmp (index + j)) (n + 1) =
          r.1 * val p.base divisor.tmpArray n + val p.base (fun j => r.2 (index + j)) (n + 1) ∧
        val p.base (fun j => r.2 (index + j)) (n + 1) < val p.base divisor.tmpArray n ∧
        (∀ j, j < index ∨ index + n < j → r.2 j = tmp j)) fun _ => False := by
  obtain ⟨k, rfl⟩ : ∃ k, n = k + 2 := ⟨n - 2, by omega⟩
  have hVlt := val_lt hv
  have hlowv := val_lt (n := k) fun j hj => hv j (by omega)
  have hloww := val_lt (B := p.base) (a := fun j => tmp (index + j)) (n := k) fun j hj => hd j (by omega)
  have hV := val_top (p := p) (a := divisor.tmpArray) (k := k)
  have hW : val p.base (fun j => tmp (index + j)) (k + 2 + 1) = val p.base (fun j => tmp (index + j)) k +
      ((tmp (index + (k + 2)) * p.base + tmp (index + (k + 1))) * p.base + tmp (index + k)) * p.base ^ k := by
    rw [val_succ, val_top, Nat.pow_add]
    ring
  have hwindow : Window p (tmp (index + (k + 2))) (tmp (index + (k + 1))) (tmp (index + k)) (divisor.tmpArray (k + 1))
      (divisor.tmpArray k) (p.base ^ k) (val p.base divisor.tmpArray (k + 2))
      (val p.base (fun j => tmp (index + j)) (k + 2 + 1)) := by
    refine ⟨hd _ (by omega), hd _ (by omega), hmax, hv _ (by omega), hv _ (by omega), ?_, ?_, ?_, ?_, hlt⟩
    · rw [hW]
      omega
    · rw [hW, Nat.succ_mul]
      omega
    · rw [hV]
      omega
    · rw [hV, Nat.succ_mul]
      omega
  have hguess := guessNextQuotient_spec hwindow (show 2 ≤ index + (k + 2) by omega) rfl rfl rfl
  unfold nextQuotient
  rw [hn]
  refine Returns.bind (hguess.mono (fun q hq => ?_) fun _ hF => hF)
  obtain ⟨hqlt, hup, hle⟩ := hq
  refine Returns.bind ((applyNextQuotient_spec hn hcap hd hv hqlt).mono ?_ fun _ hF => hF)
  rintro ⟨borrow, a⟩ ⟨hdigit, hvalue, hrest⟩
  replace hvalue : val p.base (fun j => a (index + j)) (k + 2 + 1) + q * val p.base divisor.tmpArray (k + 2) =
      val p.base (fun j => tmp (index + j)) (k + 2 + 1) + p.base ^ (k + 2 + 1) * (if borrow then 1 else 0) := hvalue
  dsimp only at hdigit hrest ⊢
  have hwlt := val_lt (B := p.base) (a := fun j => a (index + j)) (n := k + 2 + 1) fun j hj => hdigit j (by omega)
  refine Returns.ite (fun hb => Returns.pure ?_) (fun hb => Returns.pure ?_)
  · -- 借りが残れば、見積もりは一つ大きすぎる。
    rw [if_pos hb, Nat.mul_one] at hvalue
    obtain ⟨r, hr, hWr, hq0⟩ := exists_remainder_of_borrow
      (W := val p.base (fun j => tmp (index + j)) (k + 2 + 1)) (by omega) hle
    have hmul : q * val p.base divisor.tmpArray (k + 2) =
        (q - 1) * val p.base divisor.tmpArray (k + 2) + val p.base divisor.tmpArray (k + 2) := by
      rw [← Nat.succ_mul, Nat.succ_eq_add_one, Nat.sub_add_cancel hq0]
    obtain ⟨h1, h2, h3⟩ := fixNextQuotient_spec (r := r) hn hdigit hv (by omega) (by omega)
    have hsub : p.element.sub q 1 = q - 1 :=
      Element.sub_of_le_base hq0 (by rw [show p.element.base = p.base from rfl]; omega)
    rw [hsub]
    refine ⟨by dsimp only; omega, h1, ?_, ?_, fun j hj => ?_⟩
    · dsimp only
      rw [h2]
      exact hWr
    · dsimp only
      rw [h2]
      exact hr
    · dsimp only
      rw [h3 j hj]
      exact hrest j hj
  · rw [if_neg hb, Nat.mul_zero] at hvalue
    rw [Nat.succ_mul] at hup
    have hrem : val p.base (fun j => tmp (index + j)) (k + 2 + 1) =
        q * val p.base divisor.tmpArray (k + 2) + val p.base (fun j => a (index + j)) (k + 2 + 1) := by omega
    have hsmall : val p.base (fun j => a (index + j)) (k + 2 + 1) < val p.base divisor.tmpArray (k + 2) := by omega
    exact ⟨hqlt, hdigit, hrem, hsmall, hrest⟩

end UnixCommons.Generics
