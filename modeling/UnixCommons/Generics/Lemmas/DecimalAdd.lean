import UnixCommons.Generics.Lemmas.Decimal

/-!
# 足し算と引き算の補題

ループの `i` 回目は、番地 `i` の要素だけを読み、その後に `target` の番地 `i` へ書く。
-/

namespace UnixCommons.Generics

open Lib

variable {p : Params} {ι : Type} {m m₀ m' : ι → Decimal} {summand1 summand2 target : ι} {i k : Nat}

/-- 置き場の物のうち、`target` の番地 `i` より下の要素だけが変わっている。 -/
structure Frame (target : ι) (i : Nat) (m₀ m : ι → Decimal) : Prop where
  others : ∀ x, x ≠ target → m x = m₀ x
  negative : ∀ x, (m x).negative = (m₀ x).negative
  above : ∀ x j, i ≤ j → (m x).array j = (m₀ x).array j

theorem Frame.refl : Frame target i m m := ⟨fun _ _ => rfl, fun _ => rfl, fun _ _ _ => rfl⟩

theorem Frame.mono {j : Nat} (h : Frame target i m₀ m) (hij : i ≤ j) : Frame target j m₀ m :=
  ⟨h.others, h.negative, fun x k hk => h.above x k (Nat.le_trans hij hk)⟩

variable [DecidableEq ι]

@[simp] theorem setArray_self {a : Nat → Nat} : (setArray target a m target).array = a := by
  simp [setArray]

@[simp] theorem setElement_self {x : Nat} :
    (setElement target i x m target).array = Function.update (m target).array i x := by
  simp [setElement]

theorem Frame.setArray {a : Nat → Nat} (h : Frame target i m₀ m)
    (ha : ∀ j, i ≤ j → a j = (m target).array j) : Frame target i m₀ (setArray target a m) := by
  unfold Generics.setArray
  refine ⟨fun x hx => ?_, fun x => ?_, fun x j hj => ?_⟩
  · rw [Function.update_of_ne hx]
    exact h.others x hx
  · by_cases hx : x = target
    · subst hx
      rw [Function.update_self]
      exact h.negative x
    · rw [Function.update_of_ne hx]
      exact h.negative x
  · by_cases hx : x = target
    · subst hx
      rw [Function.update_self]
      exact (ha j hj).trans (h.above x j hj)
    · rw [Function.update_of_ne hx]
      exact h.above x j hj

theorem Frame.setElement {x : Nat} (h : Frame target i m₀ m) : Frame target (i + 1) m₀ (setElement target i x m) :=
  (h.mono (Nat.le_succ i)).setArray fun _ hj => Function.update_of_ne (by omega) _ _

theorem digits_setElement {x : Nat} (h : ∀ j < i, (m target).array j < p.base) (hx : x < p.base) :
    ∀ j < i + 1, (setElement target i x m target).array j < p.base := by
  intro j hj
  rw [setElement_self]
  by_cases hji : j = i
  · subst hji
    rw [Function.update_self]
    exact hx
  · rw [Function.update_of_ne hji]
    exact h j (by omega)

/-! ## `internal_add_` -/

structure AddInv (p : Params) (summand1 summand2 target : ι) (m₀ : ι → Decimal) (i : Nat)
    (s : (ι → Decimal) × Nat) : Prop where
  frame : Frame target i m₀ s.1
  digit : ∀ j < i, (s.1 target).array j < p.base
  carry : s.2 ≤ 1
  sum : val p.base (s.1 target).array i + p.base ^ i * s.2 =
    val p.base (m₀ summand1).array i + val p.base (m₀ summand2).array i

theorem AddInv.step {s : (ι → Decimal) × Nat} (h : AddInv p summand1 summand2 target m₀ i s)
    (h1 : (m₀ summand1).array i < p.base) (h2 : (m₀ summand2).array i < p.base) :
    AddInv p summand1 summand2 target m₀ (i + 1) (internalAddBody p summand1 summand2 target i s) := by
  obtain ⟨m, c⟩ := s
  have hc : c ≤ 1 := h.carry
  have hnum : p.element.cast ((m summand1).array i + (m summand2).array i + c) =
      (m₀ summand1).array i + (m₀ summand2).array i + c := by
    rw [h.frame.above summand1 i (Nat.le_refl i), h.frame.above summand2 i (Nat.le_refl i)]
    refine Element.cast_of_lt_base ?_
    rw [show p.element.base = p.base from rfl]
    omega
  -- 書いた要素 `d` と繰り上がり `c'` は、二つの要素と前の繰り上がりの和を分けたものである。
  have hwrite : ∀ d c', d < p.base → c' ≤ 1 → d + p.base * c' = (m₀ summand1).array i + (m₀ summand2).array i + c →
      AddInv p summand1 summand2 target m₀ (i + 1) (setElement target i d m, c') := by
    intro d c' hd hc' heq
    refine ⟨h.frame.setElement, digits_setElement h.digit hd, hc', ?_⟩
    rw [setElement_self, val_update_succ, carry_step h.sum heq, val_succ, val_succ]
    ring
  unfold internalAddBody
  dsimp only
  rw [hnum]
  split
  · next hge =>
    rw [Element.sub_of_le_base hge (by rw [show p.element.base = p.base from rfl]; omega)]
    exact hwrite _ 1 (by omega) (Nat.le_refl 1) (by omega)
  · next hlt => exact hwrite _ 0 (by omega) (Nat.zero_le 1) (by omega)

theorem internalAdd_inv (target : ι) (h1 : ∀ i < p.size, (m summand1).array i < p.base)
    (h2 : ∀ i < p.size, (m summand2).array i < p.base) :
    AddInv p summand1 summand2 target m p.size (forUp (internalAddBody p summand1 summand2 target) p.size (m, 0)) :=
  forUp_invariant (internalAddBody p summand1 summand2 target)
    (P := AddInv p summand1 summand2 target m) (n := p.size) (s := (m, 0))
    ⟨Frame.refl, by simp, Nat.zero_le 1, by simp⟩ fun i _ hi h => h.step (h1 i hi) (h2 i hi)

theorem internalAdd_carry (target : ι) (h1 : ∀ i < p.size, (m summand1).array i < p.base)
    (h2 : ∀ i < p.size, (m summand2).array i < p.base) :
    ∃ carry ≤ 1, ((internalAdd p summand1 summand2 target m).2 target).magnitude p + p.base ^
      p.size * carry = (m summand1).magnitude p + (m summand2).magnitude p := by
  have hi := internalAdd_inv target h1 h2
  exact ⟨_, hi.carry, hi.sum⟩

theorem internalAdd_spec (target : ι) (h1 : ∀ i < p.size, (m summand1).array i < p.base)
    (h2 : ∀ i < p.size, (m summand2).array i < p.base) :
    Frame target p.size m (internalAdd p summand1 summand2 target m).2 ∧
      (∀ i < p.size, ((internalAdd p summand1 summand2 target m).2 target).array i < p.base) ∧
      ((internalAdd p summand1 summand2 target m).1 = true ↔
        10 ^ p.total ≤ (m summand1).magnitude p + (m summand2).magnitude p) ∧
      ((internalAdd p summand1 summand2 target m).1 = false →
        ((internalAdd p summand1 summand2 target m).2 target).magnitude p =
          (m summand1).magnitude p + (m summand2).magnitude p) := by
  obtain ⟨hframe, hdigit, hcarry, hsum⟩ := internalAdd_inv target h1 h2
  unfold internalAdd
  generalize forUp (internalAddBody p summand1 summand2 target) p.size (m, 0) = s at hframe hdigit hcarry hsum
  obtain ⟨m', c⟩ := s
  have hlast := last_lt_iff hdigit
  have hle := Params.pow_total_le (p := p)
  dsimp only at hcarry hsum hlast ⊢
  refine ⟨hframe, hdigit, ?_, fun hb => ?_⟩
  · unfold Decimal.magnitude
    rw [← hsum]
    rcases Nat.le_one_iff_eq_zero_or_eq_one.mp hcarry with rfl | rfl
    · simp only [Nat.mul_zero, Nat.add_zero]
      rw [← Nat.not_lt, ← hlast]
      simp
    · simp only [Nat.mul_one]
      simp
      omega
  · have hc : c = 0 := by
      by_contra hc
      simp [hc] at hb
    unfold Decimal.magnitude
    rw [← hsum, hc, Nat.mul_zero, Nat.add_zero]

/-! ## `internal_sub_` -/

variable {minuend subtrahend : ι}

structure SubInv (p : Params) (minuend subtrahend target : ι) (m₀ : ι → Decimal) (i : Nat)
    (s : (ι → Decimal) × Nat) : Prop where
  frame : Frame target i m₀ s.1
  digit : ∀ j < i, (s.1 target).array j < p.base
  borrow : s.2 ≤ 1
  difference : val p.base (s.1 target).array i + val p.base (m₀ subtrahend).array i =
    val p.base (m₀ minuend).array i + p.base ^ i * s.2

theorem SubInv.step {s : (ι → Decimal) × Nat} (h : SubInv p minuend subtrahend target m₀ i s)
    (h1 : (m₀ minuend).array i < p.base) (h2 : (m₀ subtrahend).array i < p.base) :
    SubInv p minuend subtrahend target m₀ (i + 1) (internalSubBody p minuend subtrahend target i s) := by
  obtain ⟨m, c⟩ := s
  have hc : c ≤ 1 := h.borrow
  have hbase : p.element.base = p.base := rfl
  have hreal : p.element.cast ((m subtrahend).array i + c) = (m₀ subtrahend).array i + c := by
    rw [h.frame.above subtrahend i (Nat.le_refl i)]
    exact Element.cast_of_lt_base (by omega)
  have hwrite : ∀ d c', d < p.base → c' ≤ 1 →
      d + (m₀ subtrahend).array i + c = (m₀ minuend).array i + p.base * c' →
      SubInv p minuend subtrahend target m₀ (i + 1) (setElement target i d m, c') := by
    intro d c' hd hc' heq
    refine ⟨h.frame.setElement, digits_setElement h.digit hd, hc', ?_⟩
    rw [setElement_self, val_update_succ, val_succ, val_succ]
    exact borrow_step h.difference heq
  unfold internalSubBody
  dsimp only
  rw [hreal, h.frame.above minuend i (Nat.le_refl i)]
  split
  · next hlt =>
    rw [Element.sub_of_le_base (Nat.le_of_lt hlt) (by omega), Element.sub_of_le_base (by omega) (by omega)]
    exact hwrite _ 1 (by omega) (Nat.le_refl 1) (by omega)
  · next hge =>
    rw [Element.sub_of_le_base (by omega) (by omega)]
    exact hwrite _ 0 (by omega) (Nat.zero_le 1) (by omega)

theorem internalSub_spec (h1 : ∀ i < p.size, (m minuend).array i < p.base)
    (h2 : ∀ i < p.size, (m subtrahend).array i < p.base) (hk : k < p.size)
    (habove : ∀ j, k + 1 ≤ j → j < p.size → (m minuend).array j = (m subtrahend).array j)
    (hle : (m subtrahend).magnitude p ≤ (m minuend).magnitude p) :
    Returns (internalSub p minuend subtrahend target k m)
      (fun m' => Frame target p.size m m' ∧ (∀ i < p.size, (m' target).array i < p.base) ∧
        (m' target).magnitude p + (m subtrahend).magnitude p = (m minuend).magnitude p)
      (fun _ => False) := by
  have hi := forUp_invariant (internalSubBody p minuend subtrahend target)
    (P := SubInv p minuend subtrahend target m) (n := k + 1) (s := (m, 0)) ⟨Frame.refl,
    by simp, Nat.zero_le 1, by simp⟩ fun i s hi h => h.step (h1 i (by omega)) (h2 i (by omega))
  unfold internalSub
  generalize forUp (internalSubBody p minuend subtrahend target) (k + 1) (m, 0) = s at hi
  obtain ⟨m', c⟩ := s
  obtain ⟨hframe, hdigit, hborrow, hdiff⟩ := hi
  have hsplit := val_add_eq_of_eq_above (B := p.base) (Nat.succ_le_of_lt hk) habove
  dsimp only at hborrow hdiff hframe hdigit ⊢
  unfold Decimal.magnitude at hle ⊢
  simp only [Nat.succ_eq_add_one] at hsplit
  -- 上の要素が等しいので、借りが残れば引かれる数が小さいことになる。
  have hlt := val_lt hdigit
  have hc : c = 0 := by
    rcases Nat.le_one_iff_eq_zero_or_eq_one.mp hborrow with h | h
    · exact h
    · subst h
      simp only [Nat.mul_one] at hdiff
      omega
  subst hc
  rw [if_pos hk]
  refine Returns.bind ?_
  unfold assert
  simp only [decide_true, if_true]
  refine Returns.pure (Returns.pure ⟨(hframe.mono hk).setArray fun j hj => ?_, fun j hj => ?_, ?_⟩)
  · simp only [fill]
    rw [if_neg (by omega)]
  · rw [setArray_self]
    simp only [fill]
    split
    · exact Params.base_pos
    · next hn => exact hdigit j (by omega)
  · rw [setArray_self, val_eq_of_zero (m := k + 1) hk fun j hj hj' => by simp only [fill]; rw [if_pos ⟨hj, hj'⟩],
      val_congr (b := (m' target).array) fun j hj => by simp only [fill]; rw [if_neg (by omega)]]
    simp only [Nat.mul_zero] at hdiff
    omega

/-! ## `add` と `sub` -/

theorem setNegative_value {b : Bool} : (setNegative target b m target).value p =
    if b then -((m target).magnitude p : Int) else (m target).magnitude p := by
  simp [setNegative, Decimal.value, Decimal.magnitude]

theorem setNegative_valid {b : Bool} (h : (m target).Valid p) : (setNegative target b m target).Valid p := by
  obtain ⟨h1, h2⟩ := h
  simp only [setNegative, Function.update_self]
  exact ⟨h1, h2⟩

/-- 終わった置き場では、`target` だけが変わり、その値は `v` である。 -/
structure Stored (p : Params) (target : ι) (m m' : ι → Decimal) (v : Int) : Prop where
  others : ∀ x, x ≠ target → m' x = m x
  valid : (m' target).Valid p
  value : (m' target).value p = v

theorem Frame.stored {v : Int} {b : Bool} (h : Frame target i m m')
    (hd : ∀ i < p.size, (m' target).array i < p.base) (hm : (m' target).magnitude p < 10 ^ p.total)
    (hv : (if b then -((m' target).magnitude p : Int) else (m' target).magnitude p) = v) :
    Stored p target m (setNegative target b m') v := by
  refine ⟨fun x hx => ?_, setNegative_valid (Decimal.valid_of_magnitude_lt hd hm), setNegative_value.trans hv⟩
  rw [setNegative, Function.update_of_ne hx]
  exact h.others x hx

theorem sum_part (sign : (ι → Decimal) → Bool) (h1 : (m summand1).Valid p)
    (h2 : (m summand2).Valid p) (hs : ∀ m', Frame target p.size m m' → sign m' = sign m) :
    Spec (do
        set (internalAdd p summand1 summand2 target m).2
        if (internalAdd p summand1 summand2 target m).1 = true then throw Fault.overflow
        else modify fun m => setNegative target (sign m) m : EStateM Fault (ι → Decimal) PUnit) m
      (fun _ m' => Stored p target m m' (if sign m then -((m summand1).magnitude p + (m summand2).magnitude p : Int)
        else (m summand1).magnitude p + (m summand2).magnitude p))
      (fun e _ => e = .overflow ∧ 10 ^ p.total ≤ (m summand1).magnitude p + (m summand2).magnitude p) := by
  obtain ⟨hframe, hdigit, hover, hsum⟩ := internalAdd_spec target h1.digit h2.digit
  refine Spec.bind (Spec.set (Spec.ite (fun hb => Spec.throw ⟨rfl, hover.mp hb⟩) (fun hb => Spec.modify ?_)))
  have heq := hsum (by simpa using hb)
  have hm := mt hover.mpr hb
  refine hframe.stored hdigit (by omega) ?_
  rw [hs _ hframe, heq]
  push_cast
  rfl

theorem difference_part (sign : (ι → Decimal) → Bool) (h1 : (m minuend).Valid p)
    (h2 : (m subtrahend).Valid p) (hk : k < p.size) (habove : ∀ j, k + 1 ≤ j → j < p.size →
    (m minuend).array j = (m subtrahend).array j) (hle :
    (m subtrahend).magnitude p ≤ (m minuend).magnitude p) (hs : ∀ m', Frame target p.size m m' →
    sign m' = sign m) : Spec (do
        set (← lift (internalSub p minuend subtrahend target k m))
        modify fun m => setNegative target (sign m) m : EStateM Fault (ι → Decimal) PUnit) m
      (fun _ m' => Stored p target m m' (if sign m then -((m minuend).magnitude p - (m subtrahend).magnitude p : Int)
        else (m minuend).magnitude p - (m subtrahend).magnitude p))
      (fun _ _ => False) := by
  have hl1 := h1.magnitude_lt
  refine Spec.bind (Spec.lift ((internalSub_spec h1.digit h2.digit hk habove hle).mono ?_ fun _ h => h))
  rintro m' ⟨hframe, hdigit, hdiff⟩
  refine Spec.bind (Spec.set (Spec.modify (hframe.stored hdigit (by omega) ?_)))
  rw [hs _ hframe]
  split <;> omega

theorem add_spec (h1 : (m summand1).Valid p) (h2 : (m summand2).Valid p) :
    Spec (Decimal.add p summand1 summand2 target) m
      (fun _ m' => Stored p target m m' ((m summand1).value p + (m summand2).value p))
      (fun e _ => e = .overflow ∧ 10 ^ p.total ≤ ((m summand1).value p + (m summand2).value p).natAbs) := by
  obtain ⟨hk, habove, hless⟩ := Decimal.isLessThan_spec h1.digit h2.digit
  unfold Decimal.add
  refine Spec.bind (Spec.get (Spec.ite (fun hn => ?_) (fun hn => Spec.ite (fun hb => ?_) (fun hb => ?_))))
  · refine (sum_part (fun m => (m summand1).negative) h1 h2 fun m' h => h.negative _).mono ?_ ?_
    · intro _ m' hm
      convert hm using 1
      unfold Decimal.value
      rw [← hn]
      split <;> ring
    · rintro e m' ⟨he, hm⟩
      refine ⟨he, ?_⟩
      unfold Decimal.value
      rw [← hn]
      split <;> omega
  · refine (difference_part (fun m => (m summand2).negative) h2 h1 hk
      (fun j hj hj' => (habove j hj hj').symm) (Nat.le_of_lt (hless.mp hb)) fun m' h =>
      h.negative _).mono ?_ fun _ _ h => h.elim
    intro _ m' hm
    convert hm using 1
    unfold Decimal.value
    cases hs1 : (m summand1).negative <;> cases hs2 : (m summand2).negative <;> simp_all <;> ring
  · have hle := Nat.not_lt.mp (mt hless.mpr hb)
    refine (difference_part (fun m => (m summand1).negative) h1 h2 hk habove hle fun m' h =>
      h.negative _).mono ?_ fun _ _ h => h.elim
    intro _ m' hm
    convert hm using 1
    unfold Decimal.value
    cases hs1 : (m summand1).negative <;> cases hs2 : (m summand2).negative <;> simp_all <;> ring

theorem sub_spec (h1 : (m minuend).Valid p) (h2 : (m subtrahend).Valid p) :
    Spec (Decimal.sub p minuend subtrahend target) m
      (fun _ m' => Stored p target m m' ((m minuend).value p - (m subtrahend).value p))
      (fun e _ => e = .overflow ∧ 10 ^ p.total ≤ ((m minuend).value p - (m subtrahend).value p).natAbs) := by
  obtain ⟨hk, habove, hless⟩ := Decimal.isLessThan_spec h1.digit h2.digit
  unfold Decimal.sub
  refine Spec.bind (Spec.get (Spec.ite (fun hn => Spec.ite (fun hb => ?_) (fun hb => ?_)) (fun hn => ?_)))
  · refine (difference_part (fun m => !(m subtrahend).negative) h2 h1 hk
      (fun j hj hj' => (habove j hj hj').symm) (Nat.le_of_lt (hless.mp hb)) fun m' h =>
      by rw [h.negative]).mono ?_ fun _ _ h => h.elim
    intro _ m' hm
    convert hm using 1
    unfold Decimal.value
    rw [hn]
    cases hs2 : (m subtrahend).negative <;> simp <;> ring
  · have hle := Nat.not_lt.mp (mt hless.mpr hb)
    refine (difference_part (fun m => (m minuend).negative) h1 h2 hk habove hle fun m' h =>
      h.negative _).mono ?_ fun _ _ h => h.elim
    intro _ m' hm
    convert hm using 1
    unfold Decimal.value
    rw [hn]
    cases hs2 : (m subtrahend).negative <;> simp <;> ring
  · refine (sum_part (fun m => (m minuend).negative) h1 h2 fun m' h => h.negative _).mono ?_ ?_
    · intro _ m' hm
      convert hm using 1
      unfold Decimal.value
      cases hs1 : (m minuend).negative <;> cases hs2 : (m subtrahend).negative <;> simp_all <;> ring
    · rintro e m' ⟨he, hm⟩
      refine ⟨he, ?_⟩
      unfold Decimal.value
      cases hs1 : (m minuend).negative <;> cases hs2 : (m subtrahend).negative <;> simp_all <;> omega

end UnixCommons.Generics
