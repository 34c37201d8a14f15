import UnixCommons.Generics.DecimalConstruct
import UnixCommons.Generics.Lemmas.Decimal

/-!
# 整数からの構成の補題
-/

namespace UnixCommons.Generics

open Lib

variable {p : Params} {c c₀ : Construction} {first n x i integer fraction : Nat} {negative : Bool}

theorem putDigits_eq : forUp (putDigit p first) n (c, x) =
    (⟨{ c.decimal with array := fun i => if first ≤ i ∧ i < first + n then x / p.base ^ (i - first) % p.base
        else c.decimal.array i }, if n = 0 then c.written else max c.written (first + n)⟩, x / p.base ^ n) := by
  induction n with
  | zero =>
      have : (fun i => if first ≤ i ∧ i < first + 0 then x / p.base ^ (i - first) % p.base
          else c.decimal.array i) = c.decimal.array := by
        funext i
        exact if_neg (by omega)
      simp only [Nat.pow_zero, Nat.div_one, this, if_true]
      rfl
  | succ n ih =>
      unfold forUp
      rw [ih]
      unfold putDigit Construction.put
      have hmod : x / p.base ^ n % p.base < 2 * p.element.base := by
        have h := Nat.mod_lt (x / p.base ^ n) (Params.base_pos (p := p))
        rw [show p.element.base = p.base from rfl]
        omega
      rw [Element.cast_of_lt_base hmod]
      have ha : Function.update (fun i => if first ≤ i ∧ i < first + n then x / p.base ^ (i - first) % p.base
            else c.decimal.array i) (first + n) (x / p.base ^ n % p.base) =
          fun i => if first ≤ i ∧ i < first + (n + 1) then x / p.base ^ (i - first) % p.base else c.decimal.array i := by
        funext i
        by_cases hi : i = first + n
        · subst hi
          rw [Function.update_self, if_pos (by omega), Nat.add_sub_cancel_left]
        · rw [Function.update_of_ne hi]
          refine if_congr ?_ rfl rfl
          omega
      have hw : max (if n = 0 then c.written else max c.written (first + n)) (first + n + 1) =
          if n + 1 = 0 then c.written else max c.written (first + (n + 1)) := by
        rw [if_neg (Nat.succ_ne_zero n)]
        split <;> omega
      dsimp only
      rw [ha, hw, Nat.div_div_eq_div_mul, ← Nat.pow_succ]

/-! ## 整数部と端数からの構成 -/

def Params.partsLimit (p : Params) : Nat :=
  if p.integer ≠ 0 ∧ p.fractionEnd + 1 = p.size then p.fractionOver else 10 ^ p.integer

theorem Params.fractionEnd_le_size : p.fractionEnd ≤ p.size := by
  have hd := Params.digitsPerElement_pos (p := p)
  have h1 := Nat.div_mul_le_self p.fraction p.digitsPerElement
  have h2 := (Params.size_spec (p := p)).1
  have h3 := p.fraction_le
  refine Nat.le_of_mul_le_mul_right ?_ hd
  rw [show p.fractionEnd * p.digitsPerElement = p.fraction / p.digitsPerElement * p.digitsPerElement from rfl]
  omega

theorem Params.size_le_of_integer_zero (h : p.integer = 0) : p.size ≤ p.fractionEnd + 1 := by
  have hd := Params.digitsPerElement_pos (p := p)
  have h1 := Nat.div_add_mod p.fraction p.digitsPerElement
  have h2 := Nat.mod_lt p.fraction hd
  have h3 := (Params.size_spec (p := p)).2
  have h4 := p.fraction_le
  unfold Ranks.integer at h
  rw [show p.fraction / p.digitsPerElement = p.fractionEnd from rfl, Nat.mul_comm] at h1
  refine Nat.le_of_lt_succ (Nat.lt_of_mul_lt_mul_right (a := p.digitsPerElement) ?_)
  rw [Nat.succ_mul, Nat.succ_mul]
  omega

theorem Params.pow_integer (h : p.fractionEnd + 2 ≤ p.size) :
    p.fractionOver * p.base ^ (p.size - 2 - p.fractionEnd) * p.integerMaxOver = 10 ^ p.integer := by
  have hpos : 0 < 10 ^ p.fraction := Nat.pow_pos (by decide)
  refine Nat.eq_of_mul_eq_mul_left hpos ?_
  rw [← Nat.pow_add, show p.fraction + p.integer = p.total by have := p.fraction_le; unfold Ranks.integer; omega,
    ← Params.pow_total, ← Params.pow_fraction]
  calc p.fractionRemainder * p.base ^ p.fractionEnd *
        (p.fractionOver * p.base ^ (p.size - 2 - p.fractionEnd) * p.integerMaxOver)
      = p.base ^ p.fractionEnd * (p.fractionRemainder * p.fractionOver) * p.base ^ (p.size - 2 - p.fractionEnd) *
          p.integerMaxOver := by ring
    _ = p.base ^ (p.fractionEnd + 1 + (p.size - 2 - p.fractionEnd)) * p.integerMaxOver := by
        rw [Params.remainder_mul_over, ← Nat.pow_succ, ← Nat.pow_add]
    _ = p.base ^ (p.size - 1) * p.integerMaxOver := by
        rw [show p.fractionEnd + 1 + (p.size - 2 - p.fractionEnd) = p.size - 1 by omega]

theorem putInteger_spec (hi : p.integer ≠ 0) (integer : Nat) (c : Construction) :
    (putInteger p integer c).1.decimal.negative = c.decimal.negative ∧
    (∀ i ≤ p.fractionEnd, (putInteger p integer c).1.decimal.array i = c.decimal.array i) ∧
    (∀ i, p.fractionEnd < i → i < p.size → (putInteger p integer c).1.decimal.array i < p.base) ∧
    (putInteger p integer c).1.written = (if p.fractionEnd + 2 ≤ p.size then max c.written p.size
    else c.written) ∧ ((putInteger p integer c).2 = 0 ↔ integer < p.partsLimit) ∧
    (integer < p.partsLimit →
      val p.base (fun j => (putInteger p integer c).1.decimal.array (p.fractionEnd + 1 + j)) (p.size - (p.fractionEnd + 1)) =
        integer / p.fractionOver) := by
  have hO := Params.fractionOver_pos (p := p)
  have hM := Params.integerMaxOver_le (p := p)
  have hMpos : 0 < p.integerMaxOver := Nat.pow_pos (by decide)
  have hBpos := Params.base_pos (p := p)
  unfold putInteger
  rw [putDigits_eq]
  dsimp only
  by_cases hs : p.fractionEnd + 2 ≤ p.size
  · have hmax : max (p.fractionEnd + 1) (p.size - 1) = p.size - 1 := by omega
    have hn : p.size - 1 - (p.fractionEnd + 1) = p.size - 2 - p.fractionEnd := by omega
    have hlimit : p.partsLimit = p.fractionOver * p.base ^ (p.size - 2 - p.fractionEnd) * p.integerMaxOver := by
      rw [Params.pow_integer hs, Params.partsLimit, if_neg (by omega)]
    have hmod := Nat.mod_lt (integer / p.fractionOver / p.base ^ (p.size - 2 - p.fractionEnd)) hMpos
    rw [if_pos hmax, if_pos hs, hmax, hn]
    dsimp only [Construction.put]
    rw [Element.cast_of_lt_base (by rw [show p.element.base = p.base from rfl]; omega)]
    have hzero : integer / p.fractionOver / p.base ^ (p.size - 2 - p.fractionEnd) /
        p.integerMaxOver = 0 ↔ integer < p.partsLimit := by
      rw [Nat.div_div_eq_div_mul, Nat.div_div_eq_div_mul, hlimit, Nat.mul_assoc,
        Nat.div_eq_zero_iff_lt (Nat.mul_pos hO (Nat.mul_pos (Nat.pow_pos hBpos) hMpos))]
    refine ⟨rfl, fun i hi => ?_, fun i h1 h2 => ?_, ?_, hzero, fun hlt => ?_⟩
    · rw [Function.update_of_ne (by omega), if_neg (by omega)]
    · by_cases hl : i = p.size - 1
      · rw [hl, Function.update_self]
        omega
      · rw [Function.update_of_ne hl, if_pos (by omega)]
        exact Nat.mod_lt _ hBpos
    · split <;> omega
    · have hq : integer / p.fractionOver / p.base ^ (p.size - 2 - p.fractionEnd) %
          p.integerMaxOver = integer / p.fractionOver / p.base ^ (p.size - 2 - p.fractionEnd) := by
        refine Nat.mod_eq_of_lt ?_
        have h0 := hzero.mpr hlt
        exact (Nat.div_eq_zero_iff_lt hMpos).mp h0
      rw [hq, show p.size - (p.fractionEnd + 1) = p.size - 2 - p.fractionEnd + 1 by omega, val_succ,
        val_congr (b := fun j => integer / p.fractionOver / p.base ^ j % p.base), val_digits,
        show p.fractionEnd + 1 + (p.size - 2 - p.fractionEnd) =
        p.size - 1 by omega, Function.update_self, Nat.mul_comm, Nat.mod_add_div]
      intro j hj
      rw [Function.update_of_ne (by omega), if_pos (by omega), Nat.add_sub_cancel_left]
  · have hE : p.fractionEnd + 1 = p.size := by
      have h1 := Params.fractionEnd_le_size (p := p)
      rcases Nat.lt_or_ge p.fractionEnd p.size with h | h
      · omega
      · -- 端数がすべての要素を埋めれば、整数部はない。
        exfalso
        have h2 : p.fractionEnd = p.size := by omega
        have h3 := Nat.div_mul_le_self p.fraction p.digitsPerElement
        have h4 := (Params.size_spec (p := p)).1
        rw [show p.fraction / p.digitsPerElement = p.fractionEnd from rfl, h2] at h3
        unfold Ranks.integer at hi
        omega
    have hlimit : p.partsLimit = p.fractionOver := by
      rw [Params.partsLimit, if_pos ⟨hi, hE⟩]
    have hn : p.size - 1 - (p.fractionEnd + 1) = 0 := by omega
    rw [if_neg (by omega), if_neg hs, hn, hlimit]
    dsimp only
    rw [Nat.pow_zero, Nat.div_one, Nat.div_eq_zero_iff_lt hO]
    refine ⟨rfl, fun i hi => if_neg (by omega), fun i h1 h2 => by omega, if_pos rfl, Iff.rfl, fun hlt => ?_⟩
    rw [show p.size - (p.fractionEnd + 1) = 0 by omega, val_zero, Nat.div_eq_of_lt hlt]

theorem parts_value {a : Nat → Nat} (hE : p.fractionEnd < p.size)
    (hlow : ∀ i < p.fractionEnd, a i = fraction / p.base ^ i % p.base)
    (hmid : a p.fractionEnd = fraction / p.base ^ p.fractionEnd + integer % p.fractionOver * p.fractionRemainder)
    (hhigh : val p.base (fun j => a (p.fractionEnd + 1 + j)) (p.size - (p.fractionEnd + 1)) = integer / p.fractionOver) :
    val p.base a p.size = integer * 10 ^ p.fraction + fraction := by
  have hsize : p.size = p.fractionEnd + 1 + (p.size - (p.fractionEnd + 1)) := by omega
  have hl : val p.base a p.fractionEnd = fraction % p.base ^ p.fractionEnd := by
    rw [val_congr hlow, val_digits]
  have h1 := Nat.mod_add_div fraction (p.base ^ p.fractionEnd)
  have h2 := Nat.mod_add_div integer p.fractionOver
  rw [hsize, val_add, val_succ, hl, hmid, hhigh, ← Params.pow_fraction]
  generalize fraction % p.base ^ p.fractionEnd = f₀ at h1
  generalize fraction / p.base ^ p.fractionEnd = f₁ at h1
  generalize integer % p.fractionOver = i₀ at h2
  generalize integer / p.fractionOver = i₁ at h2
  rw [← h1, ← h2, Nat.pow_succ, ← Params.remainder_mul_over]
  ring

theorem Params.fraction_eq_of_fractionEnd (h : p.size ≤ p.fractionEnd) :
    p.integer = 0 ∧ p.base ^ p.fractionEnd = 10 ^ p.fraction := by
  have h1 := Nat.div_add_mod p.fraction p.digitsPerElement
  have h2 := (Params.size_spec (p := p)).1
  have h3 := p.fraction_le
  have h4 : p.size * p.digitsPerElement ≤ p.fractionEnd * p.digitsPerElement := Nat.mul_le_mul_right _ h
  rw [show p.fraction / p.digitsPerElement = p.fractionEnd from rfl, Nat.mul_comm] at h1
  refine ⟨by unfold Ranks.integer; omega, ?_⟩
  rw [← Params.pow_fraction, Params.fractionRemainder_eq_one.mpr (by omega), Nat.one_mul]

theorem constructParts_spec (negative : Bool) (integer fraction : Nat) (h0 : c₀.written = 0) :
    Spec (constructParts p negative integer fraction) c₀
      (fun _ c => fraction < 10 ^ p.fraction ∧ integer < p.partsLimit ∧ c.written = max p.size (p.fractionEnd + 1) ∧
        (∀ i < p.size, c.decimal.array i < p.base) ∧ c.decimal.magnitude p =
        integer * 10 ^ p.fraction + fraction ∧ c.decimal.negative = negative)
      (fun e c => e = .overflow ∧ (10 ^ p.fraction ≤ fraction ∧ c.written = p.fractionEnd ∨
        fraction < 10 ^ p.fraction ∧ p.partsLimit ≤ integer ∧ c.written = max p.size (p.fractionEnd + 1))) := by
  have hBpos := Params.base_pos (p := p)
  have hO := Params.fractionOver_pos (p := p)
  have hR := Params.fractionRemainder_pos (p := p)
  have hRO := Params.remainder_mul_over (p := p)
  have hOB : p.fractionOver ≤ p.base := by
    rw [← hRO]
    exact Nat.le_mul_of_pos_left _ hR
  have hfrac : fraction / p.base ^ p.fractionEnd ≥ p.fractionRemainder ↔ 10 ^ p.fraction ≤ fraction := by
    rw [ge_iff_le, Nat.le_div_iff_mul_le (Nat.pow_pos hBpos), Params.pow_fraction]
  have hw₁ : (if p.fractionEnd = 0 then c₀.written else max c₀.written (0 + p.fractionEnd)) = p.fractionEnd := by
    split <;> omega
  unfold constructParts
  refine Spec.bind (Spec.get ?_)
  rw [putDigits_eq, hw₁]
  refine Spec.bind (Spec.set (Spec.ite (fun hge => Spec.throw ⟨rfl, Or.inl ⟨hfrac.mp hge, rfl⟩⟩) (fun hlt => ?_)))
  have hf : fraction < 10 ^ p.fraction := by
    have := mt hfrac.mpr hlt
    omega
  have hio := Nat.mod_lt integer hO
  have hmid : fraction / p.base ^ p.fractionEnd + integer % p.fractionOver * p.fractionRemainder < p.base :=
    calc fraction / p.base ^ p.fractionEnd + integer % p.fractionOver * p.fractionRemainder
        < p.fractionRemainder + integer % p.fractionOver * p.fractionRemainder := by omega
      _ = (integer % p.fractionOver + 1) * p.fractionRemainder := by ring
      _ ≤ p.fractionOver * p.fractionRemainder := Nat.mul_le_mul_right _ hio
      _ = p.base := by rw [Nat.mul_comm, hRO]
  have hbase : p.element.base = p.base := rfl
  rw [Element.cast_of_lt_base (x := integer % p.fractionOver) (by omega), Element.cast_of_lt_base (by omega)]
  refine Spec.bind (Spec.modify (Spec.bind (Spec.get ?_)))
  by_cases hi : p.integer = 0
  · -- 整数部がなければ、零でない整数はあふれである。
    have hle := Params.size_le_of_integer_zero hi
    have hlimit : p.partsLimit = 1 := by
      rw [Params.partsLimit, if_neg (by omega), hi, Nat.pow_zero]
    have hw₂ : max p.fractionEnd (p.fractionEnd + 1) = max p.size (p.fractionEnd + 1) := by omega
    rw [if_neg (by omega)]
    refine Spec.bind (Spec.set (Spec.ite (fun hne => Spec.throw ⟨rfl, Or.inr ⟨hf, ?_, hw₂⟩⟩) (fun hz => Spec.modify ?_)))
    · rw [hlimit]
      omega
    · have hz : integer = 0 := by omega
      subst hz
      refine ⟨hf, by omega, hw₂, fun i hi => ?_, ?_, rfl⟩
      · dsimp only [Construction.setNegative, Construction.put]
        by_cases hiE : i = p.fractionEnd
        · rw [hiE, Function.update_self]
          exact hmid
        · rw [Function.update_of_ne hiE, if_pos (by omega)]
          exact Nat.mod_lt _ hBpos
      · unfold Decimal.magnitude
        dsimp only [Construction.setNegative, Construction.put]
        by_cases hE : p.fractionEnd < p.size
        · refine parts_value hE (fun i hi => ?_) (by rw [Function.update_self]) ?_
          · rw [Function.update_of_ne (by omega), if_pos (by omega), Nat.sub_zero]
          · rw [show p.size - (p.fractionEnd + 1) = 0 by omega, Nat.zero_div]
            rfl
        · obtain ⟨-, hpow⟩ := Params.fraction_eq_of_fractionEnd (Nat.not_lt.mp hE)
          have hEs : p.fractionEnd = p.size := by
            have := Params.fractionEnd_le_size (p := p)
            omega
          rw [val_congr (b := fun i => fraction / p.base ^ i % p.base), val_digits, ← hEs, hpow, Nat.mod_eq_of_lt hf]
          · omega
          · intro i hi
            rw [Function.update_of_ne (by omega), if_pos (by omega), Nat.sub_zero]
  · have hE : p.fractionEnd < p.size := by
      by_contra hge
      exact hi (Params.fraction_eq_of_fractionEnd (Nat.not_lt.mp hge)).1
    rw [if_pos hi]
    obtain ⟨hneg, hlow, hhigh, hw, hzero, hval⟩ := putInteger_spec hi integer _
    generalize putInteger p integer _ = r at hneg hlow hhigh hw hzero hval
    obtain ⟨c, rest⟩ := r
    dsimp only at hneg hlow hhigh hw hzero hval ⊢
    have hw₂ : c.written = max p.size (p.fractionEnd + 1) := by
      rw [hw]
      dsimp only [Construction.put]
      split <;> omega
    refine Spec.bind (Spec.set (Spec.ite (fun hne => Spec.throw ⟨rfl, Or.inr ⟨hf, ?_, hw₂⟩⟩) (fun hz => Spec.modify ?_)))
    · by_contra hlt'
      exact hne (hzero.mpr (by omega))
    · have hlt' := hzero.mp (by omega)
      refine ⟨hf, hlt', hw₂, fun i hi => ?_, ?_, rfl⟩
      · dsimp only [Construction.setNegative]
        rcases Nat.lt_trichotomy i p.fractionEnd with h | h | h
        · rw [hlow i (by omega)]
          dsimp only [Construction.put]
          rw [Function.update_of_ne (by omega), if_pos (by omega)]
          exact Nat.mod_lt _ hBpos
        · rw [hlow i (by omega), h]
          dsimp only [Construction.put]
          rw [Function.update_self]
          exact hmid
        · exact hhigh i h hi
      · unfold Decimal.magnitude
        dsimp only [Construction.setNegative]
        refine parts_value hE (fun i hi => ?_) ?_ (hval hlt')
        · rw [hlow i (by omega)]
          dsimp only [Construction.put]
          rw [Function.update_of_ne (by omega), if_pos (by omega), Nat.sub_zero]
        · rw [hlow _ (Nat.le_refl _)]
          dsimp only [Construction.put]
          rw [Function.update_self]

theorem Decimal.epsilon_spec : (∀ i < p.size, (Decimal.epsilon p).array i < p.base) ∧
    (Decimal.epsilon p).magnitude p = 1 := by
  have hone : 1 < p.partsLimit ∨ p.fraction ≠ 0 := by
    by_cases hF : p.fraction = 0
    · refine Or.inl ?_
      have hd := Params.digitsPerElement_pos (p := p)
      have ht := p.total_pos
      unfold Params.partsLimit
      split
      · refine Nat.one_lt_pow ?_ (by decide)
        rw [hF, Nat.zero_mod]
        omega
      · refine Nat.one_lt_pow ?_ (by decide)
        unfold Ranks.integer
        omega
    · exact Or.inr hF
  have hlimit : 0 < p.partsLimit := by
    unfold Params.partsLimit
    split
    · exact Params.fractionOver_pos
    · exact Nat.pow_pos (by decide)
  have hstart : (Construction.mk (Decimal.invalid p) 0).written = 0 := rfl
  have hspec := constructParts_spec (p := p) false (if p.fraction ≠ 0 then 0 else 1) (if p.fraction ≠ 0 then 1 else 0) hstart
  unfold Decimal.epsilon
  cases hx : (constructParts p false (if p.fraction ≠ 0 then 0 else 1)
    (if p.fraction ≠ 0 then 1 else 0)).run ⟨Decimal.invalid p, 0⟩ with
  | ok _ c =>
      obtain ⟨-, -, -, hd, hm, -⟩ := hspec.ok hx
      refine ⟨hd, hm.trans ?_⟩
      by_cases hF : p.fraction = 0
      · simp [hF]
      · simp [hF]
  | error e c =>
      exfalso
      have hpow : p.fraction ≠ 0 → 1 < 10 ^ p.fraction := fun hF => Nat.one_lt_pow hF (by decide)
      rcases (hspec.error hx).2 with ⟨h, -⟩ | ⟨-, h, -⟩
      · by_cases hF : p.fraction = 0
        · simp [hF] at h
        · have := hpow hF
          rw [if_pos hF] at h
          omega
      · by_cases hF : p.fraction = 0
        · rw [if_neg (by omega)] at h
          omega
        · rw [if_pos hF] at h
          omega

/-! ## 整数と十の冪からの構成 -/

/-- `i` より下に書いた要素と、残りの数 `x` が、`total` を表す。 -/
structure PowerInv (p : Params) (c₀ : Construction) (total i x : Nat) (c : Construction) : Prop where
  digit : ∀ j < i, c.decimal.array j < p.base
  value : val p.base c.decimal.array i + p.base ^ i * x = total
  negative : c.decimal.negative = c₀.decimal.negative

theorem PowerInv.put {total y : Nat} (h : PowerInv p c₀ total i x c) (hy : y < p.base)
    (hx : y + p.base * n = x) : PowerInv p c₀ total (i + 1) n (c.put i y) := by
  refine ⟨fun j hj => ?_, ?_, h.negative⟩
  · dsimp only [Construction.put]
    by_cases hji : j = i
    · rw [hji, Function.update_self]
      exact hy
    · rw [Function.update_of_ne hji]
      exact h.digit j (by omega)
  · dsimp only [Construction.put]
    rw [val_update_succ, ← h.value, ← hx, Nat.pow_succ]
    ring

theorem putWhile_spec {total : Nat} (h : PowerInv p c₀ total i x c) :
    PowerInv p c₀ total (putWhile p n i x c).2.2 (putWhile p n i x c).2.1 (putWhile p n i x c).1 ∧
      i ≤ (putWhile p n i x c).2.2 ∧
      ((putWhile p n i x c).2.2 = i + n ∨ (putWhile p n i x c).2.2 < i + n ∧ (putWhile p n i x c).2.1 = 0) := by
  induction n generalizing i x c with
  | zero => exact ⟨h, Nat.le_refl i, Or.inl rfl⟩
  | succ n ih =>
      unfold putWhile
      split
      · have hmod := Nat.mod_lt x (Params.base_pos (p := p))
        have hcast : p.element.cast (x % p.base) = x % p.base :=
          Element.cast_of_lt_base (by rw [show p.element.base = p.base from rfl]; omega)
        obtain ⟨h1, h2, h3⟩ := ih (h.put (y := x % p.base) hmod (Nat.mod_add_div x p.base))
        rw [hcast]
        exact ⟨h1, by omega, by omega⟩
      · next hz =>
        exact ⟨h, Nat.le_refl i, Or.inr ⟨Nat.lt_add_of_pos_right (Nat.succ_pos n), by simpa using hz⟩⟩

def Params.powerLimit (p : Params) (diff : Nat) : Nat :=
  if diff % p.digitsPerElement ≠ 0 ∧ diff / p.digitsPerElement + 1 = p.size then p.base ^ p.size else 10 ^ p.total

def putHead (p : Params) (integer diff : Nat) (c : Construction) : Construction × Nat × Nat :=
  if diff % p.digitsPerElement ≠ 0 then
    ((c.fill 0 (diff / p.digitsPerElement) 0).put (diff / p.digitsPerElement)
      (p.element.cast (p.element.cast (integer % DecimalHelper.pow10 p.element
      (p.digitsPerElement - diff % p.digitsPerElement)) *
        (p.base / DecimalHelper.pow10 p.element (p.digitsPerElement - diff % p.digitsPerElement)))),
      integer / DecimalHelper.pow10 p.element (p.digitsPerElement - diff % p.digitsPerElement),
      diff / p.digitsPerElement + 1)
  else
    (c.fill 0 (diff / p.digitsPerElement) 0, integer, diff / p.digitsPerElement)

theorem putHead_spec (integer : Nat) (c : Construction) {diff : Nat} (hdiff : diff ≤ p.fraction) :
    PowerInv p c (integer * 10 ^ diff) (putHead p integer diff c).2.2 (putHead p integer diff c).2.1
      (putHead p integer diff c).1 ∧ (putHead p integer diff c).2.2 ≤ p.size ∧
    (diff % p.digitsPerElement ≠ 0 ∧ (putHead p integer diff c).2.2 = diff / p.digitsPerElement + 1 ∨
      diff % p.digitsPerElement = 0 ∧ (putHead p integer diff c).2.2 = diff / p.digitsPerElement) := by
  have hd := Params.digitsPerElement_pos (p := p)
  have hdm := Nat.div_add_mod diff p.digitsPerElement
  have hml := Nat.mod_lt diff hd
  have hT := (Params.size_spec (p := p)).1
  have hF := p.fraction_le
  have hpow : 10 ^ diff = 10 ^ (diff % p.digitsPerElement) * p.base ^ (diff / p.digitsPerElement) := by
    rw [Params.base_eq, ← Nat.pow_mul, ← Nat.pow_add]
    congr 1
    omega
  have hle : diff / p.digitsPerElement ≤ p.size := by
    refine Nat.le_of_mul_le_mul_right ?_ hd
    rw [Nat.mul_comm]
    omega
  have hfill : PowerInv p c (integer * 10 ^ diff) (diff / p.digitsPerElement)
      (integer * 10 ^ (diff % p.digitsPerElement)) (c.fill 0 (diff / p.digitsPerElement) 0) := by
    have hz : ∀ j < diff / p.digitsPerElement, Generics.fill 0 (diff / p.digitsPerElement) 0 c.decimal.array j = 0 :=
      fun j hj => if_pos ⟨Nat.zero_le j, hj⟩
    refine ⟨fun j hj => ?_, ?_, rfl⟩
    · dsimp only [Construction.fill]
      rw [hz j hj]
      exact Params.base_pos
    · dsimp only [Construction.fill]
      rw [(val_eq_zero_iff Params.base_pos).mpr hz, hpow]
      ring
  unfold putHead
  split
  · next hne =>
    have hB : 10 ^ (p.digitsPerElement - diff % p.digitsPerElement) * 10 ^ (diff % p.digitsPerElement) = p.base := by
      rw [← Nat.pow_add, Params.base_eq]
      congr 1
      omega
    have hmaskpos : 0 < 10 ^ (p.digitsPerElement - diff % p.digitsPerElement) := Nat.pow_pos (by decide)
    have hmask : DecimalHelper.pow10 p.element (p.digitsPerElement - diff % p.digitsPerElement) =
        10 ^ (p.digitsPerElement - diff % p.digitsPerElement) := by
      refine Element.cast_of_lt_base ?_
      have : 10 ^ (p.digitsPerElement - diff % p.digitsPerElement) ≤ p.element.base :=
        Nat.pow_le_pow_right (by decide) (Nat.sub_le _ _)
      have := Element.base_pos (e := p.element)
      omega
    have hdivB : p.base / 10 ^ (p.digitsPerElement - diff % p.digitsPerElement) = 10 ^ (diff % p.digitsPerElement) := by
      rw [← hB, Nat.mul_div_cancel_left _ hmaskpos]
    have hmod := Nat.mod_lt integer hmaskpos
    have hy : integer % 10 ^ (p.digitsPerElement - diff % p.digitsPerElement) * 10 ^
        (diff % p.digitsPerElement) < p.base := by
      rw [← hB]
      exact Nat.mul_lt_mul_of_pos_right hmod (Nat.pow_pos (by decide))
    have hsmall : integer % 10 ^ (p.digitsPerElement - diff % p.digitsPerElement) < 2 * p.element.base := by
      have h1 := Nat.le_mul_of_pos_right (integer % 10 ^ (p.digitsPerElement - diff % p.digitsPerElement))
        (show 0 < 10 ^ (diff % p.digitsPerElement) from Nat.pow_pos (by decide))
      rw [show p.element.base = p.base from rfl]
      omega
    rw [hmask, hdivB, Element.cast_of_lt_base hsmall,
      Element.cast_of_lt_base (by rw [show p.element.base = p.base from rfl]; omega)]
    refine ⟨hfill.put hy ?_, ?_, Or.inl ⟨hne, rfl⟩⟩
    · have h1 := Nat.mod_add_div integer (10 ^ (p.digitsPerElement - diff % p.digitsPerElement))
      generalize integer % 10 ^ (p.digitsPerElement - diff % p.digitsPerElement) = a at h1
      generalize integer / 10 ^ (p.digitsPerElement - diff % p.digitsPerElement) = b at h1
      rw [← hB, ← h1]
      ring
    · refine Nat.lt_of_mul_lt_mul_right (a := p.digitsPerElement) ?_
      rw [Nat.mul_comm]
      omega
  · next hz =>
    have hz : diff % p.digitsPerElement = 0 := by omega
    rw [hz, Nat.pow_zero, Nat.mul_one] at hfill
    exact ⟨hfill, hle, Or.inr ⟨hz, rfl⟩⟩

theorem putScaled_spec (integer : Nat) (c : Construction) {diff : Nat} (hdiff : diff ≤ p.fraction) :
    ((putScaled p integer diff c).2 ≠ 0 ↔ p.powerLimit diff ≤ integer * 10 ^ diff) ∧
    ((putScaled p integer diff c).2 = 0 → (∀ i < p.size, (putScaled p integer diff c).1.decimal.array i < p.base) ∧
      (putScaled p integer diff c).1.decimal.magnitude p = integer * 10 ^ diff ∧
      (putScaled p integer diff c).1.decimal.negative = c.decimal.negative) := by
  obtain ⟨hhead, hsize, hstart⟩ := putHead_spec integer c hdiff
  have hs := Params.size_pos (p := p)
  have hTle := Params.pow_total_le (p := p)
  have hMpos : 0 < p.integerMaxOver := Nat.pow_pos (by decide)
  have hM := Params.integerMaxOver_le (p := p)
  have hunfold : putScaled p integer diff c =
      (let r := putWhile p (p.size - 1 - (putHead p integer diff c).2.2) (putHead p integer diff c).2.2
          (putHead p integer diff c).2.1 (putHead p integer diff c).1
        if r.2.2 = p.size - 1 then
          (r.1.put r.2.2 (p.element.cast (r.2.1 % p.integerMaxOver)), r.2.1 / p.integerMaxOver)
        else (r.1.fill r.2.2 p.size 0, r.2.1)) := rfl
  rw [hunfold]
  generalize putHead p integer diff c = h at hhead hsize hstart
  obtain ⟨c₁, x₁, i₁⟩ := h
  dsimp only at hhead hsize hstart ⊢
  obtain ⟨hinv, hle, hend⟩ := putWhile_spec (n := p.size - 1 - i₁) hhead
  generalize putWhile p (p.size - 1 - i₁) i₁ x₁ c₁ = r at hinv hle hend
  obtain ⟨c₂, x₂, i₂⟩ := r
  obtain ⟨hdigit, hvalue, hneg⟩ := hinv
  dsimp only at hdigit hvalue hneg hle hend ⊢
  have hlow := val_lt hdigit
  split
  · next hi =>
    subst hi
    have hlimit : p.powerLimit diff = 10 ^ p.total := by
      rw [Params.powerLimit, if_neg]
      omega
    have hmod := Nat.mod_lt x₂ hMpos
    rw [hlimit, ← Params.pow_total, ← hvalue, mul_le_add_mul_iff hlow, ne_eq, Nat.div_eq_zero_iff_lt hMpos, Nat.not_lt,
      Element.cast_of_lt_base (by rw [show p.element.base = p.base from rfl]; omega)]
    refine ⟨Iff.rfl, fun hlt => ?_⟩
    rw [Nat.mod_eq_of_lt hlt]
    have hput : PowerInv p c (integer * 10 ^ diff) (p.size - 1 + 1) 0 (c₂.put (p.size - 1) x₂) :=
      PowerInv.put ⟨hdigit, hvalue, hneg⟩ (by omega) (by omega)
    rw [Nat.sub_add_cancel hs] at hput
    refine ⟨hput.digit, ?_, hput.negative⟩
    have := hput.value
    rw [Nat.mul_zero, Nat.add_zero] at this
    rw [hvalue]
    exact this
  · next hi =>
    have hfillz : ∀ j, i₂ ≤ j → j < p.size → Generics.fill i₂ p.size 0 c₂.decimal.array j = 0 :=
      fun j hj hj' => if_pos ⟨hj, hj'⟩
    have hkeep : ∀ j < i₂, Generics.fill i₂ p.size 0 c₂.decimal.array j = c₂.decimal.array j :=
      fun j hj => if_neg (by omega)
    have hle₂ : i₂ ≤ p.size := by omega
    have hdone : x₂ = 0 → (∀ i < p.size, (c₂.fill i₂ p.size 0).decimal.array i < p.base) ∧
        (c₂.fill i₂ p.size 0).decimal.magnitude p = integer * 10 ^ diff ∧
        (c₂.fill i₂ p.size 0).decimal.negative = c.decimal.negative := by
      rintro rfl
      refine ⟨fun j hj => ?_, ?_, hneg⟩
      · dsimp only [Construction.fill]
        rcases Nat.lt_or_ge j i₂ with h | h
        · rw [hkeep j h]
          exact hdigit j h
        · rw [hfillz j h hj]
          exact Params.base_pos
      · unfold Decimal.magnitude
        dsimp only [Construction.fill]
        rw [val_eq_of_zero hle₂ hfillz, val_congr hkeep]
        omega
    refine ⟨?_, hdone⟩
    rcases Nat.lt_or_ge i₂ p.size with h | h
    · -- 上の端に着く前に終われば、数は収まる。
      have hx : x₂ = 0 := by omega
      have hp1 : p.base ^ i₂ ≤ p.base ^ (p.size - 1) := Nat.pow_le_pow_right Params.base_pos (by omega)
      have hp2 : p.base ^ (p.size - 1) ≤ 10 ^ p.total := by
        rw [← Params.pow_total]
        exact Nat.le_mul_of_pos_right _ hMpos
      have hlimit : 10 ^ p.total ≤ p.powerLimit diff := by
        unfold Params.powerLimit
        split <;> omega
      subst hx
      simp only [ne_eq, not_true_eq_false, false_iff]
      omega
    · have hi₂ : i₂ = p.size := by omega
      subst hi₂
      have hx : x₂ ≠ 0 ↔ p.base ^ p.size ≤ integer * 10 ^ diff := by
        rw [← hvalue]
        have := mul_le_add_mul_iff (x := 1) (q := x₂) hlow
        rw [Nat.mul_one] at this
        omega
      rw [hx]
      rcases hstart with ⟨hr, hi⟩ | ⟨hr, hi⟩
      · rw [Params.powerLimit, if_pos ⟨hr, by omega⟩]
      · rw [Params.powerLimit, if_neg (by omega)]
        -- 端数がすべての要素を埋めるので、数は `BASE ^ SIZE` の倍数である。
        have hdm := Nat.div_add_mod diff p.digitsPerElement
        have hpow : 10 ^ diff = p.base ^ p.size := by
          rw [Params.base_eq, ← Nat.pow_mul]
          congr 1
          rw [show p.size = diff / p.digitsPerElement by omega]
          omega
        refine ⟨fun h => by omega, fun h => ?_⟩
        rcases Nat.eq_zero_or_pos integer with rfl | hpos
        · have : 0 < 10 ^ p.total := Nat.pow_pos (by decide)
          omega
        · rw [hpow]
          exact Nat.le_mul_of_pos_left _ hpos

variable {t : IntegerType} {v : Int} {power : Nat}

def powerMagnitude (p : Params) (v : Int) (power : Nat) : Nat := v.natAbs * 10 ^ p.fraction / 10 ^ power

theorem constructPower_zero (c₀ : Construction) (h : power ≥ t.digits10 + p.fraction ∨ v = 0) :
    Spec (constructPower p t v power) c₀ (fun _ c => c.decimal.Valid p ∧ c.decimal.value p = 0) (fun _ _ => False) := by
  unfold constructPower
  refine Spec.ite (fun _ => Spec.modify ?_) (fun hn => absurd h hn)
  have hz : ∀ i < p.size, ((c₀.setNegative false).fill 0 p.size 0).decimal.array i = 0 :=
    fun i hi => if_pos ⟨Nat.zero_le i, hi⟩
  have hm : ((c₀.setNegative false).fill 0 p.size 0).decimal.magnitude p = 0 := (val_eq_zero_iff Params.base_pos).mpr hz
  refine ⟨Decimal.valid_of_magnitude_lt (fun i hi => ?_) ?_, ?_⟩
  · rw [hz i hi]
    exact Params.base_pos
  · rw [hm]
    exact Nat.pow_pos (by decide)
  · unfold Decimal.value
    rw [hm]
    rfl

theorem constructPower_min (c₀ : Construction) (h : ¬ (power ≥ t.digits10 + p.fraction ∨ v = 0))
    (hs : t.signed = true) (hv : v = -2 ^ t.digits) :
    Spec (constructPower p t v power) c₀ (fun _ _ => False) (fun e _ => e = .assertion) := by
  have hpow : (0 : Int) < 2 ^ t.digits := Int.pow_pos (by decide)
  unfold constructPower
  refine Spec.ite (fun hp => absurd hp h) (fun _ => Spec.bind (Spec.lift ?_))
  unfold split
  refine Returns.ite (fun _ => Returns.bind ?_) (fun hn => absurd ⟨hs, by omega⟩ hn)
  unfold assert
  rw [if_neg (by simp only [decide_eq_true_eq]; omega)]
  exact Returns.throw rfl

theorem split_spec (hf : t.Fits v) (hv : v ≠ -2 ^ t.digits) :
    Returns (split t v) (fun r => r = (decide (v < 0), v.natAbs)) (fun _ => False) := by
  unfold split
  refine Returns.ite (fun h => Returns.bind ?_) (fun h => Returns.pure ?_)
  · have hge : v ≥ -(2 ^ t.digits - 1) := by
      have := hf.1
      rw [if_pos h.1] at this
      omega
    unfold assert
    rw [if_pos (decide_eq_true hge)]
    refine Returns.pure (Returns.pure ?_)
    rw [decide_eq_true h.2]
  · have hge : ¬ v < 0 := fun hlt => by
      have hns : ¬ t.signed := fun hs => h ⟨hs, hlt⟩
      have := hf.1
      rw [if_neg hns] at this
      omega
    rw [decide_eq_false hge]

theorem constructPower_scaled (c₀ : Construction) (h : ¬ (power ≥ t.digits10 + p.fraction ∨ v = 0))
    (hf : t.Fits v) (hv : v ≠ -2 ^ t.digits) : Spec (constructPower p t v power) c₀
      (fun _ c => powerMagnitude p v power < p.powerLimit (p.fraction - min power p.fraction) ∧
        (∀ i < p.size, c.decimal.array i < p.base) ∧ c.decimal.magnitude p =
        powerMagnitude p v power ∧ c.decimal.negative = decide (v < 0))
      (fun e _ => e = .overflow ∧ p.powerLimit (p.fraction - min power p.fraction) ≤ powerMagnitude p v power) := by
  have hM : (if power > p.fraction then v.natAbs / 10 ^ (power - p.fraction) else v.natAbs) *
      10 ^ (p.fraction - min power p.fraction) = powerMagnitude p v power := by
    unfold powerMagnitude
    split
    · next hgt =>
      rw [show p.fraction - min power p.fraction = 0 by omega, Nat.pow_zero, Nat.mul_one,
        show (10 : Nat) ^ power = 10 ^ (power - p.fraction) * 10 ^ p.fraction by rw [← Nat.pow_add]; congr 1; omega,
        Nat.mul_div_mul_right _ _ (Nat.pow_pos (by decide))]
    · next hle =>
      rw [show (10 : Nat) ^ p.fraction = 10 ^ (p.fraction - min power p.fraction) * 10 ^ power by
          rw [← Nat.pow_add]; congr 1; omega,
        ← Nat.mul_assoc, Nat.mul_div_cancel _ (Nat.pow_pos (by decide))]
  unfold constructPower
  refine Spec.ite (fun hp => absurd hp h) (fun _ => Spec.bind (Spec.lift ((split_spec hf hv).mono ?_ fun _ hF => hF.elim)))
  rintro r rfl
  refine Spec.bind (Spec.modify (Spec.bind (Spec.get ?_)))
  have hspec := putScaled_spec (p := p) (if power > p.fraction then v.natAbs / 10 ^ (power - p.fraction) else v.natAbs)
    (c₀.setNegative (decide (v < 0))) (Nat.sub_le p.fraction (min power p.fraction))
  rw [hM] at hspec
  generalize putScaled p _ _ _ = r at hspec
  obtain ⟨c, rest⟩ := r
  obtain ⟨hover, hok⟩ := hspec
  refine Spec.bind (Spec.set (Spec.ite (fun hne => Spec.throw ⟨rfl, hover.mp hne⟩) (fun hz => Spec.pure ?_)))
  have hz : rest = 0 := by omega
  obtain ⟨hd, hm, hn⟩ := hok hz
  refine ⟨?_, hd, hm, hn⟩
  have := mt hover.mpr (fun hne => hne hz)
  omega

end UnixCommons.Generics
