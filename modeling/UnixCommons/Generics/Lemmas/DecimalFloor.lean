import UnixCommons.Generics.DecimalMul
import UnixCommons.Generics.Lemmas.Decimal

/-! # 端数の切り捨てと切り上げの補題 -/

namespace UnixCommons.Generics

open Lib

variable {p : Params} {d : Decimal} {a : Nat → Nat} {i n k index P : Nat}

theorem val_split (h : index < p.size) : val p.base a p.size =
    val p.base a index + p.base ^ index *
      (a index + p.base * val p.base (fun j => a (index + 1 + j)) (p.size - (index + 1))) := by
  conv_lhs => rw [show p.size = index + 1 + (p.size - (index + 1)) by omega]
  rw [val_add, val_succ, Nat.pow_succ]
  ring

theorem Params.pow_split (k : Nat) :
    p.base ^ (k / p.digitsPerElement) * 10 ^ (k % p.digitsPerElement) = 10 ^ k := by
  rw [Params.base_eq, ← Nat.pow_mul, ← Nat.pow_add]
  congr 1
  exact Nat.div_add_mod _ _

theorem Params.pow_dvd_base (k : Nat) : 10 ^ (k % p.digitsPerElement) ∣ p.base :=
  Nat.pow_dvd_pow 10 (Nat.le_of_lt (Nat.mod_lt _ Params.digitsPerElement_pos))

theorem Params.pow10_eq (k : Nat) :
    DecimalHelper.pow10 p.element (k % p.digitsPerElement) = 10 ^ (k % p.digitsPerElement) := by
  refine Element.cast_of_lt_base ?_
  have h1 := Nat.le_of_dvd Params.base_pos (Params.pow_dvd_base (p := p) k)
  have h2 := Params.base_pos (p := p)
  rw [show p.element.base = p.base from rfl]
  omega

theorem Params.pow_total_le_of_index (hk : p.size ≤ k / p.digitsPerElement) : 10 ^ p.total ≤ 10 ^ k := by
  rw [← Params.pow_split (p := p) k]
  calc 10 ^ p.total ≤ p.base ^ p.size := Params.pow_total_le
    _ ≤ p.base ^ (k / p.digitsPerElement) := Nat.pow_le_pow_right Params.base_pos hk
    _ ≤ p.base ^ (k / p.digitsPerElement) * 10 ^ (k % p.digitsPerElement) :=
        Nat.le_mul_of_pos_right _ (Nat.pow_pos (by decide))

theorem split_div {B low : Nat} (x h : Nat) (hP : 0 < P) (hB : P ∣ B) (hlow : low < B ^ index) :
    (low + B ^ index * (x + B * h)) / (B ^ index * P) = x / P + B / P * h := by
  rcases Nat.eq_zero_or_pos B with rfl | hpos
  · rcases Nat.eq_zero_or_pos index with rfl | hi
    · simp only [Nat.pow_zero] at hlow ⊢
      simp [show low = 0 by omega]
    · rw [Nat.zero_pow hi] at hlow
      omega
  · obtain ⟨c, rfl⟩ := hB
    rw [← Nat.div_div_eq_div_mul, Nat.add_mul_div_left _ _ (Nat.pow_pos hpos), Nat.div_eq_of_lt hlow, Nat.zero_add,
      Nat.mul_assoc, Nat.add_mul_div_left _ _ hP, Nat.mul_div_cancel_left _ hP]

theorem split_mod_eq_zero {B low : Nat} (x h : Nat) (hpos : 0 < B) (hB : P ∣ B) (hlow : low < B ^ index) :
    (low + B ^ index * (x + B * h)) % (B ^ index * P) = 0 ↔ low = 0 ∧ x % P = 0 := by
  obtain ⟨c, rfl⟩ := hB
  rw [Nat.mod_mul, Nat.add_mul_mod_self_left, Nat.mod_eq_of_lt hlow, Nat.add_mul_div_left _ _ (Nat.pow_pos hpos),
    Nat.div_eq_of_lt hlow, Nat.zero_add, Nat.mul_assoc, Nat.add_mul_mod_self_left, Nat.add_eq_zero_iff, Nat.mul_eq_zero]
  have hne : (P * c) ^ index ≠ 0 := Nat.pos_iff_ne_zero.mp (Nat.pow_pos hpos)
  exact and_congr_right fun _ => ⟨fun h => h.resolve_left hne, Or.inr⟩

theorem floorArray_spec (ha : ∀ i < p.size, a i < p.base) (hm : val p.base a p.size < 10 ^ p.total)
    (k : Nat) : (∀ i < p.size, floorArray p k a i < p.base) ∧
      val p.base (floorArray p k a) p.size = val p.base a p.size / 10 ^ k * 10 ^ k := by
  have hpos := Params.base_pos (p := p)
  have hPpos : 0 < 10 ^ (k % p.digitsPerElement) := Nat.pow_pos (by decide)
  unfold floorArray
  rw [Params.pow10_eq]
  dsimp only
  by_cases hi : k / p.digitsPerElement < p.size
  · rw [if_pos hi]
    have hself : fill 0 (k / p.digitsPerElement) 0 a (k / p.digitsPerElement) = a (k / p.digitsPerElement) :=
      if_neg (by omega)
    have hx := ha _ hi
    have hle := Nat.div_mul_le_self (a (k / p.digitsPerElement)) (10 ^ (k % p.digitsPerElement))
    -- 二つの枝は、同じ配列を作る。
    have hform : (if fill 0 (k / p.digitsPerElement) 0 a (k / p.digitsPerElement) % 10 ^ (k % p.digitsPerElement) ≠ 0 then
          Function.update (fill 0 (k / p.digitsPerElement) 0 a) (k / p.digitsPerElement)
            (p.element.cast (fill 0 (k / p.digitsPerElement) 0 a (k / p.digitsPerElement) / 10 ^ (k % p.digitsPerElement) *
              10 ^ (k % p.digitsPerElement)))
        else fill 0 (k / p.digitsPerElement) 0 a) =
        Function.update (fill 0 (k / p.digitsPerElement) 0 a) (k / p.digitsPerElement)
          (a (k / p.digitsPerElement) / 10 ^ (k % p.digitsPerElement) * 10 ^ (k % p.digitsPerElement)) := by
      rw [hself]
      split
      · rw [Element.cast_of_lt_base (by rw [show p.element.base = p.base from rfl]; omega)]
      · next hz =>
        rw [Nat.div_mul_cancel (Nat.dvd_of_mod_eq_zero (by omega)), ← hself, Function.update_eq_self]
    rw [hform]
    have hfill : ∀ i < p.size, fill 0 (k / p.digitsPerElement) 0 a i < p.base := fun i hi => by
      unfold fill
      split
      · exact hpos
      · exact ha i hi
    refine ⟨digits_update hfill (by omega), ?_⟩
    have hzero : val p.base (Function.update (fill 0 (k / p.digitsPerElement) 0 a)
        (k / p.digitsPerElement) (a (k / p.digitsPerElement) / 10 ^ (k % p.digitsPerElement) * 10 ^
        (k % p.digitsPerElement))) (k / p.digitsPerElement) = 0 := by
      rw [val_update_of_le (Nat.le_refl _)]
      exact (val_eq_zero_iff hpos).mpr fun j hj => if_pos ⟨Nat.zero_le j, hj⟩
    have hhigh : val p.base (fun j => Function.update (fill 0 (k / p.digitsPerElement) 0 a) (k / p.digitsPerElement)
          (a (k / p.digitsPerElement) / 10 ^ (k % p.digitsPerElement) * 10 ^ (k % p.digitsPerElement))
          (k / p.digitsPerElement + 1 + j)) (p.size - (k / p.digitsPerElement + 1)) =
        val p.base (fun j => a (k / p.digitsPerElement + 1 + j)) (p.size - (k / p.digitsPerElement + 1)) := by
      refine val_congr fun j hj => ?_
      rw [Function.update_of_ne (by omega)]
      exact if_neg (by omega)
    have hlow := val_lt (n := k / p.digitsPerElement) fun j hj => ha j (by omega)
    rw [val_split hi, val_split hi, hzero, hhigh, Function.update_self,
      ← Params.pow_split (p := p) k, split_div _ _ hPpos (Params.pow_dvd_base k) hlow]
    obtain ⟨c, hc⟩ := Params.pow_dvd_base (p := p) k
    have hdiv : p.base / 10 ^ (k % p.digitsPerElement) * 10 ^ (k % p.digitsPerElement) = p.base :=
      Nat.div_mul_cancel (Params.pow_dvd_base k)
    calc 0 + p.base ^ (k / p.digitsPerElement) *
          (a (k / p.digitsPerElement) / 10 ^ (k % p.digitsPerElement) * 10 ^ (k % p.digitsPerElement) +
            p.base * val p.base (fun j => a (k / p.digitsPerElement + 1 + j)) (p.size - (k / p.digitsPerElement + 1)))
        = p.base ^ (k / p.digitsPerElement) *
          (a (k / p.digitsPerElement) / 10 ^ (k % p.digitsPerElement) * 10 ^ (k % p.digitsPerElement) +
            p.base / 10 ^ (k % p.digitsPerElement) * 10 ^ (k % p.digitsPerElement) *
              val p.base (fun j => a (k / p.digitsPerElement + 1 + j)) (p.size - (k / p.digitsPerElement + 1))) := by
          rw [hdiv, Nat.zero_add]
      _ = _ := by ring
  · rw [if_neg hi]
    have hle := Params.pow_total_le_of_index (Nat.not_lt.mp hi)
    have hzero : ∀ i < p.size, fill 0 (k / p.digitsPerElement) 0 a i = 0 := fun i hi' => if_pos (by omega)
    refine ⟨fun i hi' => ?_, ?_⟩
    · rw [hzero i hi']
      exact hpos
    · rw [(val_eq_zero_iff hpos).mpr hzero, Nat.div_eq_of_lt (by omega), Nat.zero_mul]

/-! ## 切り上げ -/

theorem clearLoop_eq : (forUp clearBody n (a, false)).1 = fill 0 n 0 a ∧
    ((forUp clearBody n (a, false)).2 = true ↔ val p.base a n ≠ 0) := by
  induction n with
  | zero =>
      refine ⟨funext fun i => (if_neg (by omega)).symm, ?_⟩
      simp [forUp]
  | succ n ih =>
      obtain ⟨ih1, ih2⟩ := ih
      have hself : fill 0 n 0 a n = a n := if_neg (by omega)
      have hpow : p.base ^ n ≠ 0 := Nat.pos_iff_ne_zero.mp (Nat.pow_pos Params.base_pos)
      have hfill : fill 0 (n + 1) 0 a = Function.update (fill 0 n 0 a) n 0 := by
        funext i
        by_cases hi : i = n
        · rw [hi, Function.update_self]
          exact if_pos (by omega)
        · rw [Function.update_of_ne hi]
          exact if_congr (by omega) rfl rfl
      have hval : val p.base a (n + 1) ≠ 0 ↔ val p.base a n ≠ 0 ∨ a n ≠ 0 := by
        rw [val_succ, ne_eq, Nat.add_eq_zero_iff, Nat.mul_eq_zero]
        simp only [hpow, or_false]
        omega
      rw [show forUp clearBody (n + 1) (a, false) = clearBody n (forUp clearBody n (a, false))
        from rfl, clearBody, ih1, hself, hval, hfill]
      split
      · next hne => exact ⟨rfl, by simp [hne]⟩
      · next hz =>
        have hz : a n = 0 := by omega
        refine ⟨?_, by rw [ih2]; simp [hz]⟩
        have hsame : Function.update (fill 0 n 0 a) n (a n) = fill 0 n 0 a := by
          rw [← hself, Function.update_eq_self]
        rw [hz] at hsame
        rw [ih1, hsame]

theorem ceilCarry_spec (hn : i + n = p.size) (ha : ∀ j < p.size, a j < p.base) :
    (∀ j < p.size, (ceilCarry p a i n).1 j < p.base) ∧ (∀ j < i, (ceilCarry p a i n).1 j = a j) ∧
    ((ceilCarry p a i n).2 = false →
      val p.base (fun j => (ceilCarry p a i n).1 (i + j)) n = val p.base (fun j => a (i + j)) n + 1) ∧
    ((ceilCarry p a i n).2 = true → val p.base (fun j => a (i + j)) n + 1 = p.base ^ n) := by
  have hpos := Params.base_pos (p := p)
  induction n generalizing a i with
  | zero =>
      unfold ceilCarry
      exact ⟨ha, fun _ _ => rfl, fun h => by simp at h, fun _ => by simp⟩
  | succ n ih =>
      have hi := ha i (by omega)
      have hleft : ∀ b : Nat → Nat, val p.base (fun j => b (i + j)) (n + 1) =
          b i + p.base * val p.base (fun j => b (i + 1 + j)) n := fun b => by
        rw [val_succ_left, Nat.add_zero]
        simp only [Nat.add_assoc]
      unfold ceilCarry
      split
      · next hlt =>
        refine ⟨digits_update ha (by omega), fun j hj => Function.update_of_ne (by omega) _ _,
          fun _ => ?_, fun h => by simp at h⟩
        have hhigh : val p.base (fun j => Function.update a i (a i + 1) (i + 1 + j)) n =
            val p.base (fun j => a (i + 1 + j)) n := val_congr fun j hj => Function.update_of_ne (by omega) _ _
        rw [hleft, hleft]
        dsimp only
        rw [Function.update_self, hhigh]
        omega
      · next hge =>
        have hlast : a i = p.base - 1 := by omega
        obtain ⟨h1, h2, h3, h4⟩ := ih (a := Function.update a i 0) (i := i + 1) (by omega) (digits_update ha hpos)
        have hhigh : val p.base (fun j => Function.update a i 0 (i + 1 + j)) n = val p.base (fun j => a (i + 1 + j)) n :=
          val_congr fun j hj => Function.update_of_ne (by omega) _ _
        rw [hhigh] at h3 h4
        refine ⟨h1, fun j hj => ?_, fun hf => ?_, fun ht => ?_⟩
        · rw [h2 j (by omega), Function.update_of_ne (by omega)]
        · rw [hleft, hleft, h3 hf, h2 i (by omega), Function.update_self, hlast, Nat.mul_add]
          omega
        · rw [hleft, hlast, Nat.pow_succ, ← h4 ht, Nat.add_mul, Nat.mul_comm p.base]
          omega

theorem ceilElement_spec (hi : index < p.size) (ha : ∀ j < p.size, a j < p.base)
    (hz : val p.base a index = 0) (hB : P ∣ p.base) :
    ((ceilElement p index P a).2 = true ↔ 10 ^ p.total ≤ p.base ^ index * ((a index / P + 1) * P + p.base *
      val p.base (fun j => a (index + 1 + j)) (p.size - (index + 1)))) ∧
    ((ceilElement p index P a).2 = false → (∀ j < p.size, (ceilElement p index P a).1 j < p.base) ∧
      val p.base (ceilElement p index P a).1 p.size = p.base ^ index * ((a index / P + 1) * P + p.base *
        val p.base (fun j => a (index + 1 + j)) (p.size - (index + 1)))) := by
  have hpos := Params.base_pos (p := p)
  have hbase : p.element.base = p.base := rfl
  have hx := ha index hi
  obtain ⟨c, hc⟩ := hB
  have hres : (a index / P + 1) * P ≤ p.base := by
    have : a index / P < c := Nat.div_lt_of_lt_mul (by rw [← hc]; exact hx)
    calc (a index / P + 1) * P ≤ c * P := Nat.mul_le_mul_right _ this
      _ = p.base := by rw [hc, Nat.mul_comm]
  -- 配列の上の端の検査は、値が `TOTAL` 桁であることの検査である。
  have hfinish : ∀ (b : Nat → Nat) (X : Nat), (∀ j < p.size, b j < p.base) →
      val p.base b p.size = X → ((false || decide (b (p.size - 1) ≥ p.integerMaxOver)) = true ↔
      10 ^ p.total ≤ X) ∧ ((false || decide (b (p.size - 1) ≥ p.integerMaxOver)) = false →
      (∀ j < p.size, b j < p.base) ∧ val p.base b p.size = X) := by
    intro b X hb hX
    have hlast := last_lt_iff hb
    rw [hX] at hlast
    rw [Bool.false_or, decide_eq_true_eq]
    exact ⟨by omega, fun _ => ⟨hb, hX⟩⟩
  unfold ceilElement
  rw [Element.cast_of_lt_base (show (a index / P + 1) * P < 2 * p.element.base by omega)]
  dsimp only
  split
  · next hlt =>
    refine hfinish _ _ (digits_update ha hlt) ?_
    have hhigh : val p.base (fun j => Function.update a index ((a index / P + 1) * P)
        (index + 1 + j)) (p.size - (index + 1)) =
        val p.base (fun j => a (index + 1 + j)) (p.size - (index + 1)) :=
      val_congr fun j hj => Function.update_of_ne (by omega) _ _
    rw [val_split hi, val_update_of_le (Nat.le_refl _), hz, hhigh, Nat.zero_add]
    dsimp only
    rw [Function.update_self]
  · next hge =>
    have heq : (a index / P + 1) * P = p.base := by omega
    obtain ⟨h1, h2, h3, h4⟩ := ceilCarry_spec (p := p) (a := Function.update a index 0)
      (i := index + 1) (n := p.size - (index + 1)) (by omega) (digits_update ha hpos)
    have hhigh : val p.base (fun j => Function.update a index 0 (index + 1 + j))
        (p.size - (index + 1)) = val p.base (fun j => a (index + 1 + j)) (p.size - (index + 1)) :=
      val_congr fun j hj => Function.update_of_ne (by omega) _ _
    rw [hhigh] at h3 h4
    rw [heq]
    generalize ceilCarry p (Function.update a index 0) (index + 1) (p.size - (index + 1)) = r at h1 h2 h3 h4
    obtain ⟨b, overflow⟩ := r
    dsimp only at h1 h2 h3 h4 ⊢
    cases overflow with
    | false =>
        refine hfinish b _ h1 ?_
        have hlow : val p.base b index = 0 := by
          rw [← hz]
          exact val_congr fun j hj => by rw [h2 j (by omega), Function.update_of_ne (by omega)]
        rw [val_split hi, hlow, h3 rfl, h2 index (by omega), Function.update_self]
        ring
    | true =>
        have hbig : 10 ^ p.total ≤ p.base ^ index * (p.base + p.base *
            val p.base (fun j => a (index + 1 + j)) (p.size - (index + 1))) :=
          calc 10 ^ p.total ≤ p.base ^ p.size := Params.pow_total_le
            _ = p.base ^ index * (p.base * p.base ^ (p.size - (index + 1))) := by
                rw [← Nat.pow_succ', ← Nat.pow_add]
                congr 1
                omega
            _ = _ := by
                rw [← h4 rfl]
                ring
        exact ⟨⟨fun _ => hbig, fun _ => rfl⟩, fun h => by simp at h⟩

theorem ceilElement_low (hi : index < p.size) (ha : ∀ j < p.size, a j < p.base) (hB : P ∣ p.base) :
    (∀ j < index, (ceilElement p index P a).1 j = a j) ∧ P ∣ (ceilElement p index P a).1 index := by
  have hpos := Params.base_pos (p := p)
  have hbase : p.element.base = p.base := rfl
  obtain ⟨c, hc⟩ := hB
  have hres : (a index / P + 1) * P ≤ p.base := by
    have hlt : a index / P < c := Nat.div_lt_of_lt_mul (by rw [← hc]; exact ha index hi)
    calc (a index / P + 1) * P ≤ c * P := Nat.mul_le_mul_right _ hlt
      _ = p.base := by rw [hc, Nat.mul_comm]
  unfold ceilElement
  rw [Element.cast_of_lt_base (show (a index / P + 1) * P < 2 * p.element.base by omega)]
  dsimp only
  split
  · refine ⟨fun j hj => Function.update_of_ne (by omega) _ _, ?_⟩
    dsimp only
    rw [Function.update_self]
    exact Nat.dvd_mul_left ..
  · obtain ⟨-, hbelow, -, -⟩ := ceilCarry_spec (p := p) (a := Function.update a index 0)
      (i := index + 1) (n := p.size - (index + 1)) (by omega) (digits_update ha hpos)
    refine ⟨fun j hj => ?_, ?_⟩
    · rw [hbelow j (by omega), Function.update_of_ne (by omega)]
    · rw [hbelow index (by omega), Function.update_self]
      exact Nat.dvd_zero P

def ceilMagnitude (k u : Nat) : Nat := (u + 10 ^ k - 1) / 10 ^ k * 10 ^ k

theorem ceilMagnitude_eq {u : Nat} : ceilMagnitude k u = (u / 10 ^ k + if u % 10 ^ k = 0 then 0 else 1) * 10 ^ k := by
  rw [ceilMagnitude, ceil_div (Nat.pow_pos (by decide))]

theorem ceilArray_spec (ha : ∀ i < p.size, a i < p.base) (hm : val p.base a p.size < 10 ^ p.total) (hk : k ≤ p.total) :
    ((ceilArray p k a).2 = true ↔ 10 ^ p.total ≤ ceilMagnitude k (val p.base a p.size)) ∧
    ((ceilArray p k a).2 = false → (∀ j < p.size, (ceilArray p k a).1 j < p.base) ∧
      val p.base (ceilArray p k a).1 p.size = ceilMagnitude k (val p.base a p.size)) := by
  have hpos := Params.base_pos (p := p)
  have hPpos : 0 < 10 ^ (k % p.digitsPerElement) := Nat.pow_pos (by decide)
  obtain ⟨hclear, hflag⟩ := clearLoop_eq (p := p) (a := a) (n := k / p.digitsPerElement)
  rw [ceilMagnitude_eq]
  unfold ceilArray
  dsimp only
  generalize forUp clearBody (k / p.digitsPerElement) (a, false) = r at hclear hflag
  obtain ⟨b, overflow⟩ := r
  dsimp only at hclear hflag ⊢
  subst hclear
  rw [Params.pow10_eq]
  have hfill : ∀ i < p.size, fill 0 (k / p.digitsPerElement) 0 a i < p.base := fun i hi => by
    unfold fill
    split
    · exact hpos
    · exact ha i hi
  by_cases hi : k / p.digitsPerElement < p.size
  · rw [if_pos hi]
    have hself : fill 0 (k / p.digitsPerElement) 0 a (k / p.digitsPerElement) = a (k / p.digitsPerElement) :=
      if_neg (by omega)
    have hzero : val p.base (fill 0 (k / p.digitsPerElement) 0 a) (k / p.digitsPerElement) = 0 :=
      (val_eq_zero_iff hpos).mpr fun j hj => if_pos ⟨Nat.zero_le j, hj⟩
    have hhigh : val p.base (fun j => fill 0 (k / p.digitsPerElement) 0 a (k / p.digitsPerElement + 1 + j))
          (p.size - (k / p.digitsPerElement + 1)) =
        val p.base (fun j => a (k / p.digitsPerElement + 1 + j)) (p.size - (k / p.digitsPerElement + 1)) :=
      val_congr fun j hj => if_neg (by omega)
    have hlow := val_lt (n := k / p.digitsPerElement) fun j hj => ha j (by omega)
    have hmod := split_mod_eq_zero (a (k / p.digitsPerElement))
      (val p.base (fun j => a (k / p.digitsPerElement + 1 + j))
      (p.size - (k / p.digitsPerElement + 1))) hpos (Params.pow_dvd_base (p := p) k) hlow
    have hdiv := split_div (a (k / p.digitsPerElement))
      (val p.base (fun j => a (k / p.digitsPerElement + 1 + j))
      (p.size - (k / p.digitsPerElement + 1))) hPpos (Params.pow_dvd_base (p := p) k) hlow
    rw [← val_split hi, Params.pow_split] at hmod hdiv
    have hup : (overflow = true ∨ fill 0 (k / p.digitsPerElement) 0 a (k / p.digitsPerElement) %
        10 ^ (k % p.digitsPerElement) ≠ 0) ↔ ¬ val p.base a p.size % 10 ^ k = 0 := by
      rw [hmod, hself, hflag]
      omega
    by_cases hexact : val p.base a p.size % 10 ^ k = 0
    · have hval : val p.base (fill 0 (k / p.digitsPerElement) 0 a) p.size = val p.base a p.size := by
        rw [val_split hi, val_split hi, hzero, hself, hhigh, (hmod.mp hexact).1]
      have hno : overflow = false := by
        rw [← Bool.not_eq_true, hflag, (hmod.mp hexact).1]
        simp
      rw [if_neg (fun h => hup.mp h hexact), if_pos hexact, Nat.add_zero, Nat.div_mul_cancel (Nat.dvd_of_mod_eq_zero hexact)]
      subst hno
      refine ⟨⟨fun h => by simp at h, fun h => by omega⟩, fun _ => ⟨hfill, hval⟩⟩
    · rw [if_pos (hup.mpr hexact), if_neg hexact]
      have hspec := ceilElement_spec (p := p) hi hfill hzero (Params.pow_dvd_base k)
      rw [hself, hhigh] at hspec
      have hvalue : p.base ^ (k / p.digitsPerElement) *
            ((a (k / p.digitsPerElement) / 10 ^ (k % p.digitsPerElement) + 1) * 10 ^ (k % p.digitsPerElement) +
              p.base * val p.base (fun j => a (k / p.digitsPerElement + 1 + j)) (p.size - (k / p.digitsPerElement + 1))) =
          (val p.base a p.size / 10 ^ k + 1) * 10 ^ k := by
        rw [hdiv, ← Params.pow_split (p := p) k]
        have hB : p.base / 10 ^ (k % p.digitsPerElement) * 10 ^ (k % p.digitsPerElement) = p.base :=
          Nat.div_mul_cancel (Params.pow_dvd_base k)
        calc p.base ^ (k / p.digitsPerElement) *
              ((a (k / p.digitsPerElement) / 10 ^ (k % p.digitsPerElement) + 1) * 10 ^ (k % p.digitsPerElement) +
                p.base * val p.base (fun j => a (k / p.digitsPerElement + 1 + j)) (p.size - (k / p.digitsPerElement + 1)))
            = p.base ^ (k / p.digitsPerElement) *
              ((a (k / p.digitsPerElement) / 10 ^ (k % p.digitsPerElement) + 1) * 10 ^ (k % p.digitsPerElement) +
                p.base / 10 ^ (k % p.digitsPerElement) * 10 ^ (k % p.digitsPerElement) *
                  val p.base (fun j => a (k / p.digitsPerElement + 1 + j)) (p.size - (k / p.digitsPerElement + 1))) := by
              rw [hB]
          _ = _ := by ring
      rw [hvalue] at hspec
      exact hspec
  · rw [if_neg hi]
    have hle := Params.pow_total_le_of_index (Nat.not_lt.mp hi)
    have hzero : ∀ i < p.size, fill 0 (k / p.digitsPerElement) 0 a i = 0 := fun i hi' => if_pos (by omega)
    have hlt : val p.base a p.size < 10 ^ k := by omega
    have hindex : k / p.digitsPerElement = p.size := by
      have h1 := (Params.size_spec (p := p)).1
      have h2 : k / p.digitsPerElement ≤ p.size := by
        refine Nat.le_of_mul_le_mul_right ?_ (Params.digitsPerElement_pos (p := p))
        have := Nat.div_mul_le_self k p.digitsPerElement
        omega
      omega
    rw [hindex] at hflag hzero
    rw [Nat.div_eq_of_lt hlt, Nat.mod_eq_of_lt hlt, Nat.zero_add, hindex]
    refine ⟨?_, fun hf => ?_⟩
    · rw [hflag]
      split
      · next h0 =>
        have : 0 < 10 ^ p.total := Nat.pow_pos (by decide)
        omega
      · next hne => exact ⟨fun _ => by omega, fun _ => hne⟩
    · subst hf
      have h0 : val p.base a p.size = 0 := by
        by_contra hne
        exact absurd (hflag.mpr hne) (by decide)
      rw [h0, if_pos rfl, Nat.zero_mul, (val_eq_zero_iff hpos).mpr hzero]
      exact ⟨fun j hj => Nat.lt_of_le_of_lt (Nat.le_of_eq (hzero j hj)) hpos, rfl⟩

theorem ceilArray_low (ha : ∀ i < p.size, a i < p.base) (hover : (ceilArray p k a).2 = true) :
    val p.base (ceilArray p k a).1 p.size % 10 ^ k = 0 := by
  have hpos := Params.base_pos (p := p)
  obtain ⟨hclear, -⟩ := clearLoop_eq (p := p) (a := a) (n := k / p.digitsPerElement)
  unfold ceilArray at hover ⊢
  dsimp only at hover ⊢
  generalize forUp clearBody (k / p.digitsPerElement) (a, false) = r at hclear hover
  obtain ⟨b, overflow⟩ := r
  dsimp only at hclear hover ⊢
  subst hclear
  rw [Params.pow10_eq] at hover ⊢
  have hfill : ∀ i < p.size, fill 0 (k / p.digitsPerElement) 0 a i < p.base := fun i hi => by
    unfold fill
    split
    · exact hpos
    · exact ha i hi
  by_cases hi : k / p.digitsPerElement < p.size
  · rw [if_pos hi] at hover ⊢
    by_cases hup : overflow = true ∨ fill 0 (k / p.digitsPerElement) 0 a (k / p.digitsPerElement) %
      10 ^ (k % p.digitsPerElement) ≠ 0
    · rw [if_pos hup]
      obtain ⟨hbelow, hdvd⟩ := ceilElement_low hi hfill (Params.pow_dvd_base k)
      have hlow : val p.base (ceilElement p (k / p.digitsPerElement) (10 ^ (k % p.digitsPerElement))
          (fill 0 (k / p.digitsPerElement) 0 a)).1 (k / p.digitsPerElement) = 0 :=
        (val_eq_zero_iff hpos).mpr fun j hj => (hbelow j hj).trans (if_pos ⟨Nat.zero_le j, hj⟩)
      rw [val_split hi, ← Params.pow_split (p := p) k]
      exact (split_mod_eq_zero _ _ hpos (Params.pow_dvd_base k)
        (hlow.trans_lt (Nat.pow_pos hpos))).mpr ⟨hlow, Nat.mod_eq_zero_of_dvd hdvd⟩
    · rw [if_neg hup] at hover
      exact absurd (Or.inl hover) hup
  · rw [if_neg hi]
    have hzero : val p.base (fill 0 (k / p.digitsPerElement) 0 a) p.size = 0 :=
      (val_eq_zero_iff hpos).mpr fun i hi' => if_pos (by omega)
    rw [hzero, Nat.zero_mod]

theorem Decimal.floor_spec (h : d.Valid p) (n : Nat) : (d.floor p n).Valid p ∧
    (d.floor p n).magnitude p = d.magnitude p / 10 ^ (p.fraction - n) * 10 ^ (p.fraction - n) ∧
    (d.floor p n).negative = d.negative := by
  unfold Decimal.floor
  split
  · next hn =>
    rw [show p.fraction - n = 0 by omega, Nat.pow_zero, Nat.div_one, Nat.mul_one]
    exact ⟨h, rfl, rfl⟩
  · obtain ⟨hd, hm⟩ := floorArray_spec h.digit h.magnitude_lt (p.fraction - n)
    refine ⟨Decimal.valid_of_magnitude_lt hd ?_, hm, rfl⟩
    refine Nat.lt_of_le_of_lt ?_ h.magnitude_lt
    exact (Nat.le_of_eq hm).trans (Nat.div_mul_le_self _ _)

theorem Decimal.ceil_spec (h : d.Valid p) (n : Nat) :
    Spec (Decimal.ceil p n) d
      (fun _ d' => d'.Valid p ∧ d'.magnitude p = ceilMagnitude (p.fraction - n) (d.magnitude p) ∧ d'.negative = d.negative)
      (fun e _ => e = .overflow ∧ 10 ^ p.total ≤ ceilMagnitude (p.fraction - n) (d.magnitude p)) := by
  unfold Decimal.ceil
  refine Spec.ite (fun hn => Spec.pure ?_) (fun hn => Spec.bind (Spec.get ?_))
  · rw [show p.fraction - n = 0 by omega, ceilMagnitude, Nat.pow_zero, Nat.div_one, Nat.mul_one, Nat.add_sub_cancel]
    exact ⟨h, rfl, rfl⟩
  · have hk : p.fraction - n ≤ p.total := Nat.le_trans (Nat.sub_le _ _) p.fraction_le
    obtain ⟨hover, hok⟩ := ceilArray_spec h.digit h.magnitude_lt hk
    refine Spec.bind (Spec.set (Spec.ite (fun ht => Spec.throw ⟨rfl, hover.mp ht⟩) (fun hf => Spec.pure ?_)))
    obtain ⟨hd, hm⟩ := hok (Bool.not_eq_true _ ▸ hf)
    refine ⟨Decimal.valid_of_magnitude_lt hd ?_, hm, rfl⟩
    have := mt hover.mpr hf
    exact hm.trans_lt (Nat.not_le.mp this)

end UnixCommons.Generics
