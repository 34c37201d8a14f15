import UnixCommons.Generics.DecimalOp

/-!
# 正確な操作への対応

`Decimal` の操作は、`DMR_CEIL` の見落としを除いて、整数の上の正確な操作である。
-/

namespace UnixCommons.Generics

open Lib

variable {p : Params} {s : SimpleParams} {a b d : Decimal} {x y : SimpleDecimal} {op : DecimalOp} {u v w : Int}

/-! ## 符号 -/

theorem signed_mul {n₁ n₂ : Bool} {A B m : Nat} (h0 : A = 0 ∨ B = 0 → m = 0) :
    (if (n₁ != n₂) = true then -(m : Int) else m) =
      signedBy ((if n₁ then -(A : Int) else A) * (if n₂ then -(B : Int) else B)) m := by
  unfold signedBy
  by_cases hz : A = 0 ∨ B = 0
  · rw [h0 hz]
    simp
  · have hpos : (0 : Int) < A * B := Int.mul_pos (by omega) (by omega)
    cases n₁ <;> cases n₂ <;> simp <;> omega

theorem signed_self {n : Bool} {A m : Nat} (h0 : A = 0 → m = 0) :
    (if n then -(m : Int) else m) = signedBy (if n then -(A : Int) else A) m := by
  unfold signedBy
  by_cases hA : A = 0
  · rw [h0 hA]
    simp
  · cases n <;> simp <;> omega

theorem exactProduct_zero {dmr : DecimalMulRemainder} : exactProduct p dmr 0 = 0 := by
  have hpos : 0 < 10 ^ p.fraction := Nat.pow_pos (by decide)
  unfold exactProduct
  cases dmr with
  | floor => exact Nat.zero_div _
  | round => exact Nat.div_eq_of_lt (by omega)
  | ceil => exact Nat.div_eq_of_lt (by omega)

theorem exactQuotient_zero {ddr : DecimalDivRemainder} {B : Nat} (hB : 0 < B) : exactQuotient p ddr 0 B = 0 := by
  unfold exactQuotient
  cases ddr with
  | floor =>
      rw [Nat.zero_mul]
      exact Nat.zero_div _
  | ceil =>
      rw [Nat.zero_mul]
      exact Nat.div_eq_of_lt (by omega)

theorem ceilMagnitude_zero {k : Nat} : ceilMagnitude k 0 = 0 := by
  rw [ceilMagnitude_eq, Nat.zero_mod, if_pos rfl, Nat.zero_div, Nat.add_zero, Nat.zero_mul]

theorem decimalText_sign {F m : Nat} {n : Bool} :
    decimalText F n m = decimalText F (decide ((if n then -(m : Int) else m) < 0)) m := by
  have hsign : (n = true ∧ m ≠ 0) ↔ decide ((if n then -(m : Int) else m) < 0) = true ∧ m ≠ 0 := by
    rw [decide_eq_true_eq]
    cases n <;> simp
    omega
  unfold decimalText
  rw [if_congr hsign rfl rfl]

theorem map_eq_bounded {α : Type} {fault : Fault} {f : α → Int} {c : Except Fault α}
    (h : Returns c (fun d => f d = w ∧ w.natAbs < 10 ^ p.total) fun e => e = fault ∧
    10 ^ p.total ≤ w.natAbs) : (c.map fun d => DecimalResult.value (f d)) = bounded p fault w := by
  unfold bounded
  cases c with
  | ok d =>
      obtain ⟨hf, hlt⟩ := h
      rw [if_pos hlt, ← hf]
      rfl
  | error e =>
      obtain ⟨rfl, hle⟩ := h
      rw [if_neg (by omega)]
      rfl

/-! ## `Decimal` -/

theorem Decimal.Valid.value_lt (h : d.Valid p) : (d.value p).natAbs < 10 ^ p.total := by
  rw [Decimal.value_natAbs]
  exact h.magnitude_lt

theorem withResult_spec {c : EStateM Fault (Place → Decimal) PUnit}
    (h : Spec c (Place.store a b (Decimal.invalid p))
      (fun _ m' => Stored p .result (Place.store a b (Decimal.invalid p)) m' w)
      fun e _ => e = .overflow ∧ 10 ^ p.total ≤ w.natAbs) :
    Returns (withResult p c a b) (fun d => d.value p = w ∧ w.natAbs < 10 ^ p.total)
      fun e => e = .overflow ∧ 10 ^ p.total ≤ w.natAbs := by
  unfold withResult
  cases hc : c.run (Place.store a b (Decimal.invalid p)) with
  | ok _ m =>
      have hm := h.ok hc
      refine ⟨hm.value, ?_⟩
      rw [← hm.value]
      exact hm.valid.value_lt
  | error e m => exact h.error hc

theorem Decimal.plus_spec (ha : a.Valid p) (hb : b.Valid p) :
    Returns (a.plus p b) (fun d => d.value p = a.value p + b.value p ∧ (a.value p + b.value p).natAbs < 10 ^ p.total)
      fun e => e = .overflow ∧ 10 ^ p.total ≤ (a.value p + b.value p).natAbs := by
  have h : Spec (Decimal.add p .left .right .result) (Place.store a b (Decimal.invalid p)) _ _ := add_spec ha hb
  exact withResult_spec h

theorem Decimal.minus_spec (ha : a.Valid p) (hb : b.Valid p) :
    Returns (a.minus p b) (fun d => d.value p = a.value p - b.value p ∧ (a.value p - b.value p).natAbs < 10 ^ p.total)
      fun e => e = .overflow ∧ 10 ^ p.total ≤ (a.value p - b.value p).natAbs := by
  have h : Spec (Decimal.sub p .left .right .result) (Place.store a b (Decimal.invalid p)) _ _ := sub_spec ha hb
  exact withResult_spec h

theorem Decimal.value_eq_zero_iff : d.value p = 0 ↔ d.magnitude p = 0 := by
  have := Decimal.value_natAbs (p := p) (d := d)
  omega

theorem divInner_zero (hb : b.Valid p) (hz : b.magnitude p = 0) (q : Decimal) : a.divInner p b q = .error .overflow := by
  obtain ⟨hV, -⟩ := (DivTmp.divisor_holds hb).1.shrink
  have hall := (val_eq_zero_iff Params.base_pos).mp (hV.value.trans hz)
  have hmax : (DivTmp.divisor p b).shrink.maxElement = 0 := by
    have h1 := hV.size_pos
    have h2 := hV.size_le
    exact hall _ (by omega)
  unfold Decimal.divInner
  dsimp only
  rw [if_pos hmax]
  rfl

theorem div_zero (hb : b.Valid p) (hz : b.magnitude p = 0) (ddr : DecimalDivRemainder) :
    Decimal.div p a b ddr = .error .overflow := by
  unfold Decimal.div
  rw [divInner_zero hb hz]
  rfl

theorem divRemainder_zero (hb : b.Valid p) (hz : b.magnitude p = 0) : a.divRemainder p b = .error .overflow := by
  unfold Decimal.divRemainder
  rw [divInner_zero hb hz]
  rfl

theorem value_of_sign {n : Bool} {m : Nat} (hm : d.magnitude p = m) (hn : d.negative = n) :
    d.value p = if n then -(m : Int) else m := by
  subst hm hn
  rfl

theorem divRemainder_spec (ha : a.Valid p) (hb : b.Valid p) (hz : b.magnitude p ≠ 0) :
    Returns (a.divRemainder p b)
      (fun r => exactQuotient p .floor (a.magnitude p) (b.magnitude p) < 10 ^ p.total ∧
        r.1.value p = signedBy (a.value p * b.value p) (exactQuotient p .floor (a.magnitude p) (b.magnitude p)) ∧
        r.2.value p = a.value p - signedBy (a.value p) (quotientProduct p (a.magnitude p) (b.magnitude p)))
      fun e => e = .overflow ∧ 10 ^ p.total ≤ exactQuotient p .floor (a.magnitude p) (b.magnitude p) := by
  have hpos : 0 < 10 ^ p.fraction := Nat.pow_pos (by decide)
  have hle : quotientProduct p (a.magnitude p) (b.magnitude p) ≤ a.magnitude p := quotient_product_le hpos
  have hsigned : ∀ q : Decimal, q.magnitude p = a.magnitude p * 10 ^ p.fraction / b.magnitude p →
      q.negative = (a.negative != b.negative) →
      q.value p = signedBy (a.value p * b.value p) (exactQuotient p .floor (a.magnitude p) (b.magnitude p)) := by
    intro q hm hn
    rw [value_of_sign hm hn]
    refine signed_mul (A := a.magnitude p) (B := b.magnitude p) ?_
    rintro (h0 | h0)
    · rw [h0, Nat.zero_mul, Nat.zero_div]
    · exact absurd h0 hz
  unfold Decimal.divRemainder
  refine Returns.bind ((divInner_spec ha hb hz (Decimal.invalid p)).mono ?_ fun _ he => he)
  rintro ⟨less, q⟩ ⟨hq, hm, hn, hless⟩
  dsimp only at hq hm hn hless ⊢
  have hfits : exactQuotient p .floor (a.magnitude p) (b.magnitude p) < 10 ^ p.total := by
    rw [exactQuotient, ← hm]
    exact hq.magnitude_lt
  refine Returns.ite (fun ht => Returns.pure ⟨hfits, hsigned q hm hn, ?_⟩) (fun hf => ?_)
  · have h0 : quotientProduct p (a.magnitude p) (b.magnitude p) = 0 := by
      rw [quotientProduct, ← hm, hless ht, Nat.zero_mul, Nat.zero_div]
    rw [h0]
    unfold signedBy
    split <;> simp
  · refine Returns.bind ((quotient_product_spec ha hb hq hm hn).mono ?_ fun _ hF => hF.elim)
    rintro d ⟨hd, hdm, hdn⟩
    replace hdm : d.magnitude p = quotientProduct p (a.magnitude p) (b.magnitude p) := hdm
    have hval : d.value p = signedBy (a.value p) (quotientProduct p (a.magnitude p) (b.magnitude p)) := by
      rw [value_of_sign hdm hdn]
      exact signed_self (A := a.magnitude p) fun h0 => by omega
    refine Returns.bind ((Decimal.minus_spec ha hd).mono ?_ ?_)
    · rintro r ⟨hr, -⟩
      exact Returns.pure ⟨hfits, hsigned q hm hn, by rw [hr, hval]⟩
    · rintro e ⟨-, hover⟩
      have hva := ha.magnitude_lt
      unfold Decimal.value at hover
      rw [hdn] at hover
      split at hover <;> omega

theorem Decimal.perform_eq (ha : a.Valid p) (hb : b.Valid p)
    (hop : op = .mul .ceil → CeilSeen p (a.magnitude p * b.magnitude p)) :
    Decimal.perform p op a b = op.exact p .overflow (a.value p) (b.value p) := by
  unfold Decimal.perform DecimalOp.exact
  cases op with
  | add => exact map_eq_bounded (Decimal.plus_spec ha hb)
  | sub => exact map_eq_bounded (Decimal.minus_spec ha hb)
  | mul dmr =>
      dsimp only
      rw [Decimal.value_natAbs, Decimal.value_natAbs]
      refine map_eq_bounded ((mul_spec_of_seen ha hb ?_).mono ?_ ?_)
      · by_cases hd : dmr = .ceil
        · exact Or.inr (hop (by rw [hd]))
        · exact Or.inl hd
      · rintro d ⟨hv, hm, hn⟩
        rw [natAbs_signedBy, ← hm]
        refine ⟨?_, hv.magnitude_lt⟩
        rw [value_of_sign rfl hn, hm]
        refine signed_mul ?_
        rintro (h0 | h0)
        · rw [h0, Nat.zero_mul, exactProduct_zero]
        · rw [h0, Nat.mul_zero, exactProduct_zero]
      · intro e he
        rw [natAbs_signedBy]
        exact he
  | div ddr =>
      dsimp only
      by_cases hz : b.magnitude p = 0
      · rw [div_zero hb hz, if_pos (Decimal.value_eq_zero_iff.mpr hz)]
        rfl
      · rw [if_neg (mt Decimal.value_eq_zero_iff.mp hz), Decimal.value_natAbs, Decimal.value_natAbs]
        refine map_eq_bounded ((div_spec ha hb hz ddr).mono ?_ ?_)
        · rintro d ⟨hv, hm, hn⟩
          rw [natAbs_signedBy, ← hm]
          refine ⟨?_, hv.magnitude_lt⟩
          rw [value_of_sign rfl hn, hm]
          refine signed_mul ?_
          rintro (h0 | h0)
          · rw [h0, exactQuotient_zero (Nat.pos_of_ne_zero hz)]
          · exact absurd h0 hz
        · intro e he
          rw [natAbs_signedBy]
          exact he
  | divRemainder =>
      dsimp only
      by_cases hz : b.magnitude p = 0
      · rw [divRemainder_zero hb hz, if_pos (Decimal.value_eq_zero_iff.mpr hz)]
        rfl
      · rw [if_neg (mt Decimal.value_eq_zero_iff.mp hz), Decimal.value_natAbs, Decimal.value_natAbs]
        have hspec := divRemainder_spec ha hb hz
        cases hc : a.divRemainder p b with
        | ok r =>
            obtain ⟨hfits, hq, hr⟩ := hspec.of_ok hc
            rw [if_pos hfits, ← hq, ← hr]
            rfl
        | error e =>
            obtain ⟨rfl, hover⟩ := hspec.of_error hc
            rw [if_neg (by omega)]
            rfl
  | floor fraction =>
      dsimp only
      obtain ⟨-, hm, hn⟩ := Decimal.floor_spec ha fraction
      rw [value_of_sign hm hn, Decimal.value_natAbs]
      refine congrArg (fun w => Except.ok (DecimalResult.value w)) (signed_self fun h0 => ?_)
      rw [h0, Nat.zero_div, Nat.zero_mul]
  | ceil fraction =>
      dsimp only
      have hspec := Decimal.ceil_spec ha fraction
      rw [Decimal.value_natAbs]
      unfold bounded
      rw [natAbs_signedBy]
      cases hc : (Decimal.ceil p fraction).run a with
      | ok _ d =>
          obtain ⟨hv, hm, hn⟩ := hspec.ok hc
          dsimp only
          rw [value_of_sign hm hn, ← hm, if_pos hv.magnitude_lt, hm]
          refine congrArg (fun w => Except.ok (DecimalResult.value w)) (signed_self fun h0 => ?_)
          rw [h0, ceilMagnitude_zero]
      | error e d =>
          obtain ⟨rfl, hover⟩ := hspec.error hc
          rw [if_neg (by omega)]
  | eq => exact congrArg (fun c => Except.ok (DecimalResult.flag c)) (Bool.eq_iff_iff.mpr (by simp [Decimal.eq_iff ha hb]))
  | lt => exact congrArg (fun c => Except.ok (DecimalResult.flag c)) (Bool.eq_iff_iff.mpr (by simp [Decimal.lt_iff ha hb]))
  | str =>
      dsimp only
      rw [Decimal.str_spec ha, Decimal.value_natAbs]
      exact congrArg (fun t => Except.ok (DecimalResult.text t)) decimalText_sign

/-! ## `SimpleDecimal` -/

theorem SimpleDecimal.value_eq_zero_iff : x.value = 0 ↔ x.data = 0 := by
  have := SimpleDecimal.value_natAbs (x := x)
  omega

theorem SimpleDecimal.value_of_sign {d : SimpleDecimal} {n : Bool} {m : Nat} (hm : d.data = m)
    (hn : d.negative = n) : d.value = if n then -(m : Int) else m := by
  subst hm hn
  rfl

theorem SimpleDecimal.Valid.value_lt {d : SimpleDecimal} (hT : s.total = p.total) (h : d.Valid s) :
    d.value.natAbs < 10 ^ p.total := by
  rw [SimpleDecimal.value_natAbs, ← hT]
  exact h

theorem SimpleDecimal.divRemainder_spec (hr : s.toRanks = p.toRanks) (hx : x.Valid s)
    (hy : y.Valid s) (hz : y.data ≠ 0) : Returns (x.divRemainder s y)
      (fun r => exactQuotient p .floor x.data y.data < 10 ^ p.total ∧
        r.1.value = signedBy (x.value * y.value) (exactQuotient p .floor x.data y.data) ∧
        r.2.value = x.value - signedBy x.value (quotientProduct p x.data y.data))
      fun e => e = printFault s.toRanks x.value y.value ∧ 10 ^ p.total ≤ exactQuotient p .floor x.data y.data := by
  have hT : s.total = p.total := congrArg Ranks.total hr
  have hlx : x.data < 10 ^ s.total := hx
  have hpos : 0 < 10 ^ p.fraction := Nat.pow_pos (by decide)
  have hle : quotientProduct p x.data y.data ≤ x.data := quotient_product_le hpos
  have hfloor : ∀ X, exactProduct p .floor X = X / 10 ^ p.fraction := fun X => rfl
  unfold SimpleDecimal.divRemainder
  refine Returns.bind ((SimpleDecimal.div_spec hr hx hy hz .floor).mono ?_ ?_)
  · rintro q ⟨hq, hm, hn⟩
    have hsigned : q.value = signedBy (x.value * y.value) (exactQuotient p .floor x.data y.data) := by
      rw [SimpleDecimal.value_of_sign hm hn]
      refine signed_mul (A := x.data) (B := y.data) ?_
      rintro (h0 | h0)
      · rw [h0, exactQuotient_zero (Nat.pos_of_ne_zero hz)]
      · exact absurd h0 hz
    have hprod : q.data * y.data / 10 ^ p.fraction = quotientProduct p x.data y.data := by
      rw [hm]
      rfl
    refine Returns.bind ((SimpleDecimal.mul_spec hr hq hy .floor).mono ?_ ?_)
    · rintro d ⟨hd, hdm, hdn⟩
      rw [hfloor, hprod] at hdm
      have hdn' : d.negative = x.negative := by
        rw [hdn, hn]
        cases x.negative <;> cases y.negative <;> rfl
      have hval : d.value = signedBy x.value (quotientProduct p x.data y.data) := by
        rw [SimpleDecimal.value_of_sign hdm hdn']
        exact signed_self (A := x.data) fun h0 => by omega
      refine Returns.bind ((SimpleDecimal.sub_spec hx hd).mono ?_ ?_)
      · rintro r ⟨-, hr⟩
        refine Returns.pure ⟨?_, hsigned, by rw [hr, hval]⟩
        rw [← hm, ← hT]
        exact hq
      · rintro e ⟨-, hover⟩
        unfold SimpleDecimal.value at hover
        rw [hdn'] at hover
        split at hover <;> omega
    · rintro e ⟨-, hover⟩
      rw [hfloor, hprod] at hover
      omega
  · rintro e ⟨he, hover⟩
    exact ⟨he, hT ▸ hover⟩

def DecimalOp.fault (r : Ranks) (op : DecimalOp) (u v : Int) : Fault :=
  match op with
  | .ceil _ => printFault r u u
  | _ => printFault r u v

theorem SimpleDecimal.perform_eq (hr : s.toRanks = p.toRanks) (hx : x.Valid s) (hy : y.Valid s) (hop : op ≠ .str) :
    SimpleDecimal.perform s op x y = op.exact p (op.fault s.toRanks x.value y.value) x.value y.value := by
  have hT : s.total = p.total := congrArg Ranks.total hr
  have hF : s.fraction = p.fraction := congrArg Ranks.fraction hr
  unfold SimpleDecimal.perform DecimalOp.exact DecimalOp.fault
  cases op with
  | add =>
      refine map_eq_bounded ((SimpleDecimal.add_spec hx hy).mono ?_ ?_)
      · rintro d ⟨hv, hd⟩
        exact ⟨hd, hd ▸ hv.value_lt hT⟩
      · exact fun e he => hT ▸ he
  | sub =>
      refine map_eq_bounded ((SimpleDecimal.sub_spec hx hy).mono ?_ ?_)
      · rintro d ⟨hv, hd⟩
        exact ⟨hd, hd ▸ hv.value_lt hT⟩
      · exact fun e he => hT ▸ he
  | mul dmr =>
      dsimp only
      rw [SimpleDecimal.value_natAbs, SimpleDecimal.value_natAbs]
      refine map_eq_bounded ((SimpleDecimal.mul_spec hr hx hy dmr).mono ?_ ?_)
      · rintro d ⟨hv, hm, hn⟩
        have hsigned : d.value = signedBy (x.value * y.value) (exactProduct p dmr (x.data * y.data)) := by
          rw [SimpleDecimal.value_of_sign hm hn]
          refine signed_mul ?_
          rintro (h0 | h0)
          · rw [h0, Nat.zero_mul, exactProduct_zero]
          · rw [h0, Nat.mul_zero, exactProduct_zero]
        exact ⟨hsigned, hsigned ▸ hv.value_lt hT⟩
      · intro e he
        rw [natAbs_signedBy]
        exact hT ▸ he
  | div ddr =>
      dsimp only
      by_cases hz : y.data = 0
      · rw [if_pos (SimpleDecimal.value_eq_zero_iff.mpr hz), SimpleDecimal.div, if_pos hz]
        rfl
      · rw [if_neg (mt SimpleDecimal.value_eq_zero_iff.mp hz), SimpleDecimal.value_natAbs, SimpleDecimal.value_natAbs]
        refine map_eq_bounded ((SimpleDecimal.div_spec hr hx hy hz ddr).mono ?_ ?_)
        · rintro d ⟨hv, hm, hn⟩
          have hsigned : d.value = signedBy (x.value * y.value) (exactQuotient p ddr x.data y.data) := by
            rw [SimpleDecimal.value_of_sign hm hn]
            refine signed_mul ?_
            rintro (h0 | h0)
            · rw [h0, exactQuotient_zero (Nat.pos_of_ne_zero hz)]
            · exact absurd h0 hz
          exact ⟨hsigned, hsigned ▸ hv.value_lt hT⟩
        · intro e he
          rw [natAbs_signedBy]
          exact hT ▸ he
  | divRemainder =>
      dsimp only
      by_cases hz : y.data = 0
      · rw [if_pos (SimpleDecimal.value_eq_zero_iff.mpr hz), SimpleDecimal.divRemainder, SimpleDecimal.div, if_pos hz]
        rfl
      · rw [if_neg (mt SimpleDecimal.value_eq_zero_iff.mp hz), SimpleDecimal.value_natAbs, SimpleDecimal.value_natAbs]
        have hspec := SimpleDecimal.divRemainder_spec hr hx hy hz
        cases hc : x.divRemainder s y with
        | ok r =>
            obtain ⟨hfits, hq, hrem⟩ := hspec.of_ok hc
            rw [if_pos hfits, ← hq, ← hrem]
            rfl
        | error e =>
            obtain ⟨rfl, hover⟩ := hspec.of_error hc
            rw [if_neg (by omega)]
            rfl
  | floor fraction =>
      dsimp only
      obtain ⟨-, hm, hn⟩ := SimpleDecimal.floor_spec hx fraction
      rw [SimpleDecimal.value_of_sign hm hn, SimpleDecimal.value_natAbs, hF]
      refine congrArg (fun w => Except.ok (DecimalResult.value w)) (signed_self fun h0 => ?_)
      rw [h0, Nat.zero_div, Nat.zero_mul]
  | ceil fraction =>
      dsimp only
      rw [SimpleDecimal.value_natAbs]
      refine map_eq_bounded ((SimpleDecimal.ceil_spec hx fraction).mono ?_ ?_)
      · rintro d ⟨hv, hm, hn⟩
        rw [hF] at hm
        have hsigned : d.value = signedBy x.value (ceilMagnitude (p.fraction - fraction) x.data) := by
          rw [SimpleDecimal.value_of_sign hm hn]
          refine signed_self fun h0 => ?_
          rw [h0, ceilMagnitude_zero]
        exact ⟨hsigned, hsigned ▸ hv.value_lt hT⟩
      · rintro e ⟨he, hover⟩
        rw [natAbs_signedBy, ← hT, ← hF]
        exact ⟨he, hover⟩
  | eq => exact congrArg (fun c => Except.ok (DecimalResult.flag c)) (Bool.eq_iff_iff.mpr (by simp [SimpleDecimal.eq_iff]))
  | lt => exact congrArg (fun c => Except.ok (DecimalResult.flag c)) (Bool.eq_iff_iff.mpr (by simp [SimpleDecimal.lt_iff]))
  | str => exact absurd rfl hop

end UnixCommons.Generics
