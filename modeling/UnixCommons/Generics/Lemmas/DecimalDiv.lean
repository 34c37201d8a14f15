import UnixCommons.Generics.Lemmas.DecimalAdd
import UnixCommons.Generics.Lemmas.DecimalConstruct
import UnixCommons.Generics.Lemmas.DecimalMul
import UnixCommons.Generics.Lemmas.Quotient

/-! # 割り算の補題 -/

namespace UnixCommons.Generics

open Lib

variable {p : Params} {divisor dividend : DivTmp} {V U n k i m : Nat} {s : DivTmp × (Nat → Nat)} {array : Nat → Nat}

/-! ## 長い除数 -/

structure QuotientInv (p : Params) (V U k : Nat) (s : DivTmp × (Nat → Nat)) : Prop where
  dividend : s.1.Holds p p.divTmpSize (val p.base s.1.tmpArray p.divTmpSize)
  lt : val p.base s.1.tmpArray p.divTmpSize < V * p.base ^ k
  value : val p.base s.1.tmpArray p.divTmpSize + V * (p.base ^ k * val p.base (fun j => s.2 (k + j)) (p.size - k)) = U
  digit : ∀ j, k ≤ j → j < p.size → s.2 j < p.base
  last : k < p.size → s.2 (p.size - 1) < p.integerMaxOver

theorem pow_total_mul_le {q Q X : Nat} (hi : p.size ≤ i ∧ 0 < q ∨ i = p.size - 1 ∧ p.integerMaxOver ≤ q)
    (hU : X + V * (p.base ^ i * (q + p.base * Q)) = U) : 10 ^ p.total * V ≤ U := by
  have hle : 10 ^ p.total ≤ p.base ^ i * (q + p.base * Q) := by
    rcases hi with ⟨hi, hq⟩ | ⟨rfl, hq⟩
    · calc 10 ^ p.total ≤ p.base ^ p.size := Params.pow_total_le
        _ ≤ p.base ^ i := Nat.pow_le_pow_right Params.base_pos hi
        _ ≤ p.base ^ i * (q + p.base * Q) := Nat.le_mul_of_pos_right _ (Nat.lt_of_lt_of_le hq (Nat.le_add_right _ _))
    · rw [← Params.pow_total]
      exact Nat.mul_le_mul_left _ (Nat.le_trans hq (Nat.le_add_right _ _))
  have := Nat.mul_le_mul_left V hle
  rw [Nat.mul_comm]
  omega

theorem QuotientInv.next (h : QuotientInv p V U (i + 1) s) (hV : val p.base divisor.tmpArray n = V)
    (hn : divisor.initialSize = n) (hn₂ : 2 ≤ n) (hin : i + n < p.divTmpSize)
    (hv : ∀ j < n, divisor.tmpArray j < p.base) (hmax : 0 < divisor.tmpArray (n - 1)) :
    Returns (nextQuotient p i (divisor.tmpArray (n - 1)) (divisor.tmpArray (n - 2)) divisor
      s.1.tmpArray) (fun r => r.1 < p.base ∧
        DivTmp.Holds p p.divTmpSize ⟨r.2, s.1.size, s.1.initialSize⟩ (val p.base r.2 p.divTmpSize) ∧
        val p.base r.2 p.divTmpSize < V * p.base ^ i ∧
        val p.base r.2 p.divTmpSize +
          V * (p.base ^ i * (r.1 + p.base * val p.base (fun j => s.2 (i + 1 + j)) (p.size - (i + 1)))) = U)
      fun _ => False := by
  have hpos := Params.base_pos (p := p)
  have hVlt : V < p.base ^ n := by
    rw [← hV]
    exact val_lt hv
  have hsum : i + (n + 1) ≤ p.divTmpSize := by omega
  -- 窓より上の要素は零である。
  have hX : val p.base s.1.tmpArray p.divTmpSize < p.base ^ (i + (n + 1)) :=
    calc val p.base s.1.tmpArray p.divTmpSize < V * p.base ^ (i + 1) := h.lt
      _ ≤ p.base ^ n * p.base ^ (i + 1) := Nat.mul_le_mul_right _ (Nat.le_of_lt hVlt)
      _ = p.base ^ (i + (n + 1)) := by rw [← Nat.pow_add]; congr 1; omega
  have hhigh : ∀ j, i + (n + 1) ≤ j → j < p.divTmpSize → s.1.tmpArray j = 0 := fun j hj hj' =>
    digit_eq_zero_of_val_lt hX hj hj' hpos
  have hsplit : val p.base s.1.tmpArray p.divTmpSize =
      val p.base s.1.tmpArray i + p.base ^ i * val p.base (fun j => s.1.tmpArray (i + j)) (n + 1) := by
    rw [val_eq_of_zero hsum hhigh, val_add]
  have hW : val p.base (fun j => s.1.tmpArray (i + j)) (n + 1) < p.base * V := by
    refine Nat.lt_of_mul_lt_mul_left (a := p.base ^ i) ?_
    have h1 := h.lt
    rw [hsplit, Nat.pow_succ, Nat.mul_comm V, Nat.mul_assoc] at h1
    omega
  have hd : ∀ j ≤ n, s.1.tmpArray (i + j) < p.base := fun j hj => h.dividend.digit _ (by omega)
  refine (nextQuotient_spec hn hn₂ (by omega) hd hv hmax (by rw [hV]; exact hW)).mono ?_ fun _ hF => hF
  rintro ⟨q, a⟩ ⟨hq, hdigit, hrem, hr, hrest⟩
  dsimp only at hq hdigit hrest ⊢
  replace hrem : val p.base (fun j => s.1.tmpArray (i + j)) (n + 1) =
    q * val p.base divisor.tmpArray n + val p.base (fun j => a (i + j)) (n + 1) := hrem
  replace hr : val p.base (fun j => a (i + j)) (n + 1) < val p.base divisor.tmpArray n := hr
  rw [hV] at hrem hr
  have hhigh' : ∀ j, i + (n + 1) ≤ j → j < p.divTmpSize → a j = 0 := fun j hj hj' => by
    rw [hrest j (Or.inr (by omega))]
    exact hhigh j hj hj'
  have hdigit' : ∀ j < p.divTmpSize, a j < p.base := fun j hj => by
    rcases Nat.lt_or_ge j i with hji | hji
    · rw [hrest j (Or.inl hji)]
      exact h.dividend.digit j hj
    · rcases Nat.lt_or_ge (i + n) j with hjn | hjn
      · rw [hrest j (Or.inr hjn)]
        exact h.dividend.digit j hj
      · have := hdigit (j - i) (by omega)
        rwa [Nat.add_sub_cancel' hji] at this
  have hsplit' : val p.base a p.divTmpSize =
      val p.base s.1.tmpArray i + p.base ^ i * val p.base (fun j => a (i + j)) (n + 1) := by
    rw [val_eq_of_zero hsum hhigh', val_add, val_congr fun j hj => hrest j (Or.inl hj)]
  have hle : val p.base a p.divTmpSize ≤ val p.base s.1.tmpArray p.divTmpSize := by
    rw [hsplit, hsplit']
    refine Nat.add_le_add_left (Nat.mul_le_mul_left _ ?_) _
    rw [hrem]
    exact Nat.le_add_left _ _
  have hlow : val p.base s.1.tmpArray i < p.base ^ i := val_lt fun j hj => h.dividend.digit j (by omega)
  refine ⟨hq, ⟨hdigit', h.dividend.size_pos, h.dividend.size_le, fun j hj hj' => ?_, rfl⟩, ?_, ?_⟩
  · exact digit_eq_zero_of_val_lt (Nat.lt_of_le_of_lt hle h.dividend.lt_pow) hj hj' hpos
  · calc val p.base a p.divTmpSize
        = val p.base s.1.tmpArray i + p.base ^ i * val p.base (fun j => a (i + j)) (n + 1) := hsplit'
      _ < p.base ^ i * (val p.base (fun j => a (i + j)) (n + 1) + 1) := by
          rw [Nat.mul_succ]
          omega
      _ ≤ p.base ^ i * V := Nat.mul_le_mul_left _ hr
      _ = V * p.base ^ i := Nat.mul_comm _ _
  · rw [hsplit']
    refine quotient_step ?_ hrem
    rw [← hsplit]
    exact h.value

theorem divBody_spec (h : QuotientInv p V U (i + 1) s) (hV : val p.base divisor.tmpArray n = V)
    (hn : divisor.initialSize = n) (hn₂ : 2 ≤ n) (hin : i + n < p.divTmpSize) (hi : i ≤ p.size)
    (hv : ∀ j < n, divisor.tmpArray j < p.base) (hmax : 0 < divisor.tmpArray (n - 1)) :
    Returns (divBody p (divisor.tmpArray (n - 1)) (divisor.tmpArray (n - 2)) divisor i s)
      (QuotientInv p V U i) fun e => e = .overflow ∧ 10 ^ p.total * V ≤ U := by
  have hs := Params.size_pos (p := p)
  unfold divBody
  refine Returns.bind ((h.next hV hn hn₂ hin hv hmax).mono ?_ fun _ hF => hF.elim)
  rintro ⟨q, a⟩ ⟨hq, hholds, hlt, hvalue⟩
  dsimp only at hq hholds hlt hvalue ⊢
  refine Returns.ite (fun heq => ?_) (fun hne => ?_)
  · refine Returns.ite (fun hq0 => Returns.throw ⟨rfl, ?_⟩) (fun hq0 => Returns.pure ?_)
    · exact pow_total_mul_le (Or.inl ⟨Nat.le_of_eq heq.symm, Nat.pos_of_ne_zero hq0⟩) hvalue
    · have hq0 : q = 0 := by omega
      subst hq0
      refine ⟨hholds, hlt, ?_, fun j hj hj' => by omega, fun hlt => by omega⟩
      rw [show p.size - (i + 1) = 0 by omega, val_zero] at hvalue
      rw [show p.size - i = 0 by omega, val_zero]
      exact hvalue
  · have hlt' : i < p.size := by omega
    refine Returns.ite (fun hover => Returns.throw ⟨rfl, ?_⟩) (fun hok => Returns.pure ?_)
    · exact pow_total_mul_le (Or.inr ⟨hover.1, hover.2⟩) hvalue
    · have hquot : val p.base (fun j => Function.update s.2 i q (i + j)) (p.size - i) =
          q + p.base * val p.base (fun j => s.2 (i + 1 + j)) (p.size - (i + 1)) := by
        rw [show p.size - i = p.size - (i + 1) + 1 by omega, val_succ_left, Nat.add_zero, Function.update_self]
        congr 2
        refine val_congr fun j hj => ?_
        rw [Function.update_of_ne (show i + (1 + j) ≠ i by omega), Nat.add_assoc]
      refine ⟨hholds.shrink.1, hlt, ?_, fun j hj hj' => ?_, fun _ => ?_⟩
      · dsimp only
        rw [hquot]
        exact hvalue
      · dsimp only
        by_cases hji : j = i
        · rw [hji, Function.update_self]
          exact hq
        · rw [Function.update_of_ne hji]
          exact h.digit j (by omega) hj'
      · dsimp only
        by_cases hil : p.size - 1 = i
        · rw [hil, Function.update_self]
          by_contra hge
          exact hok ⟨hil.symm, Nat.not_lt.mp hge⟩
        · rw [Function.update_of_ne hil]
          exact h.last (by omega)

structure Divides (p : Params) (divisor : DivTmp) (n V : Nat) : Prop where
  holds : divisor.Holds p (p.size + 1) V
  size : divisor.size = n
  initialSize : divisor.initialSize = n
  two_le : 2 ≤ n
  max_pos : 0 < divisor.tmpArray (n - 1)

theorem Divides.val_eq (h : Divides p divisor n V) : val p.base divisor.tmpArray n = V := by
  rw [← h.size]
  exact h.holds.val_eq (Nat.le_refl _) h.holds.size_le

theorem Divides.digit (h : Divides p divisor n V) : ∀ j < n, divisor.tmpArray j < p.base := fun j hj => by
  have h1 := h.size
  have h2 := h.holds.size_le
  exact h.holds.digit j (by omega)

theorem Divides.pow_le (h : Divides p divisor n V) : p.base ^ (n - 1) ≤ V := by
  have h2 := h.two_le
  rw [← h.val_eq]
  conv_rhs => rw [show n = n - 1 + 1 by omega]
  rw [val_succ]
  exact Nat.le_trans (Nat.le_mul_of_pos_left _ h.max_pos) (Nat.le_add_left _ _)

theorem divScaled_spec {scale : Nat} (hD : Divides p divisor n V) (hU : dividend.Holds p p.divTmpSize U)
    (hm : dividend.initialSize = m) (hmle : m < p.divTmpSize) (hnm : n ≤ m) (hlt : U < V * p.base ^ (m - n + 1))
    (hbig : p.size < m - n → 10 ^ p.total * V ≤ U) (hscale : 1 < scale → scale ≤ p.base ∧
    scale ∣ U ∧ scale ∣ V) : Returns (divScaled p scale dividend divisor array)
      (fun r => (∀ i < p.size, r i < p.base) ∧ val p.base r p.size = U / V ∧ U / V < 10 ^ p.total)
      fun e => e = .overflow ∧ 10 ^ p.total ≤ U / V := by
  have hs := Params.size_pos (p := p)
  have hVpos : 0 < V := Nat.lt_of_lt_of_le (Nat.pow_pos Params.base_pos) hD.pow_le
  unfold divScaled
  rw [hm, hD.initialSize, DivTmp.maxElement, DivTmp.preMaxElement, hD.size]
  refine Returns.ite (fun hover => Returns.throw ⟨rfl, ?_⟩) (fun hle => Returns.bind ?_)
  · rw [Nat.le_div_iff_mul_le hVpos]
    exact hbig hover
  · have hstart : QuotientInv p V U (m - n + 1)
        (dividend, if m - n < p.size then fill (m - n + 1) p.size 0 array else array) := by
      have hzero : ∀ j, m - n + 1 ≤ j → j < p.size →
          (if m - n < p.size then fill (m - n + 1) p.size 0 array else array) j = 0 := fun j hj hj' => by
        rw [if_pos (by omega)]
        exact if_pos ⟨hj, hj'⟩
      refine ⟨by rw [hU.value]; exact hU, by rw [hU.value]; exact hlt, ?_, fun j hj hj' => ?_, fun hk => ?_⟩
      · dsimp only
        rw [hU.value, (val_eq_zero_iff Params.base_pos).mpr fun j hj => hzero _ (by omega) (by omega)]
        omega
      · dsimp only
        rw [hzero j hj hj']
        exact Params.base_pos
      · dsimp only
        rw [hzero _ (by omega) (by omega)]
        exact Nat.pow_pos (by decide)
    have hloop := Returns.forDownM (P := QuotientInv p V U) hstart fun i s hi hs =>
      divBody_spec hs hD.val_eq hD.initialSize hD.two_le (by omega) (by omega) hD.digit hD.max_pos
    refine hloop.mono ?_ fun e he => ⟨he.1, (Nat.le_div_iff_mul_le hVpos).mpr he.2⟩
    rintro ⟨t, r⟩ hinv
    have hvalue := hinv.value
    have hrem := hinv.lt
    simp only [Nat.zero_add, Nat.sub_zero, Nat.pow_zero, Nat.one_mul, Nat.mul_one] at hvalue hrem
    have hquot : U / V = val p.base r p.size := by
      rw [← hvalue, Nat.add_mul_div_left _ _ hVpos, Nat.div_eq_of_lt hrem, Nat.zero_add]
    have hdigit : ∀ i < p.size, r i < p.base := fun i hi => hinv.digit i (Nat.zero_le i) hi
    have hresult : (∀ i < p.size, r i < p.base) ∧ val p.base r p.size = U / V ∧ U / V < 10 ^ p.total := by
      refine ⟨hdigit, hquot.symm, ?_⟩
      rw [hquot]
      exact (last_lt_iff hdigit).mp (hinv.last hs)
    refine Returns.ite (fun hgt => Returns.bind ?_) (fun _ => Returns.pure hresult)
    obtain ⟨hsB, hsU, hsV⟩ := hscale hgt
    -- `scale` は被除数と除数を割り切るので、余りも割り切る。
    have hjunk : (t.div p scale).2 = 0 := by
      rw [(hinv.dividend.div (by omega) hsB).2]
      refine Nat.mod_eq_zero_of_dvd ((Nat.dvd_add_iff_left (Nat.dvd_mul_right_of_dvd hsV (val p.base r p.size))).mpr ?_)
      rw [hvalue]
      exact hsU
    exact assert_spec (decide_eq_true hjunk) (Returns.pure hresult)

theorem Divides.scale_lt (h : Divides p divisor n V) :
    V * (p.base / (divisor.tmpArray (n - 1) + 1)) < p.base ^ n := by
  have h2 := h.two_le
  have hV : V < p.base ^ (n - 1) * (divisor.tmpArray (n - 1) + 1) := by
    rw [← h.val_eq]
    conv_lhs => rw [show n = n - 1 + 1 by omega]
    exact (val_lt_iff_digit_lt fun j hj => h.digit j (by omega)).mpr (Nat.lt_succ_self _)
  have hscale := Nat.div_mul_le_self p.base (divisor.tmpArray (n - 1) + 1)
  have hpos : 0 < p.base / (divisor.tmpArray (n - 1) + 1) := Nat.div_pos (h.digit _ (by omega)) (Nat.succ_pos _)
  calc V * (p.base / (divisor.tmpArray (n - 1) + 1))
      < p.base ^ (n - 1) * (divisor.tmpArray (n - 1) + 1) * (p.base / (divisor.tmpArray (n - 1) + 1)) :=
        Nat.mul_lt_mul_of_pos_right hV hpos
    _ = p.base ^ (n - 1) * (p.base / (divisor.tmpArray (n - 1) + 1) * (divisor.tmpArray (n - 1) + 1)) := by ring
    _ ≤ p.base ^ (n - 1) * p.base := Nat.mul_le_mul_left _ hscale
    _ = p.base ^ n := by
        rw [← Nat.pow_succ, Nat.succ_eq_add_one, Nat.sub_add_cancel (by omega)]

theorem divLong_spec (hD : Divides p divisor n V) (hU : dividend.Holds p p.divTmpSize U)
    (hm : dividend.initialSize = m) (hmle : m < p.divTmpSize) (hnm : n ≤ m) (hlt : U < p.base ^ m)
    (hge : p.base ^ (m - 1) ≤ U) :
    Returns (divLong p dividend divisor array)
      (fun r => (∀ i < p.size, r i < p.base) ∧ val p.base r p.size = U / V ∧ U / V < 10 ^ p.total)
      fun e => e = .overflow ∧ 10 ^ p.total ≤ U / V := by
  have hpos := Params.base_pos (p := p)
  have h2 := hD.two_le
  have hmax := hD.max_pos
  have hmaxlt := hD.digit (n - 1) (by omega)
  have hVlt : V < p.base ^ n := by
    rw [← hD.val_eq]
    exact val_lt hD.digit
  -- 商の要素の数は、被除数と除数の要素の数の差か、それより一つ多い数である。
  have hquot : U < V * p.base ^ (m - n + 1) :=
    calc U < p.base ^ m := hlt
      _ = p.base ^ (n - 1) * p.base ^ (m - n + 1) := by rw [← Nat.pow_add]; congr 1; omega
      _ ≤ V * p.base ^ (m - n + 1) := Nat.mul_le_mul_right _ hD.pow_le
  have hbig : p.size < m - n → 10 ^ p.total * V ≤ U := fun hsize =>
    calc 10 ^ p.total * V ≤ p.base ^ p.size * p.base ^ n :=
          Nat.mul_le_mul Params.pow_total_le (Nat.le_of_lt hVlt)
      _ = p.base ^ (p.size + n) := by rw [Nat.pow_add]
      _ ≤ p.base ^ (m - 1) := Nat.pow_le_pow_right hpos (by omega)
      _ ≤ U := hge
  have hscale_pos : 0 < p.base / (divisor.tmpArray (n - 1) + 1) := Nat.div_pos hmaxlt (Nat.succ_pos _)
  have hscale_lt : p.base / (divisor.tmpArray (n - 1) + 1) < p.base := Nat.div_lt_self hpos (by omega)
  have hscaled := hD.scale_lt
  unfold divLong
  rw [DivTmp.maxElement, hD.size]
  generalize p.base / (divisor.tmpArray (n - 1) + 1) = scale at hscale_pos hscale_lt hscaled
  refine Returns.bind (assert_spec (decide_eq_true ⟨hscale_pos, hscale_lt⟩)
    (Returns.ite (fun hgt => ?_) (fun hone => ?_)))
  · have hUs : U * scale < p.base ^ p.divTmpSize :=
      calc U * scale < p.base ^ m * p.base := Nat.mul_lt_mul'' hlt hscale_lt
        _ = p.base ^ (m + 1) := (Nat.pow_succ _ _).symm
        _ ≤ p.base ^ p.divTmpSize := Nat.pow_le_pow_right hpos hmle
    have hVs : V * scale < p.base ^ (p.size + 1) := by
      refine Nat.lt_of_lt_of_le hscaled (Nat.pow_le_pow_right hpos ?_)
      rw [← hD.size]
      exact hD.holds.size_le
    refine Returns.bind ((hU.mul hscale_lt hUs).mono ?_ fun _ hF => hF.elim)
    rintro u ⟨hu, hu₀, -⟩
    refine Returns.bind ((hD.holds.mul hscale_lt hVs).mono ?_ fun _ hF => hF.elim)
    rintro v ⟨hv, hv₀, hsize⟩
    rw [hD.size] at hsize
    have hvsize : v.size = n := by omega
    have hvD : Divides p v n (V * scale) := by
      refine ⟨hv, hvsize, hv₀.trans hD.initialSize, h2, ?_⟩
      by_contra hz
      have hval := hv.val_eq (Nat.le_refl _) hv.size_le
      rw [hvsize, show n = n - 1 + 1 by omega, val_succ, show v.tmpArray (n - 1) = 0 by omega] at hval
      have hlow := val_lt (B := p.base) (a := v.tmpArray) (n := n - 1) fun j hj => hv.digit j (by
        have := hv.size_le
        omega)
      have h1 := Nat.mul_le_mul hD.pow_le hscale_pos
      omega
    have hdiv : U * scale / (V * scale) = U / V := Nat.mul_div_mul_right _ _ hscale_pos
    rw [← hdiv]
    refine divScaled_spec hvD hu (hu₀.trans hm) hmle hnm ?_ (fun hsize => ?_) fun _ =>
      ⟨Nat.le_of_lt hscale_lt, Nat.dvd_mul_left _ _, Nat.dvd_mul_left _ _⟩
    · calc U * scale < V * p.base ^ (m - n + 1) * scale := Nat.mul_lt_mul_of_pos_right hquot hscale_pos
        _ = V * scale * p.base ^ (m - n + 1) := by ring
    · rw [← Nat.mul_assoc]
      exact Nat.mul_le_mul_right _ (hbig hsize)
  · exact divScaled_spec hD hU hm hmle hnm hquot hbig fun hgt => absurd hgt hone

variable {a b q : Decimal}

theorem DivTmp.Holds.pow_le {t : DivTmp} {cap X : Nat} (h : t.Holds p cap X)
    (ht : t.size = 1 ∨ t.tmpArray (t.size - 1) ≠ 0) (hX : 0 < X) : p.base ^ (t.size - 1) ≤ X := by
  have hs := h.size_pos
  rcases ht with h1 | hne
  · rw [h1, Nat.sub_self, Nat.pow_zero]
    exact hX
  · rw [← h.val_eq (Nat.le_refl _) h.size_le]
    conv_rhs => rw [show t.size = t.size - 1 + 1 by omega]
    rw [val_succ]
    exact Nat.le_trans (Nat.le_mul_of_pos_left _ (Nat.pos_of_ne_zero hne)) (Nat.le_add_left _ _)

theorem divInner_spec (ha : a.Valid p) (hb : b.Valid p) (hz : b.magnitude p ≠ 0) (q : Decimal) :
    Returns (a.divInner p b q)
      (fun r => r.2.Valid p ∧ r.2.magnitude p = a.magnitude p * 10 ^ p.fraction / b.magnitude p ∧
        r.2.negative = (a.negative != b.negative) ∧ (r.1 = true → r.2.magnitude p = 0))
      fun e => e = .overflow ∧ 10 ^ p.total ≤ a.magnitude p * 10 ^ p.fraction / b.magnitude p := by
  have hpos := Params.base_pos (p := p)
  obtain ⟨hV₀, hVi⟩ := DivTmp.divisor_holds hb
  obtain ⟨hV, hVtop⟩ := hV₀.shrink
  obtain ⟨hU₀, hUi⟩ := DivTmp.dividend_holds ha
  obtain ⟨hU, hUtop⟩ := hU₀.shrink
  have hVsize := DivTmp.shrink_initialSize hVi
  have hUsize := DivTmp.shrink_initialSize hUi
  have hVle := hV.pow_le hVtop (Nat.pos_of_ne_zero hz)
  have hVval := hV.val_eq (Nat.le_refl _) hV.size_le
  have hUlt := hU.lt_pow
  have hUbound : a.magnitude p * 10 ^ p.fraction < p.base ^ p.tmpSize := by
    refine Nat.lt_of_lt_of_le ?_ Params.pow_tmpTotal_le
    rw [Nat.pow_add]
    exact Nat.mul_lt_mul_of_pos_right ha.magnitude_lt (Nat.pow_pos (by decide))
  unfold Decimal.divInner
  generalize (DivTmp.divisor p b).shrink = v at hV hVtop hVsize hVle hVval
  generalize (DivTmp.dividend p a).shrink = u at hU hUtop hUsize hUlt
  generalize a.magnitude p * 10 ^ p.fraction = U at hU hUlt hUbound
  have hvpos := hV.size_pos
  have hmax : v.maxElement ≠ 0 := by
    rcases hVtop with h1 | h1
    · rw [h1, val_succ, val_zero, Nat.zero_add, Nat.pow_zero, Nat.mul_one] at hVval
      rw [DivTmp.maxElement, h1, Nat.sub_self]
      omega
    · exact h1
  refine Returns.ite (fun h0 => absurd h0 hmax) (fun _ => Returns.ite (fun hlt => Returns.pure ?_) (fun hge =>
    Returns.ite (fun hone => ?_) (fun htwo => Returns.bind ?_)))
  · -- 被除数の要素が少なければ、商は零である。
    have hsmall : U < b.magnitude p :=
      calc U < p.base ^ u.size := hUlt
        _ ≤ p.base ^ (v.size - 1) := Nat.pow_le_pow_right hpos (by omega)
        _ ≤ b.magnitude p := hVle
    have hzero : ∀ i < p.size, fill 0 p.size 0 q.array i = 0 := fun i hi => if_pos ⟨Nat.zero_le i, hi⟩
    have hm : Decimal.magnitude p ⟨a.negative != b.negative, fill 0 p.size 0 q.array⟩ = 0 :=
      (val_eq_zero_iff hpos).mpr hzero
    refine ⟨Decimal.valid_of_magnitude_lt (fun i hi => ?_) ?_, ?_, rfl, fun _ => hm⟩
    · exact Nat.lt_of_le_of_lt (Nat.le_of_eq (hzero i hi)) hpos
    · rw [hm]
      exact Nat.pow_pos (by decide)
    · rw [hm, Nat.div_eq_of_lt hsmall]
  · -- 除数が一つの要素である。
    have hmagnitude : v.maxElement = b.magnitude p := by
      rw [hone, val_succ, val_zero, Nat.zero_add, Nat.pow_zero, Nat.mul_one] at hVval
      rw [DivTmp.maxElement, hone]
      exact hVval
    have hbase : v.maxElement ≤ p.base := by
      have := hV.size_le
      exact Nat.le_of_lt (hV.digit _ (by omega))
    obtain ⟨hnone, hsome⟩ := (hU.div (Nat.pos_of_ne_zero hmax) hbase).1.exportTo q.array
    rw [hmagnitude] at hnone hsome ⊢
    cases hx : (u.div p (b.magnitude p)).1.exportTo p q.array with
    | none => exact Returns.throw ⟨rfl, hnone hx⟩
    | some r =>
        obtain ⟨hdigit, hval, hlt⟩ := hsome r hx
        refine Returns.pure ⟨Decimal.valid_of_magnitude_lt hdigit ?_, hval, rfl, fun h => by cases h⟩
        exact hval.trans_lt hlt
  · have hvmax : 0 < v.tmpArray (v.size - 1) := Nat.pos_of_ne_zero hmax
    have hD : Divides p v v.size (b.magnitude p) := ⟨hV, rfl, hVsize, by omega, hvmax⟩
    have hUpos : 0 < U := by
      rcases hUtop with h1 | h1
      · omega
      · by_contra h0
        have hle := hU.size_le
        have hzero := (val_eq_zero_iff (a := u.tmpArray) (n := p.divTmpSize) hpos).mp (by rw [hU.value]; omega)
        exact h1 (hzero _ (by omega))
    have husize : u.size < p.divTmpSize := by
      rw [Params.divTmpSize_eq]
      have hle := hU.pow_le hUtop hUpos
      have := (Nat.pow_lt_pow_iff_right Params.one_lt_base).mp (Nat.lt_of_le_of_lt hle hUbound)
      omega
    refine (divLong_spec hD hU hUsize husize (by omega) hUlt (hU.pow_le hUtop hUpos)).mono ?_ fun _ he => he
    rintro r ⟨hdigit, hval, hlt⟩
    refine Returns.pure ⟨Decimal.valid_of_magnitude_lt hdigit ?_, hval, rfl, fun h => by cases h⟩
    exact hval.trans_lt hlt

/-! ## 商と除数の積 -/

def exactQuotient (p : Params) (ddr : DecimalDivRemainder) (a b : Nat) : Nat :=
  match ddr with
  | .floor => a * 10 ^ p.fraction / b
  | .ceil => (a * 10 ^ p.fraction + b - 1) / b

theorem quotient_product_le {x y F : Nat} (hF : 0 < F) : x * F / y * y / F ≤ x :=
  calc x * F / y * y / F ≤ x * F / F := Nat.div_le_div_right (Nat.div_mul_le_self _ _)
    _ = x := Nat.mul_div_cancel _ hF

theorem quotient_product_eq_iff {x y F : Nat} (hF : 0 < F) : x * F / y * y / F = x ↔ x * F % y = 0 := by
  rw [← Nat.dvd_iff_mod_eq_zero]
  constructor
  · intro h
    have h1 : x * F ≤ x * F / y * y := by
      have := Nat.div_mul_le_self (x * F / y * y) F
      rwa [h] at this
    exact ⟨x * F / y, (Nat.le_antisymm h1 (Nat.div_mul_le_self _ _)).trans (Nat.mul_comm _ _)⟩
  · intro h
    rw [Nat.div_mul_cancel h, Nat.mul_div_cancel _ hF]

theorem exactQuotient_ceil {x y : Nat} (hy : 0 < y) :
    exactQuotient p .ceil x y = x * 10 ^ p.fraction / y + if x * 10 ^ p.fraction % y = 0 then 0 else 1 := ceil_div hy

theorem quotient_product_spec (ha : a.Valid p) (hb : b.Valid p) (hq : q.Valid p)
    (hm : q.magnitude p = a.magnitude p * 10 ^ p.fraction / b.magnitude p)
    (hn : q.negative = (a.negative != b.negative)) : Returns (Decimal.mul p q b .floor)
      (fun d => d.Valid p ∧ d.magnitude p = a.magnitude p * 10 ^ p.fraction / b.magnitude p *
      b.magnitude p / 10 ^ p.fraction ∧
        d.negative = a.negative) fun _ => False := by
  have hpos : 0 < 10 ^ p.fraction := Nat.pow_pos (by decide)
  have hresult : ∀ X, mulResult p .floor X = X / 10 ^ p.fraction := fun X => mulResult_of_not_up fun h => h.2
  refine (mul_spec .floor hq hb).mono ?_ ?_
  · rintro d ⟨hv, hd, hneg⟩
    rw [hresult, hm] at hd
    refine ⟨hv, hd, ?_⟩
    rw [hneg, hn]
    cases a.negative <;> cases b.negative <;> rfl
  · rintro e ⟨-, hover⟩
    rw [hresult, hm] at hover
    have h1 := quotient_product_le (x := a.magnitude p) (y := b.magnitude p) hpos
    have h2 := ha.magnitude_lt
    omega

theorem addEpsilon_spec (hq : q.Valid p) :
    Returns (let (overflow, m) := internalAdd p Place.left .right .left (Place.store q (Decimal.epsilon p) q)
        if overflow then throw Fault.overflow else pure (m .left) : Except Fault Decimal)
      (fun d => d.Valid p ∧ d.magnitude p = q.magnitude p + 1 ∧ d.negative = q.negative)
      fun e => e = .overflow ∧ 10 ^ p.total ≤ q.magnitude p + 1 := by
  obtain ⟨hed, hem⟩ := Decimal.epsilon_spec (p := p)
  have hleft : ∀ i < p.size, (Place.store q (Decimal.epsilon p) q .left).array i < p.base := hq.digit
  have hright : ∀ i < p.size, (Place.store q (Decimal.epsilon p) q .right).array i < p.base := hed
  obtain ⟨hframe, hd, hover, hmag⟩ := internalAdd_spec Place.left hleft hright
  have hsum : (Place.store q (Decimal.epsilon p) q .left).magnitude p +
      (Place.store q (Decimal.epsilon p) q .right).magnitude p = q.magnitude p + 1 := congrArg (q.magnitude p + ·) hem
  rw [hsum] at hover hmag
  generalize internalAdd p Place.left .right .left (Place.store q (Decimal.epsilon p) q) = r at hframe hd hover hmag
  obtain ⟨overflow, m⟩ := r
  dsimp only at hframe hd hover hmag ⊢
  refine Returns.ite (fun ht => Returns.throw ⟨rfl, hover.mp ht⟩) (fun hf => Returns.pure ?_)
  have hm := hmag (Bool.not_eq_true _ ▸ hf)
  refine ⟨Decimal.valid_of_magnitude_lt hd ?_, hm, hframe.negative .left⟩
  have := mt hover.mpr hf
  omega

theorem div_spec (ha : a.Valid p) (hb : b.Valid p) (hz : b.magnitude p ≠ 0)
    (ddr : DecimalDivRemainder) : Returns (Decimal.div p a b ddr)
      (fun d => d.Valid p ∧ d.magnitude p = exactQuotient p ddr (a.magnitude p) (b.magnitude p) ∧
        d.negative = (a.negative != b.negative))
      fun e => e = .overflow ∧ 10 ^ p.total ≤ exactQuotient p ddr (a.magnitude p) (b.magnitude p) := by
  have hpos : 0 < 10 ^ p.fraction := Nat.pow_pos (by decide)
  unfold Decimal.div
  refine Returns.bind ((divInner_spec ha hb hz (Decimal.invalid p)).mono ?_ ?_)
  · rintro ⟨less, q⟩ ⟨hq, hm, hn, -⟩
    dsimp only at hq hm hn ⊢
    cases ddr with
    | floor =>
        rw [if_neg (by decide)]
        exact Returns.pure ⟨hq, hm, hn⟩
    | ceil =>
        rw [if_pos rfl, exactQuotient_ceil (Nat.pos_of_ne_zero hz)]
        refine Returns.bind ((quotient_product_spec ha hb hq hm hn).mono ?_ fun _ hF => hF.elim)
        rintro d ⟨hd, hdm, hdn⟩
        have hne : a.ne p d = true ↔ ¬ a.magnitude p * 10 ^ p.fraction % b.magnitude p = 0 := by
          rw [Decimal.ne, Bool.not_eq_true', ← Bool.not_eq_true, Decimal.eq_iff ha hd, ← quotient_product_eq_iff hpos, ← hdm]
          unfold Decimal.value
          rw [hdn]
          split <;> omega
        refine Returns.ite (fun hinexact => ?_) (fun hexact => Returns.pure ?_)
        · rw [if_neg (hne.mp hinexact), ← hm]
          refine (addEpsilon_spec hq).mono ?_ fun _ he => he
          rintro r ⟨hr, hrm, hrn⟩
          exact ⟨hr, hrm, hrn.trans hn⟩
        · rw [if_pos (Classical.not_not.mp (mt hne.mpr hexact)), Nat.add_zero]
          exact ⟨hq, hm, hn⟩
  · rintro e ⟨rfl, hover⟩
    refine ⟨rfl, ?_⟩
    cases ddr with
    | floor => exact hover
    | ceil =>
        rw [exactQuotient_ceil (Nat.pos_of_ne_zero hz)]
        omega

end UnixCommons.Generics
