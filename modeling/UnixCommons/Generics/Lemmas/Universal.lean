import UnixCommons.Generics.Lemmas.Allocator

/-!
# 大きさで選ぶ割り当ての補題

渡す時は求めた大きさで選び、受け取る時は知らせた大きさで選ぶ。
-/

namespace UnixCommons.Generics.Allocator

open Lib

variable {p : Parameters} {mask size x given : UInt64} {sizes : List UInt64} {u : Universal} {ptr : Nat}

/-! ## 格子 -/

/-- `get_allocator_` が、`unlimited_` の境とする大きさ。 -/
def Parameters.limit (p : Parameters) : UInt64 := p.firstBucket + p.stepBetweenBuckets * (p.bucketsNumber - 1)

def Parameters.cell (p : Parameters) (size : UInt64) : Nat :=
  (size.toNat - p.firstBucket.toNat + (p.stepBetweenBuckets.toNat - 1)) / p.stepBetweenBuckets.toNat

def Parameters.cellSize (p : Parameters) (size : UInt64) : Nat :=
  p.firstBucket.toNat + p.stepBetweenBuckets.toNat * p.cell size

structure Parameters.Proper (p : Parameters) : Prop where
  step : 0 < p.stepBetweenBuckets
  buckets : 1 ≤ p.bucketsNumber

theorem Parameters.Proper.step_pos (h : p.Proper) : 0 < p.stepBetweenBuckets.toNat := UInt64.lt_iff_toNat_lt.mp h.step

theorem Parameters.Proper.buckets_pos (h : p.Proper) : 0 < p.bucketsNumber.toNat := UInt64.le_iff_toNat_le.mp h.buckets

theorem cell_bounds (h : p.Proper) (size : UInt64) :
    size.toNat - p.firstBucket.toNat ≤ p.stepBetweenBuckets.toNat * p.cell size ∧
      p.stepBetweenBuckets.toNat * p.cell size < size.toNat - p.firstBucket.toNat + p.stepBetweenBuckets.toNat := by
  have hpos := h.step_pos
  have hdiv := Nat.div_add_mod (size.toNat - p.firstBucket.toNat + (p.stepBetweenBuckets.toNat - 1))
      p.stepBetweenBuckets.toNat
  have hlt := Nat.mod_lt (size.toNat - p.firstBucket.toNat + (p.stepBetweenBuckets.toNat - 1)) hpos
  rw [Parameters.cell]
  omega

theorem le_cellSize (h : p.Proper) (size : UInt64) : size.toNat ≤ p.cellSize size := by
  have := (cell_bounds h size).1
  rw [Parameters.cellSize]
  omega

theorem cell_eq_zero (h : p.Proper) (hle : size ≤ p.firstBucket) : p.cell size = 0 := by
  rw [Parameters.cell, Nat.sub_eq_zero_of_le (UInt64.le_iff_toNat_le.mp hle), Nat.zero_add]
  exact Nat.div_eq_of_lt (Nat.sub_lt h.step_pos Nat.one_pos)

theorem cell_mono (h : size ≤ x) : p.cell size ≤ p.cell x :=
  Nat.div_le_div_right (Nat.add_le_add_right (Nat.sub_le_sub_right (UInt64.le_iff_toNat_le.mp h) _) _)

theorem cellSize_mono (h : size ≤ x) : p.cellSize size ≤ p.cellSize x := Nat.add_le_add_left
    (Nat.mul_le_mul_left _ (cell_mono h)) _

theorem cellSize_lt_of_cell_lt (h : p.Proper) (hlt : p.cell size < p.cell x) : p.cellSize size < x.toNat := by
  have hx := (cell_bounds h x).2
  have hstep : p.stepBetweenBuckets.toNat * (p.cell size + 1) ≤ p.stepBetweenBuckets.toNat * p.cell
      x := Nat.mul_le_mul_left _ hlt
  rw [Nat.mul_add, Nat.mul_one] at hstep
  rw [Parameters.cellSize]
  omega

theorem cell_cellSize (h : p.Proper) (hx : x.toNat = p.cellSize size) : p.cell x = p.cell size := by
  have hpos := h.step_pos
  rw [Parameters.cell, hx, Parameters.cellSize, Nat.add_sub_cancel_left, Nat.mul_add_div hpos,
    Nat.div_eq_of_lt (Nat.sub_lt hpos Nat.one_pos), Nat.add_zero]

theorem limit_le (h : p.Proper) : p.limit.toNat ≤ p.firstBucket.toNat + p.stepBetweenBuckets.toNat *
    (p.bucketsNumber.toNat - 1) := by
  have hone : (p.bucketsNumber - 1).toNat = p.bucketsNumber.toNat - 1 := UInt64.toNat_sub_of_le _ _ h.buckets
  rw [Parameters.limit, UInt64.toNat_add, UInt64.toNat_mul, hone]
  exact Nat.le_trans (Nat.mod_le _ _) (Nat.add_le_add_left (Nat.mod_le _ _) _)

theorem cell_lt (h : p.Proper) (hle : size ≤ p.limit) : p.cell size < p.bucketsNumber.toNat := by
  have hlimit := limit_le h
  have hpos := h.buckets_pos
  have hstep := h.step_pos
  rw [UInt64.le_iff_toNat_le] at hle
  rw [Parameters.cell, Nat.div_lt_iff_lt_mul hstep, Nat.mul_comm]
  have hsplit := Nat.mul_sub_one p.stepBetweenBuckets.toNat p.bucketsNumber.toNat
  have hmul : p.stepBetweenBuckets.toNat ≤ p.stepBetweenBuckets.toNat * p.bucketsNumber.toNat :=
    Nat.le_mul_of_pos_right _ hpos
  omega

theorem index_toNat (h : p.Proper) (size : UInt64) :
    (if size ≤ p.firstBucket then (0 : UInt64) else (size - p.firstBucket - 1) /
    p.stepBetweenBuckets + 1).toNat = p.cell size := by
  have hpos := h.step_pos
  split_ifs with hle
  · exact (cell_eq_zero h hle).symm
  · have hlt : p.firstBucket.toNat < size.toNat := UInt64.lt_iff_toNat_lt.mp (UInt64.not_le.mp hle)
    have hsize := size.toNat_lt
    have hsub : (size - p.firstBucket).toNat = size.toNat - p.firstBucket.toNat :=
      UInt64.toNat_sub_of_le _ _ (UInt64.le_of_lt (UInt64.not_le.mp hle))
    have hpred : (size - p.firstBucket - 1).toNat = size.toNat - p.firstBucket.toNat - 1 := by
      rw [UInt64.toNat_sub_of_le _ _ (UInt64.le_iff_toNat_le.mpr (by rw [hsub]; exact Nat.sub_pos_of_lt hlt)), hsub]
      rfl
    have hdiv := Nat.div_le_self (size.toNat - p.firstBucket.toNat - 1) p.stepBetweenBuckets.toNat
    have hone : (1 : UInt64).toNat = 1 := rfl
    rw [UInt64.toNat_add, UInt64.toNat_div, hpred, hone, Nat.mod_eq_of_lt (by omega),
      Parameters.cell, ← Nat.add_div_right _ hpos]
    congr 1
    omega

theorem bucketSize_cases (h : p.Proper) {index : UInt64} (hindex : index.toNat = p.cell size) :
    p.cellSize size < 2 ^ 64 ∧ (p.bucketSize index).toNat = p.cellSize size ∨
      2 ^ 64 ≤ p.cellSize size ∧ p.bucketSize index < size := by
  have hvalue : (p.bucketSize index).toNat = p.cellSize size % 2 ^ 64 := by
    rw [Parameters.bucketSize, UInt64.toNat_add, UInt64.toNat_mul, hindex, Parameters.cellSize, Nat.mul_comm]
    omega
  rcases Nat.lt_or_ge (p.cellSize size) (2 ^ 64) with hlt | hge
  · exact .inl ⟨hlt, by rw [hvalue, Nat.mod_eq_of_lt hlt]⟩
  · refine .inr ⟨hge, ?_⟩
    have hbounds := (cell_bounds h size).2
    have hsize := size.toNat_lt
    have hfirst := p.firstBucket.toNat_lt
    have hstep := p.stepBetweenBuckets.toNat_lt
    have hlt : p.firstBucket.toNat < size.toNat := by
      by_contra hle
      rw [Parameters.cellSize, cell_eq_zero h (UInt64.le_iff_toNat_le.mpr (Nat.not_lt.mp hle))] at hge
      omega
    rw [UInt64.lt_iff_toNat_lt, hvalue]
    rw [Parameters.cellSize] at hge ⊢
    omega

/-! ## 選ぶ割り当て -/

theorem getAllocator_cases (h : p.Proper) (size : UInt64) :
    p.getAllocator size = .default ∧ (size ≤ p.defaultThresholdLow ∨ p.defaultThresholdHigh ≤ size) ∨
    p.getAllocator size = .unlimited ∧ p.defaultThresholdLow < size ∧ size < p.defaultThresholdHigh ∧ p.limit < size ∨
    ∃ index, p.getAllocator size = .bucket index ∧ p.defaultThresholdLow < size ∧
      size < p.defaultThresholdHigh ∧ size ≤ p.limit ∧ index.toNat = p.cell size := by
  have hne : ¬ p.bucketsNumber = 0 := fun hzero => absurd h.buckets (by rw [hzero]; decide)
  rw [Parameters.getAllocator]
  by_cases houter : size ≤ p.defaultThresholdLow ∨ p.defaultThresholdHigh ≤ size
  · exact .inl ⟨if_pos houter, houter⟩
  · obtain ⟨hlow, hhigh⟩ := not_or.mp houter
    rw [if_neg houter]
    refine .inr ?_
    by_cases hlimit : p.limit < size
    · exact .inl ⟨if_pos (.inl hlimit), UInt64.not_le.mp hlow, UInt64.not_le.mp hhigh, hlimit⟩
    · exact .inr ⟨_, if_neg (not_or.mpr ⟨hlimit, hne⟩), UInt64.not_le.mp hlow,
        UInt64.not_le.mp hhigh, UInt64.not_lt.mp hlimit, index_toNat h size⟩

def Parameters.Accepts (p : Parameters) (size : UInt64) : Prop :=
  match p.getAllocator size with
  | .default => size &&& defaultMask = 0
  | .bucket index => size = p.bucketSize index
  | .unlimited => True

theorem accepts_iff (h : p.Proper) (size : UInt64) :
    p.Accepts size ↔
      if size ≤ p.defaultThresholdLow ∨ p.defaultThresholdHigh ≤ size then 1024 ∣ size.toNat
      else p.limit < size ∨ p.cellSize size = size.toNat := by
  rcases getAllocator_cases h size with ⟨hroute, houter⟩ | ⟨hroute, hlow, hhigh, hlimit⟩ |
    ⟨index, hroute, hlow, hhigh, hlimit, hindex⟩
  · rw [Parameters.Accepts, hroute, if_pos houter]
    exact and_default_iff size
  · rw [Parameters.Accepts, hroute, if_neg (not_or.mpr ⟨UInt64.not_le.mpr hlow, UInt64.not_le.mpr hhigh⟩)]
    exact iff_of_true trivial (.inl hlimit)
  · rw [Parameters.Accepts, hroute, if_neg (not_or.mpr ⟨UInt64.not_le.mpr hlow, UInt64.not_le.mpr hhigh⟩),
      or_iff_right (UInt64.not_lt.mpr hlimit)]
    show size = p.bucketSize index ↔ _
    have hsize := size.toNat_lt
    rcases bucketSize_cases h hindex with ⟨-, hvalue⟩ | ⟨hover, hlt⟩
    · rw [← UInt64.toNat_inj, hvalue, eq_comm]
    · refine iff_of_false (UInt64.ne_of_lt hlt).symm fun heq => ?_
      omega

def Parameters.fresh (p : Parameters) (mask size : UInt64) : UInt64 :=
  match p.getAllocator size with
  | .default => align size defaultMask
  | .bucket index => p.bucketSize index
  | .unlimited => align size mask

/-- 求めた大きさで選んだ割り当てが、ブロックを渡し、それを知らせた大きさで返せる。 -/
structure Parameters.Grants (p : Parameters) (mask size : UInt64) : Prop where
  room : ∀ index, p.getAllocator size = .bucket index → size ≤ p.bucketSize index
  accepted : p.Accepts (p.fresh mask size)

def Parameters.top (p : Parameters) : UInt64 := if p.limit < p.defaultThresholdHigh then p.limit
    else p.defaultThresholdHigh - 1

structure Parameters.Fits (p : Parameters) (mask : UInt64) : Prop where
  low : align p.defaultThresholdLow defaultMask ≤ p.defaultThresholdLow ∨ p.defaultThresholdHigh ≤
    align p.defaultThresholdLow defaultMask ∨ p.limit < align p.defaultThresholdLow defaultMask ∨
    p.cellSize (align p.defaultThresholdLow defaultMask) = (align p.defaultThresholdLow defaultMask).toNat
  bucket : p.defaultThresholdLow < p.top → p.top < p.defaultThresholdHigh →
    p.cellSize p.top < 2 ^ 64 ∧ (p.cellSize p.top < p.defaultThresholdHigh.toNat ∨ 1024 ∣ p.cellSize p.top)
  unlimited : p.defaultThresholdLow < p.defaultThresholdHigh - 1 → p.defaultThresholdHigh - 1 <
    p.defaultThresholdHigh → p.limit < p.defaultThresholdHigh - 1 →
    align (p.defaultThresholdHigh - 1) mask < p.defaultThresholdHigh ∨ 1024 ∣ (align (p.defaultThresholdHigh - 1) mask).toNat

structure Parameters.Allocated (p : Parameters) : Prop where
  precision : p.statisticsPrecision < 64
  statistics : p.statisticsLimit.toNat + 1 < 2 ^ 32
  buckets : p.bucketsNumber.toNat < 2 ^ 32
  blocks : ∀ size index, p.getAllocator size = .bucket index → size = p.bucketSize index →
    p.bucketBlocksCount.toNat < 2 ^ 32

theorem overfills_iff {n : UInt64} : overfills n = false ↔ n.toNat < 2 ^ 32 := by
  rw [overfills, decide_eq_false_iff_not, Nat.not_lt]
  exact le_arraySize_iff

theorem limit_succ (h : p.statisticsLimit.toNat + 1 < 2 ^ 32) :
    (p.statisticsLimit + 1).toNat = p.statisticsLimit.toNat + 1 := by
  have hone : (1 : UInt64).toNat = 1 := rfl
  rw [UInt64.toNat_add, hone, Nat.mod_eq_of_lt (by omega)]

theorem le_pred_of_lt {y : UInt64} (h : x < y) : x ≤ y - 1 ∧ y - 1 < y := by
  rw [UInt64.lt_iff_toNat_lt] at h
  obtain ⟨hpred, hpos⟩ := toNat_pred (fun hzero : y = 0 => by rw [hzero] at h; exact absurd h (Nat.not_lt_zero _))
  constructor
  · rw [UInt64.le_iff_toNat_le, hpred]
    omega
  · rw [UInt64.lt_iff_toNat_lt, hpred]
    omega

theorem le_top (hlimit : size ≤ p.limit) (hhigh : size < p.defaultThresholdHigh) : size ≤ p.top ∧
    p.top < p.defaultThresholdHigh := by
  rw [Parameters.top]
  split_ifs with hlt
  · exact ⟨hlimit, hlt⟩
  · exact le_pred_of_lt hhigh

theorem top_le_limit (h : p.top < p.defaultThresholdHigh) : p.top ≤ p.limit := by
  rw [Parameters.top] at h ⊢
  split_ifs with hlt
  · exact UInt64.le_refl _
  · rw [if_neg hlt] at h
    exact UInt64.le_of_lt (UInt64.lt_of_lt_of_le h (UInt64.not_lt.mp hlt))

theorem dvd_align_default (size : UInt64) : 1024 ∣ (align size defaultMask).toNat := align_dvd maskOf_default size

theorem high_le_align (h : p.defaultThresholdHigh ≤ size) (hlow : p.defaultThresholdLow < align size defaultMask) :
    p.defaultThresholdHigh ≤ align size defaultMask := by
  rcases align_eq_zero_or_le maskOf_default size with hzero | hle
  · rw [UInt64.lt_iff_toNat_lt, hzero] at hlow
    exact absurd hlow (Nat.not_lt_zero _)
  · exact UInt64.le_trans h hle

theorem Parameters.Fits.default (hp : p.Proper) (h : p.Fits mask)
    (houter : size ≤ p.defaultThresholdLow ∨ p.defaultThresholdHigh ≤ size) :
    p.Accepts (align size defaultMask) := by
  rw [accepts_iff hp]
  split_ifs with hgiven
  · exact dvd_align_default size
  · obtain ⟨hlow, hhigh⟩ := not_or.mp hgiven
    have hlt := UInt64.not_le.mp hlow
    rcases houter with hle | hge
    · rw [← align_eq_of_lt maskOf_default hle hlt] at hlow hhigh ⊢
      exact (h.low.resolve_left hlow).resolve_left hhigh
    · exact absurd (high_le_align hge hlt) hhigh

theorem Parameters.Fits.unlimitedSize {alignCode : UInt64} (hp : p.Proper)
    (hmask : maskOf alignCode = some mask) (h : p.Fits mask)
    (hlow : p.defaultThresholdLow < size) (hhigh : size < p.defaultThresholdHigh)
    (hlimit : p.limit < size) : p.Accepts (align size mask) := by
  have hzero : (align size mask).toNat = 0 ∨ size ≤ align size mask := align_eq_zero_or_le hmask size
  obtain ⟨hpred, hlast⟩ := le_pred_of_lt hhigh
  rw [accepts_iff hp]
  split_ifs with hgiven
  · rcases hzero with hzero | hle
    · exact hzero ▸ Nat.dvd_zero _
    · have hge := hgiven.resolve_left fun hsmall => absurd (UInt64.lt_of_lt_of_le hlow hle) (UInt64.not_lt.mpr hsmall)
      have hsame := align_eq_of_lt hmask hpred (UInt64.lt_of_lt_of_le hlast hge)
      have hfit := h.unlimited (UInt64.lt_of_lt_of_le hlow hpred) hlast (UInt64.lt_of_lt_of_le hlimit hpred)
      rw [hsame] at hfit
      exact hfit.resolve_left (UInt64.not_lt.mpr hge)
  · rcases hzero with hzero | hle
    · refine absurd (.inl ?_) hgiven
      rw [UInt64.le_iff_toNat_le, hzero]
      exact Nat.zero_le _
    · exact .inl (UInt64.lt_of_lt_of_le hlimit hle)

theorem Parameters.Fits.bucketIndex (hp : p.Proper) (h : p.Fits mask) {index : UInt64} (hlow : p.defaultThresholdLow < size)
    (hhigh : size < p.defaultThresholdHigh) (hlimit : size ≤ p.limit) (hindex : index.toNat = p.cell size) :
    size ≤ p.bucketSize index ∧ p.Accepts (p.bucketSize index) := by
  obtain ⟨hle, htop⟩ := le_top hlimit hhigh
  obtain ⟨hover, hhome⟩ := h.bucket (UInt64.lt_of_lt_of_le hlow hle) htop
  have hmono : p.cellSize size ≤ p.cellSize p.top := cellSize_mono hle
  obtain ⟨-, hvalue⟩ := (bucketSize_cases hp hindex).resolve_right fun hbad => absurd hover
    (Nat.not_lt.mpr (Nat.le_trans hbad.1 hmono))
  have hroom : size ≤ p.bucketSize index := by
    rw [UInt64.le_iff_toNat_le, hvalue]
    exact le_cellSize hp size
  refine ⟨hroom, ?_⟩
  rw [accepts_iff hp]
  split_ifs with hgiven
  · -- 上の境に達するのは、最も大きいブロックだけである。
    have hge := hgiven.resolve_left fun hsmall => absurd (UInt64.lt_of_lt_of_le hlow hroom) (UInt64.not_lt.mpr hsmall)
    rw [UInt64.le_iff_toNat_le, hvalue] at hge
    rw [UInt64.lt_iff_toNat_lt] at htop
    have hcell : p.cell size = p.cell p.top := by
      refine Nat.le_antisymm (cell_mono hle) (Nat.not_lt.mp fun hlt => ?_)
      have := cellSize_lt_of_cell_lt hp hlt
      omega
    have hsame : p.cellSize size = p.cellSize p.top := by rw [Parameters.cellSize, hcell, Parameters.cellSize]
    rw [hvalue, hsame]
    exact hhome.resolve_left (Nat.not_lt.mpr (hsame ▸ hge))
  · right
    rw [Parameters.cellSize, cell_cellSize hp hvalue, hvalue, Parameters.cellSize]

theorem grants_iff {alignCode : UInt64} (hp : p.Proper) (hmask : maskOf alignCode = some mask) :
    (∀ size, p.Grants mask size) ↔ p.Fits mask := by
  constructor
  · intro h
    refine ⟨?_, fun hlow hhigh => ?_, fun hlow hhigh hlimit => ?_⟩
    · have haccepted := (h p.defaultThresholdLow).accepted
      have hroute : p.getAllocator p.defaultThresholdLow = .default := if_pos (.inl (UInt64.le_refl _))
      rw [Parameters.fresh, hroute, accepts_iff hp] at haccepted
      split_ifs at haccepted with hgiven
      · exact hgiven.imp_right .inl
      · exact .inr (.inr haccepted)
    · have hlimit := top_le_limit hhigh
      rcases getAllocator_cases hp p.top with ⟨-, houter⟩ | ⟨-, -, -, hbad⟩ | ⟨index, hroute, -, -, -, hindex⟩
      · exact absurd houter (not_or.mpr ⟨UInt64.not_le.mpr hlow, UInt64.not_le.mpr hhigh⟩)
      · exact absurd hlimit (UInt64.not_le.mpr hbad)
      · obtain ⟨hroom, haccepted⟩ := h p.top
        have hle := hroom index hroute
        obtain ⟨hover, hvalue⟩ := (bucketSize_cases hp hindex).resolve_right fun hbad => absurd hle
          (UInt64.not_le.mpr hbad.2)
        refine ⟨hover, ?_⟩
        rw [Parameters.fresh, hroute, accepts_iff hp] at haccepted
        dsimp only at haccepted
        rw [← hvalue]
        split_ifs at haccepted with hgiven
        · exact .inr haccepted
        · exact .inl (UInt64.lt_iff_toNat_lt.mp (UInt64.not_le.mp (not_or.mp hgiven).2))
    · rcases getAllocator_cases hp (p.defaultThresholdHigh - 1) with ⟨-, houter⟩ | ⟨hroute, -⟩ | ⟨-, -, -, -, hbad, -⟩
      · exact absurd houter (not_or.mpr ⟨UInt64.not_le.mpr hlow, UInt64.not_le.mpr hhigh⟩)
      · have haccepted := (h (p.defaultThresholdHigh - 1)).accepted
        rw [Parameters.fresh, hroute, accepts_iff hp] at haccepted
        dsimp only at haccepted
        split_ifs at haccepted with hgiven
        · exact .inr haccepted
        · exact .inl (UInt64.not_le.mp (not_or.mp hgiven).2)
      · exact absurd hbad (UInt64.not_le.mpr hlimit)
  · intro h size
    rcases getAllocator_cases hp size with ⟨hroute, houter⟩ | ⟨hroute, hlow, hhigh, hlimit⟩ |
      ⟨index, hroute, hlow, hhigh, hlimit, hindex⟩
    · refine ⟨fun index hbucket => ?_, ?_⟩
      · cases hroute.symm.trans hbucket
      · rw [Parameters.fresh, hroute]
        exact h.default hp houter
    · refine ⟨fun index hbucket => ?_, ?_⟩
      · cases hroute.symm.trans hbucket
      · rw [Parameters.fresh, hroute]
        exact h.unlimitedSize hp hmask hlow hhigh hlimit
    · obtain ⟨hroom, haccepted⟩ := h.bucketIndex hp hlow hhigh hlimit hindex
      refine ⟨fun index' hbucket => ?_, ?_⟩
      · obtain rfl := Place.bucket.inj (hroute.symm.trans hbucket)
        exact hroom
      · rw [Parameters.fresh, hroute]
        exact haccepted

/-! ## 置き場の状態 -/

def Backed (sizes : List UInt64) (size : UInt64) (ptr : Nat) : Prop := ∃ actual, sizes[ptr]? = some actual ∧ size ≤ actual

theorem Backed.append (h : Backed sizes size ptr) (more : List UInt64) : Backed (sizes ++ more) size ptr := by
  obtain ⟨actual, hget, hle⟩ := h
  exact ⟨actual, List.getElem?_append_left (List.getElem?_eq_some_iff.mp hget).1 ▸ hget, hle⟩

structure Universal.Sound (p : Parameters) (mask : UInt64) (sizes : List UInt64) (u : Universal) : Prop where
  params : u.params = p
  mask : u.unlimited.mask = mask
  count : u.blocksPools.length = p.bucketsNumber.toNat
  blockSize : ∀ index array, u.blocksPools[index]? = some array → array.blockSize = p.bucketSize (UInt64.ofNat index)
  blocksCount : ∀ array ∈ u.blocksPools, array.maxBlocksCount = p.bucketBlocksCount
  pooled : ∀ array ∈ u.blocksPools, ∀ ptr ∈ array.poolMemoryBlocks, Backed sizes array.blockSize ptr
  unlimited : ∀ block ∈ u.unlimited.poolMemoryBlocks, p.Accepts block.size ∧ Backed sizes block.size block.ptr

theorem Universal.Sound.append (h : u.Sound p mask sizes) (more : List UInt64) : u.Sound p mask (sizes ++ more) :=
  ⟨h.params, h.mask, h.count, h.blockSize, h.blocksCount, fun array harray ptr hptr =>
    (h.pooled array harray ptr hptr).append more,
    fun block hblock => ⟨(h.unlimited block hblock).1, (h.unlimited block hblock).2.append more⟩⟩

theorem Universal.Sound.pool (hp : p.Proper) (h : u.Sound p mask sizes) {index : UInt64}
    (hroute : p.getAllocator size = .bucket index) :
    ∃ array, u.blocksPools[index.toNat]? = some array ∧ array.blockSize = p.bucketSize index := by
  rcases getAllocator_cases hp size with ⟨hbad, -⟩ | ⟨hbad, -⟩ | ⟨index', hsame, -, -, hlimit, hindex⟩
  · cases hbad.symm.trans hroute
  · cases hbad.symm.trans hroute
  · obtain rfl := Place.bucket.inj (hsame.symm.trans hroute)
    have hlt : index'.toNat < u.blocksPools.length := by
      rw [h.count, hindex]
      exact cell_lt hp hlimit
    have hget := List.getElem?_eq_getElem hlt
    exact ⟨_, hget, by rw [h.blockSize _ _ hget, UInt64.ofNat_toNat]⟩

theorem Universal.Sound.setPool (h : u.Sound p mask sizes) {i : Nat} {array array' : ConstSizeArray}
    (hget : u.blocksPools[i]? = some array)
    (hsize : array'.blockSize = array.blockSize) (hmax : array'.maxBlocksCount = array.maxBlocksCount)
    (hpooled : ∀ ptr ∈ array'.poolMemoryBlocks, Backed sizes array.blockSize ptr) :
    Universal.Sound p mask sizes { u with blocksPools := u.blocksPools.set i array' } := by
  refine ⟨h.params, h.mask, (List.length_set ..).trans h.count, fun index b hb => ?_, fun b hb =>
    ?_, fun b hb => ?_, h.unlimited⟩
  · rw [List.getElem?_set] at hb
    split_ifs at hb with hsame hlt
    · obtain rfl := Option.some.inj hb
      rw [hsize, h.blockSize _ _ hget, hsame]
    · exact h.blockSize index b hb
  · rcases List.mem_or_eq_of_mem_set hb with hmem | rfl
    · exact h.blocksCount b hmem
    · rw [hmax, h.blocksCount _ (List.mem_of_getElem? hget)]
  · rcases List.mem_or_eq_of_mem_set hb with hmem | rfl
    · exact h.pooled b hmem
    · rw [hsize]
      exact hpooled

theorem Universal.Sound.create {alignCode : UInt64} (hcode : p.unlimitedAlign = alignCode)
    (hmask : maskOf alignCode = some mask) (h : Universal.create p = some u) :
    u.Sound p mask [] ∧ u.unlimited.poolMemoryBlocks = [] ∧
      u.outside = (overfills p.bucketsNumber || overfills (p.statisticsLimit + 1)) := by
  rw [Universal.create, VarSizeList.create, hcode, hmask] at h
  obtain rfl := Option.some.inj h
  refine ⟨⟨rfl, rfl, (List.length_map ..).trans List.length_range, fun index array hget => ?_,
    fun array harray => ?_, fun array harray ptr hptr => ?_, ?_⟩, rfl, rfl⟩
  · rw [List.getElem?_map] at hget
    obtain ⟨i, hi, rfl⟩ := Option.map_eq_some_iff.mp hget
    obtain ⟨-, rfl⟩ := List.getElem?_eq_some_iff.mp hi
    rw [List.getElem_range]
    rfl
  · obtain ⟨i, -, rfl⟩ := List.mem_map.mp harray
    rfl
  · obtain ⟨i, -, rfl⟩ := List.mem_map.mp harray
    cases hptr
  · exact fun block hblock => nomatch hblock

variable {heap : Heap}

structure Heap.Safe (heap : Heap) : Prop where
  faults : heap.faults = []
  pooled : ∀ array ∈ heap.universal.blocksPools, ∀ ptr ∈ array.poolMemoryBlocks, Backed heap.sizes array.blockSize ptr
  unlimited : ∀ block ∈ heap.universal.unlimited.poolMemoryBlocks, Backed heap.sizes block.size block.ptr

structure Heap.Inv (p : Parameters) (mask : UInt64) (heap : Heap) : Prop where
  universal : heap.universal.Sound p mask heap.sizes
  live : ∀ block ∈ heap.live, p.Accepts block.size ∧ Backed heap.sizes block.size block.ptr
  faults : heap.faults = []

theorem Heap.Inv.safe (h : heap.Inv p mask) : heap.Safe :=
  ⟨h.faults, h.universal.pooled, fun block hblock => (h.universal.unlimited block hblock).2⟩

theorem Heap.serve_cases (hp : p.Proper) (hu : heap.universal.Sound p mask heap.sizes) (size : UInt64) (available : Bool) :
    (∃ index, p.getAllocator size = .bucket index ∧ p.bucketSize index < size ∧
      heap.serve size available = heap.fault (.outOfMemory size (p.bucketSize index))) ∨
    (∀ index, p.getAllocator size = .bucket index → size ≤ p.bucketSize index) ∧
      ∃ u given ptr, heap.serve size available = heap.give u given ptr available ∧ u.Sound p mask heap.sizes ∧
        (∀ owned, ptr = some owned → Backed heap.sizes given owned) ∧
        (given = p.fresh mask size ∨ ∃ block ∈ heap.universal.unlimited.poolMemoryBlocks, given = block.size) := by
  obtain rfl := hu.params
  obtain rfl := hu.mask
  rw [Heap.serve, Parameters.fresh]
  cases hroute : heap.universal.params.getAllocator size with
  | default =>
      exact .inr ⟨(by rintro index ⟨⟩), _, _, _, rfl, hu, (by rintro owned ⟨⟩), .inl rfl⟩
  | unlimited =>
      refine .inr ⟨(by rintro index ⟨⟩), ?_⟩
      dsimp only
      rw [VarSizeList.allocate]
      cases htake : takeBlock (align size heap.universal.unlimited.mask) heap.universal.unlimited.poolMemoryBlocks with
      | none => exact ⟨_, _, _, rfl, ⟨rfl, hu.mask, hu.count, hu.blockSize, hu.blocksCount,
          hu.pooled, hu.unlimited⟩, (by rintro owned ⟨⟩), .inl rfl⟩
      | some r =>
          obtain ⟨block, rest⟩ := r
          obtain ⟨hperm, -⟩ := takeBlock_perm htake
          have hblock : block ∈ heap.universal.unlimited.poolMemoryBlocks := hperm.mem_iff.mpr List.mem_cons_self
          refine ⟨_, _, _, rfl, ⟨rfl, hu.mask, hu.count, hu.blockSize, hu.blocksCount, hu.pooled,
            fun b hb => ?_⟩, fun owned howned => ?_, .inr ⟨block, hblock, rfl⟩⟩
          · exact hu.unlimited b (hperm.mem_iff.mpr (List.mem_cons_of_mem _ hb))
          · obtain rfl := Option.some.inj howned
            exact (hu.unlimited block hblock).2
  | bucket index =>
      obtain ⟨array, hget, hsize⟩ := hu.pool hp hroute
      have hpooled := hu.pooled array (List.mem_of_getElem? hget)
      dsimp only
      rw [hget]
      dsimp only
      rw [ConstSizeArray.allocate]
      by_cases hroom : array.blockSize < size
      · rw [if_pos hroom]
        exact .inl ⟨index, rfl, hsize ▸ hroom, by rw [hsize]⟩
      · rw [if_neg hroom]
        refine .inr ⟨fun index' hbucket => ?_, ?_⟩
        · obtain rfl := Place.bucket.inj hbucket
          exact hsize ▸ UInt64.not_lt.mp hroom
        · cases hpool : array.poolMemoryBlocks with
          | nil =>
              refine ⟨_, _, _, rfl, ?_, (by rintro owned ⟨⟩), .inl hsize⟩
              exact hu.setPool hget rfl rfl fun ptr hptr => absurd hptr List.not_mem_nil
          | cons owned rest =>
              rw [hpool] at hpooled
              refine ⟨_, _, _, rfl, ?_, fun owned' howned => ?_, .inl hsize⟩
              · exact hu.setPool hget rfl rfl fun ptr hptr => hpooled ptr (List.mem_cons_of_mem _ hptr)
              · obtain rfl := Option.some.inj howned
                exact hpooled owned List.mem_cons_self

theorem Heap.Inv.give (h : heap.Inv p mask) (hu : u.Sound p mask heap.sizes) (haccepts : p.Accepts given) {ptr : Option Nat}
    (hbacked : ∀ owned, ptr = some owned → Backed heap.sizes given owned) (available : Bool) :
    (heap.give u given ptr available).Inv p mask := by
  cases ptr with
  | some owned => exact ⟨hu, List.forall_mem_cons.mpr ⟨⟨haccepts, hbacked owned rfl⟩, h.live⟩, h.faults⟩
  | none =>
      cases available with
      | false => exact ⟨hu, h.live, h.faults⟩
      | true =>
          refine ⟨hu.append _, List.forall_mem_cons.mpr ⟨⟨haccepts, given, ?_, UInt64.le_refl _⟩,
            fun block hblock => ?_⟩, h.faults⟩
          · exact List.getElem?_concat_length
          · exact ⟨(h.live block hblock).1, (h.live block hblock).2.append _⟩

theorem Heap.count_eq (hparams : heap.universal.params = p) (ha : p.Allocated) (size : UInt64) :
    heap.count size = heap := by
  have hsucc := limit_succ ha.statistics
  have hle : (min (size >>> p.statisticsPrecision) p.statisticsLimit).toNat ≤ p.statisticsLimit.toNat := by
    have hmin : min (size >>> p.statisticsPrecision) p.statisticsLimit =
        if size >>> p.statisticsPrecision ≤ p.statisticsLimit then size >>> p.statisticsPrecision
        else p.statisticsLimit := rfl
    rw [hmin]
    split_ifs with hsmall
    · exact UInt64.le_iff_toNat_le.mp hsmall
    · exact Nat.le_refl _
  have hlt := ha.statistics
  rw [Heap.count, hparams, if_neg (UInt64.not_le.mpr ha.precision), if_neg]
  rw [hsucc, arraySize_eq ha.statistics, Nat.mod_eq_of_lt (by omega)]
  omega

theorem Heap.Inv.allocate (hp : p.Proper) (ha : p.Allocated) (hgrants : ∀ size, p.Grants mask size) (h : heap.Inv p mask)
    (size : UInt64) (available : Bool) : (heap.allocate size available).Inv p mask := by
  rw [Heap.allocate, Heap.count_eq h.universal.params ha]
  rcases Heap.serve_cases hp h.universal size available with ⟨index, hroute, hlt, -⟩ |
    ⟨-, u, given, ptr, heq, hu, hbacked, hgiven⟩
  · exact absurd ((hgrants size).room index hroute) (UInt64.not_le.mpr hlt)
  · rw [heq]
    refine h.give hu ?_ hbacked available
    rcases hgiven with rfl | ⟨block, hblock, rfl⟩
    · exact (hgrants size).accepted
    · exact (h.universal.unlimited block hblock).1

theorem mem_deallocate {list : VarSizeList} {block b : MemoryBlock} {node : Bool}
    (h : b ∈ (list.deallocate block node).2.poolMemoryBlocks) :
    b = block ∨ b ∈ list.poolMemoryBlocks := by
  rw [VarSizeList.deallocate] at h
  split_ifs at h with hlimit hnode
  · exact List.mem_cons.mp h
  · exact .inr h
  · cases hlast : list.poolMemoryBlocks.getLast? with
    | some last =>
        rw [hlast] at h
        exact (List.mem_cons.mp h).imp_right fun hb => (List.dropLast_sublist _).subset hb
    | none =>
        rw [hlast] at h
        exact .inr h

theorem mask_deallocate (list : VarSizeList) (block : MemoryBlock) (node : Bool) :
    (list.deallocate block node).2.mask = list.mask := by
  rw [VarSizeList.deallocate]
  split_ifs
  · rfl
  · rfl
  · cases list.poolMemoryBlocks.getLast? with
    | some last => rfl
    | none => rfl

theorem accepts_of_faults (hp : p.Proper) (hu : heap.universal.Sound p mask heap.sizes) {i : Nat}
    {block : MemoryBlock} {node : Bool} (h : (heap.deallocate i block node).faults = []) : p.Accepts block.size := by
  obtain rfl := hu.params
  rw [Parameters.Accepts]
  rw [Heap.deallocate] at h
  cases hroute : heap.universal.params.getAllocator block.size with
  | default =>
      rw [hroute] at h
      dsimp only at h
      split_ifs at h with hok
      · exact hok
      · cases h
  | unlimited => trivial
  | bucket index =>
      obtain ⟨array, hget, hsize⟩ := hu.pool hp hroute
      rw [hroute] at h
      dsimp only at h
      rw [hget] at h
      dsimp only at h
      rw [ConstSizeArray.deallocate, hsize] at h
      by_contra hbad
      dsimp only at hbad
      rw [decide_eq_false hbad, if_neg Bool.false_ne_true] at h
      cases h

theorem outside_eq {array : ConstSizeArray} (h : array.maxBlocksCount.toNat < 2 ^ 32) : array.outside = false := by
  rw [ConstSizeArray.outside, arraySize_eq h]
  exact decide_eq_false fun hboth => Nat.not_lt.mpr hboth.2 hboth.1

theorem Heap.Inv.deallocate (hp : p.Proper) (ha : p.Allocated) (h : heap.Inv p mask) {i : Nat}
    {block : MemoryBlock} (hblock : heap.live[i]? = some block)
    (node : Bool) : (heap.deallocate i block node).Inv p mask := by
  obtain ⟨haccepts, hbacked⟩ := h.live block (List.mem_of_getElem? hblock)
  have hlive : ∀ b ∈ heap.live.eraseIdx i, p.Accepts b.size ∧ Backed heap.sizes b.size b.ptr :=
    fun b hb => h.live b (List.mem_of_mem_eraseIdx hb)
  have hu := h.universal
  obtain rfl := hu.params
  rw [Heap.deallocate]
  rw [Parameters.Accepts] at haccepts
  cases hroute : heap.universal.params.getAllocator block.size with
  | default =>
      rw [hroute] at haccepts
      dsimp only at haccepts ⊢
      rw [if_pos haccepts]
      exact ⟨hu, hlive, h.faults⟩
  | unlimited =>
      refine ⟨⟨rfl, (mask_deallocate _ _ _).trans hu.mask, hu.count, hu.blockSize,
        hu.blocksCount, hu.pooled, fun b hb => ?_⟩, hlive, h.faults⟩
      rcases mem_deallocate hb with rfl | hold
      · exact h.live b (List.mem_of_getElem? hblock)
      · exact hu.unlimited b hold
  | bucket index =>
      obtain ⟨array, hget, hsize⟩ := hu.pool hp hroute
      have hpooled := hu.pooled array (List.mem_of_getElem? hget)
      rw [hroute] at haccepts
      dsimp only at haccepts ⊢
      rw [hget]
      dsimp only
      have hinside : array.outside = false := by
        refine outside_eq ?_
        rw [hu.blocksCount array (List.mem_of_getElem? hget)]
        exact ha.blocks _ _ hroute haccepts
      rw [ConstSizeArray.deallocate, decide_eq_true (haccepts.trans hsize.symm), hinside]
      refine ⟨hu.setPool hget ?_ ?_ ?_, hlive, h.faults⟩
      · split_ifs
        · rfl
        · rfl
      · split_ifs
        · rfl
        · rfl
      · split_ifs
        · exact List.forall_mem_cons.mpr ⟨hsize ▸ haccepts ▸ hbacked, hpooled⟩
        · exact hpooled

theorem Heap.Inv.step (hp : p.Proper) (ha : p.Allocated) (hgrants : ∀ size, p.Grants mask size) {action : Action}
    {next : Heap} (h : heap.Inv p mask) (hstep : heap.step action = some next) : next.Inv p mask := by
  cases action with
  | allocate size available =>
      obtain rfl := Option.some.inj hstep
      exact h.allocate hp ha hgrants size available
  | deallocate i node =>
      obtain ⟨block, hblock, hstep⟩ := Option.bind_eq_some_iff.mp hstep
      obtain rfl := Option.some.inj hstep
      exact h.deallocate hp ha hblock node

/-! ## 安全な引数 -/

def Universal.AlwaysSafe (u : Universal) : Prop :=
  ∀ actions heap, execute Heap.step (Heap.init u) actions = some heap → heap.Safe

theorem Heap.count_fields (heap : Heap) (size : UInt64) :
    (heap.count size).universal = heap.universal ∧ (heap.count size).live = heap.live ∧
    (heap.count size).sizes = heap.sizes := by
  unfold Heap.count
  dsimp only
  split_ifs <;> exact ⟨rfl, rfl, rfl⟩

theorem grants_of_safe (hp : p.Proper) (hu : u.Sound p mask []) (hnil : u.unlimited.poolMemoryBlocks = [])
    (hsafe : u.AlwaysSafe) (size : UInt64) : p.Grants mask size := by
  have hfirst := (hsafe [.allocate size true] _ rfl).faults
  obtain ⟨hsame, hlive, hsizes⟩ := Heap.count_fields (Heap.init u) size
  have hstart : ((Heap.init u).count size).universal.Sound p mask ((Heap.init u).count size).sizes := by
    rw [hsame, hsizes]
    exact hu
  have hallocate : (Heap.init u).allocate size true = ((Heap.init u).count size).serve size true := rfl
  rcases Heap.serve_cases hp hstart size true with ⟨index, -, -, heq⟩ | ⟨hroom, u', given, ptr, heq, hu', hbacked, hgiven⟩
  · rw [hallocate, heq] at hfirst
    cases hfirst
  · have hgiven : given = p.fresh mask size := hgiven.resolve_right fun ⟨block, hblock, _⟩ => by
      rw [hsame] at hblock
      change block ∈ u.unlimited.poolMemoryBlocks at hblock
      rw [hnil] at hblock
      cases hblock
    refine ⟨hroom, hgiven ▸ ?_⟩
    rw [hsizes] at hu' hbacked
    cases ptr with
    | some owned =>
        obtain ⟨actual, hget, -⟩ := hbacked owned rfl
        cases hget
    | none =>
        have hgive : ((Heap.init u).count size).give u' given none true =
            { (Heap.init u).count size with universal := u', live := [⟨given, 0⟩], sizes := [given] } := by
          simp only [Heap.give, hlive, hsizes]
          rfl
        rw [hgive] at heq
        have hsecond := (hsafe [.allocate size true, .deallocate 0 true] _
          (execute_cons.mpr ⟨_, congrArg some (hallocate.trans heq), rfl⟩)).faults
        exact accepts_of_faults hp (hu'.append [given]) hsecond

theorem Heap.serve_faults (h : (heap.serve size true).faults = []) : heap.faults = [] := by
  have hgive : ∀ u given ptr, (heap.give u given ptr true).faults = heap.faults := by
    intro u given ptr
    cases ptr <;> rfl
  unfold Heap.serve at h
  dsimp only at h
  cases hroute : heap.universal.params.getAllocator size with
  | default =>
      rw [hroute] at h
      exact (hgive _ _ _).symm.trans h
  | unlimited =>
      rw [hroute] at h
      exact (hgive _ _ _).symm.trans h
  | bucket index =>
      rw [hroute] at h
      dsimp only at h
      split at h
      · cases h
      · split at h
        · cases h
        · exact (hgive _ _ _).symm.trans h

structure Stock (p : Parameters) (index size : UInt64) (n k : Nat) (heap : Heap) : Prop where
  params : heap.universal.params = p
  live : heap.live.length = n
  sized : ∀ block ∈ heap.live, block.size = size
  pool : ∃ array, heap.universal.blocksPools[index.toNat]? = some array ∧ array.blockSize = size ∧
    array.maxBlocksCount = p.bucketBlocksCount ∧ array.poolMemoryBlocks.length = k

variable {index : UInt64} {n k : Nat}

theorem Stock.allocate (h : Stock p index size n 0 heap) (hroute : p.getAllocator size = .bucket index) :
    Stock p index size (n + 1) 0 (heap.allocate size true) := by
  obtain ⟨array, hget, hblock, hmax, hempty⟩ := h.pool
  obtain ⟨hsame, hlive, -⟩ := Heap.count_fields heap size
  have hparams := h.params
  have hn := h.live
  have hsize := h.sized
  rw [Heap.allocate]
  generalize heap.count size = heap' at hsame hlive
  rw [← hsame] at hget hparams
  rw [← hlive] at hn hsize
  obtain rfl := hparams
  have hallocate : array.allocate size = some (size, none, { array with misses := array.misses + 1 }) := by
    rw [ConstSizeArray.allocate, hblock, if_neg (UInt64.lt_irrefl size), List.length_eq_zero_iff.mp hempty]
  have hserve : heap'.serve size true = heap'.give
      { heap'.universal with
        blocksPools := heap'.universal.blocksPools.set index.toNat
          { array with misses := array.misses + 1 } } size none true := by
    rw [Heap.serve, hroute]
    dsimp only
    rw [hget]
    dsimp only
    rw [hallocate]
  rw [hserve]
  refine ⟨rfl, congrArg (· + 1) hn, List.forall_mem_cons.mpr ⟨rfl, hsize⟩,
    { array with misses := array.misses + 1 }, ?_, hblock, hmax, hempty⟩
  exact List.getElem?_set_self (List.getElem?_eq_some_iff.mp hget).1

theorem Stock.deallocate (h : Stock p index size (n + 1) k heap)
    (hroute : p.getAllocator size = .bucket index) (hlt : k < p.bucketBlocksCount.toNat) :
    ∃ next, heap.step (.deallocate 0 true) = some next ∧ Stock p index size n (k + 1) next ∧
      (next.faults = [] → k < arraySize p.bucketBlocksCount.toNat) := by
  obtain rfl := h.params
  obtain ⟨array, hget, hblock, hmax, hlength⟩ := h.pool
  obtain ⟨block, rest, hlive⟩ := List.exists_cons_of_length_eq_add_one h.live
  have hsize : block.size = size := h.sized block (hlive ▸ List.mem_cons_self)
  have hn := h.live
  rw [hlive, List.length_cons] at hn
  have hinside : array.poolMemoryBlocks.length < array.maxBlocksCount.toNat := by rwa [hmax, hlength]
  let returned : ConstSizeArray := { array with poolMemoryBlocks := block.ptr :: array.poolMemoryBlocks }
  let kept : Heap :=
    { heap with
      live := rest
      universal := { heap.universal with blocksPools := heap.universal.blocksPools.set index.toNat returned } }
  have hstep : heap.step (.deallocate 0 true) = some (heap.deallocate 0 block true) := by
    rw [Heap.step, hlive]
    rfl
  have hresult : heap.deallocate 0 block true = if array.outside then kept.fault .outside else kept := by
    rw [Heap.deallocate, hsize, hroute]
    dsimp only
    rw [hget]
    dsimp only
    rw [ConstSizeArray.deallocate, if_pos hinside, decide_eq_true hblock.symm, if_pos rfl, hlive]
    rfl
  have hkept : Stock heap.universal.params index size n (k + 1) kept := by
    refine ⟨rfl, Nat.succ.inj hn, fun b hb => h.sized b (hlive ▸ List.mem_cons_of_mem _ hb),
      returned, ?_, hblock, hmax, congrArg (· + 1) hlength⟩
    exact List.getElem?_set_self (List.getElem?_eq_some_iff.mp hget).1
  refine ⟨_, hstep, ?_, fun hfaults => ?_⟩
  · rw [hresult]
    split_ifs
    · exact ⟨hkept.params, hkept.live, hkept.sized, hkept.pool⟩
    · exact hkept
  · rw [hresult] at hfaults
    split_ifs at hfaults with hout
    · cases hfaults
    · by_contra hge
      rw [ConstSizeArray.outside, hmax, hlength] at hout
      exact hout (decide_eq_true ⟨hlt, Nat.not_lt.mp hge⟩)

theorem exists_stock (hstock : Stock p index size 0 0 (Heap.init u))
    (hroute : p.getAllocator size = .bucket index) (n : Nat) :
    ∃ actions heap, execute Heap.step (Heap.init u) actions = some heap ∧ Stock p index size n 0 heap := by
  induction n with
  | zero => exact ⟨[], _, rfl, hstock⟩
  | succ n ih =>
      obtain ⟨actions, heap, hrun, hheap⟩ := ih
      exact ⟨actions ++ [.allocate size true], _, execute_append.mpr ⟨heap, hrun, rfl⟩, hheap.allocate hroute⟩

theorem blocks_of_safe (hp : p.Proper) (hu : u.Sound p mask []) (hsafe : u.AlwaysSafe)
    (hroute : p.getAllocator size = .bucket index) (hsize : size = p.bucketSize index) :
    p.bucketBlocksCount.toNat < 2 ^ 32 := by
  obtain ⟨array, hget, hblock⟩ := hu.pool hp hroute
  have hmem := List.mem_of_getElem? hget
  have hempty : array.poolMemoryBlocks.length = 0 := by
    rw [List.length_eq_zero_iff, List.eq_nil_iff_forall_not_mem]
    intro ptr hptr
    obtain ⟨actual, hactual, -⟩ := hu.pooled array hmem ptr hptr
    cases hactual
  have hstock : Stock p index size 0 0 (Heap.init u) :=
    ⟨hu.params, rfl, fun b hb => absurd hb List.not_mem_nil, array, hget, hblock.trans hsize.symm,
      hu.blocksCount array hmem, hempty⟩
  by_contra hlarge
  have hcut := arraySize_lt p.bucketBlocksCount.toNat
  have hreturns : ∀ n k, n + k = arraySize p.bucketBlocksCount.toNat + 1 → k ≤ arraySize p.bucketBlocksCount.toNat →
      ¬ ∃ actions heap, execute Heap.step (Heap.init u) actions = some heap ∧ Stock p index size n k heap := by
    intro n
    induction n with
    | zero => omega
    | succ n ih =>
        rintro k hk hle ⟨actions, heap, hrun, hheap⟩
        obtain ⟨next, hstep, hnext, hfaults⟩ := hheap.deallocate hroute (by omega)
        have hrun' : execute Heap.step (Heap.init u) (actions ++ [.deallocate 0 true]) = some next :=
          execute_append.mpr ⟨heap, hrun, execute_cons.mpr ⟨next, hstep, rfl⟩⟩
        have hlt := hfaults (hsafe _ _ hrun').faults
        exact ih (k + 1) (by omega) hlt ⟨_, _, hrun', hnext⟩
  exact hreturns _ 0 rfl (Nat.zero_le _) (exists_stock hstock hroute _)

theorem statistics_of_safe (hu : u.Sound p mask []) (hsafe : u.AlwaysSafe)
    (hinside : overfills (p.statisticsLimit + 1) = false) :
    p.statisticsPrecision < 64 ∧ p.statisticsLimit.toNat + 1 < 2 ^ 32 := by
  have hcount : ((Heap.init u).count 0).faults = [] := Heap.serve_faults (hsafe [.allocate 0 true] _ rfl).faults
  have hparams : (Heap.init u).universal.params = p := hu.params
  rw [Heap.count, hparams] at hcount
  split_ifs at hcount with hshift hindex
  · cases hcount
  · cases hcount
  · refine ⟨UInt64.not_le.mp hshift, ?_⟩
    have hsmall := overfills_iff.mp hinside
    have hlimit := p.statisticsLimit.toNat_lt
    have hone : (1 : UInt64).toNat = 1 := rfl
    rw [arraySize_eq hsmall] at hindex
    rw [UInt64.toNat_add, hone] at hsmall hindex
    omega

theorem allocated_of_safe (hp : p.Proper) (hu : u.Sound p mask [])
    (houtside : u.outside = (overfills p.bucketsNumber || overfills (p.statisticsLimit + 1)))
    (hsafe : u.AlwaysSafe) : p.Allocated := by
  have hstart := (hsafe [] _ rfl).faults
  have hnot : u.outside = false := by
    cases hout : u.outside with
    | false => rfl
    | true =>
        rw [Heap.init, hout] at hstart
        cases hstart
  obtain ⟨hbuckets, hlimit⟩ := Bool.or_eq_false_iff.mp (houtside.symm.trans hnot)
  obtain ⟨hprecision, hstatistics⟩ := statistics_of_safe hu hsafe hlimit
  exact ⟨hprecision, hstatistics, overfills_iff.mp hbuckets, fun size index hroute hsize =>
    blocks_of_safe hp hu hsafe hroute hsize⟩

theorem safe_iff_grants (hp : p.Proper) (hu : u.Sound p mask []) (hnil : u.unlimited.poolMemoryBlocks = [])
    (houtside : u.outside = (overfills p.bucketsNumber || overfills (p.statisticsLimit + 1))) :
    u.AlwaysSafe ↔ p.Allocated ∧ ∀ size, p.Grants mask size := by
  refine ⟨fun hsafe => ⟨allocated_of_safe hp hu houtside hsafe, grants_of_safe hp hu hnil hsafe⟩, ?_⟩
  rintro ⟨ha, hgrants⟩ actions heap hrun
  have hnot : u.outside = false := by
    rw [houtside, overfills_iff.mpr ha.buckets, Bool.false_or, overfills_iff, limit_succ ha.statistics]
    exact ha.statistics
  have hinit : (Heap.init u).Inv p mask := by
    refine ⟨hu, fun block hblock => absurd hblock List.not_mem_nil, ?_⟩
    rw [Heap.init, hnot]
    rfl
  exact (execute_always (fun _ _ _ h hstep => h.step hp ha hgrants hstep) hinit hrun).safe

end UnixCommons.Generics.Allocator
