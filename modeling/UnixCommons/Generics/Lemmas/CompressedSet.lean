import Mathlib
import UnixCommons.Generics.CompressedSet

/-!
# 区間で表した集合の補題

区間は離れて昇順に並び、型の範囲にあり、`last_found_` は今ある要素を指す。
-/

namespace UnixCommons.Generics.CompressedSet

open Lib

variable {T : IntegerType} {low high highNext key value v : Int} {holder left right rest : Holder} {s s' : State}

theorem safeNext_eq (T : IntegerType) (h : v < T.max) : T.safeNext v = v + 1 := if_pos h

theorem safeNext_max (h : v = T.max) : T.safeNext v = T.max := by
  rw [IntegerType.safeNext, if_neg (by omega), h]

structure HolderInv (T : IntegerType) (holder : Holder) : Prop where
  separated : Separated holder
  range : ∀ e ∈ holder, T.min ≤ e.1 ∧ e.2 ≤ T.max

theorem HolderInv.nil : HolderInv T [] := ⟨separated_nil, by simp⟩

theorem HolderInv.of_append (h : HolderInv T (left ++ right)) : HolderInv T right :=
  ⟨(separated_append.mp h.separated).2.1, fun e he => h.range e (List.mem_append_right _ he)⟩

theorem HolderInv.tail {e : Int × Int} (h : HolderInv T (e :: rest)) : HolderInv T rest :=
  ⟨(separated_cons.mp h.separated).2.2, fun x hx => h.range x (List.mem_cons_of_mem e hx)⟩

theorem HolderInv.cons {e : Int × Int} (h : HolderInv T rest) (hle : e.1 ≤ e.2) (hx : ∀ x ∈ rest, e.2 + 1 < x.1)
    (hmin : T.min ≤ e.1) (hmax : e.2 ≤ T.max) : HolderInv T (e :: rest) := by
  refine ⟨separated_cons.mpr ⟨hle, hx, h.separated⟩, ?_⟩
  intro x hm
  rcases List.mem_cons.mp hm with rfl | hm
  · exact ⟨hmin, hmax⟩
  · exact h.range x hm

theorem HolderInv.append (h : HolderInv T (left ++ right)) (h' : HolderInv T rest)
    (hge : ∀ b ∈ rest, ∃ e ∈ right, e.1 ≤ b.1) : HolderInv T (left ++ rest) := by
  refine ⟨h.separated.append_replace h'.separated hge, ?_⟩
  intro e he
  rcases List.mem_append.mp he with he | he
  · exact h.range e (List.mem_append_left _ he)
  · exact h'.range e he

theorem HolderInv.erase_head {e : Int × Int} (h : HolderInv T (left ++ e :: rest)) : HolderInv T (left ++ rest) := by
  refine h.append h.of_append.tail ?_
  intro b hb
  exact ⟨b, List.mem_cons_of_mem e hb, Int.le_refl _⟩

theorem HolderInv.head_spec {e : Int × Int} (h : HolderInv T (e :: rest)) :
    e.1 ≤ e.2 ∧ (∀ x ∈ rest, e.2 + 1 < x.1) ∧ T.min ≤ e.1 ∧ e.2 ≤ T.max :=
  ⟨(separated_cons.mp h.separated).1, (separated_cons.mp h.separated).2.1, h.range e List.mem_cons_self⟩

theorem not_mem_denoted_of_lt (h : ∀ e ∈ left, e.2 < low) (hv : low ≤ v) : v ∉ denoted left := by
  rintro ⟨e, he, -, h₂⟩
  have := h e he
  omega

theorem not_mem_denoted_of_gt (h : ∀ e ∈ right, high < e.1) (hv : v ≤ high) : v ∉ denoted right := by
  rintro ⟨e, he, h₁, -⟩
  have := h e he
  omega

/-! ## 分け目 -/

theorem lowerBound_append (key : Int) (holder : Holder) : (lowerBound key holder).1 ++ (lowerBound key holder).2 = holder :=
  List.takeWhile_append_dropWhile

theorem lowerBound_left (key : Int) (holder : Holder) : ∀ e ∈ (lowerBound key holder).1, e.1 < key := by
  intro e he
  simpa using List.mem_takeWhile_imp he

theorem lowerBound_right (h : Separated holder) : ∀ e ∈ (lowerBound key holder).2, key ≤ e.1 := by
  induction holder with
  | nil => simp [lowerBound]
  | cons a holder ih =>
      obtain ⟨ha, hx, hs⟩ := separated_cons.mp h
      intro e he
      by_cases hlt : a.1 < key
      · have hdrop : (lowerBound key (a :: holder)).2 = (lowerBound key holder).2 := by
          simp [lowerBound, hlt]
        rw [hdrop] at he
        exact ih hs e he
      · have hdrop : (lowerBound key (a :: holder)).2 = a :: holder := by
          simp [lowerBound, hlt]
        rw [hdrop] at he
        rcases List.mem_cons.mp he with rfl | he
        · omega
        · have := hx e he
          omega

theorem lowerBound_split (h : Separated holder) (hb : lowerBound key holder = (left, right)) :
    holder = left ++ right ∧ (∀ e ∈ left, e.1 < key) ∧ (∀ e ∈ right, key ≤ e.1) := by
  have h₁ := lowerBound_append key holder
  have h₂ := lowerBound_left key holder
  have h₃ : ∀ e ∈ (lowerBound key holder).2, key ≤ e.1 := lowerBound_right h
  rw [hb] at h₁ h₂ h₃
  exact ⟨h₁.symm, h₂, h₃⟩

theorem tail_gt (h : Separated right) (hr : ∀ e ∈ right, key ≤ e.1) : ∀ x ∈ right.tail, key < x.1 := by
  cases right with
  | nil => simp
  | cons e right =>
      obtain ⟨he, hx, -⟩ := separated_cons.mp h
      intro x hm
      have := hx x hm
      have := hr e List.mem_cons_self
      omega

theorem startAt_spec (h : Separated holder) (hb : startAt low holder = (left, right)) :
    holder = left ++ right ∧ (∀ a ∈ left, a.2 + 1 < low) ∧ ∀ x ∈ right.tail, low < x.1 := by
  obtain ⟨l, r, hlb⟩ : ∃ l r, lowerBound low holder = (l, r) := ⟨_, _, rfl⟩
  obtain ⟨heq, hl, hr⟩ := lowerBound_split h hlb
  obtain ⟨hsl, hsr, hx⟩ := separated_append.mp (heq ▸ h)
  unfold startAt at hb
  rw [hlb] at hb
  dsimp only at hb
  rcases List.eq_nil_or_concat' l with rfl | ⟨l', p, rfl⟩
  · obtain ⟨rfl, rfl⟩ : [] = left ∧ r = right := by simpa using hb
    exact ⟨heq, by simp, tail_gt hsr hr⟩
  · -- `p` は、鍵が `low` より小さい最後の区間である。
    have hp : ∀ a ∈ l', a.2 + 1 < low := by
      intro a ha
      have h₁ := (separated_append.mp hsl).2.2 a ha p (by simp)
      have h₂ := hl p (by simp)
      omega
    cases r with
    | nil =>
        obtain ⟨rfl, rfl⟩ : l' = left ∧ [p] = right := by simpa using hb
        exact ⟨by simpa using heq, hp, by simp⟩
    | cons e r =>
        have he := hr e List.mem_cons_self
        by_cases hlow : e.1 = low
        · obtain ⟨rfl, rfl⟩ : l' ++ [p] = left ∧ e :: r = right := by simpa [hlow] using hb
          refine ⟨heq, ?_, tail_gt hsr hr⟩
          intro a ha
          have := hx a ha e List.mem_cons_self
          omega
        · obtain ⟨rfl, rfl⟩ : l' = left ∧ p :: e :: r = right := by simpa [hlow] using hb
          refine ⟨by simpa using heq, hp, ?_⟩
          intro x hm
          rcases List.mem_cons.mp hm with rfl | hm
          · omega
          · exact tail_gt hsr hr x hm

theorem insertAt_spec (value : Int) (h : Separated holder) (hne : ∀ e ∈ holder, e.1 ≠ key) :
    ∃ left right, insertAt key value holder = (left, (key, value), right) ∧ holder = left ++ right ∧
      (∀ e ∈ left, e.1 < key) ∧ ∀ e ∈ right, key < e.1 := by
  obtain ⟨l, r, hlb⟩ : ∃ l r, lowerBound key holder = (l, r) := ⟨_, _, rfl⟩
  obtain ⟨heq, hl, hr⟩ := lowerBound_split h hlb
  refine ⟨l, r, ?_, heq, hl, ?_⟩
  · cases r with
    | nil => simp [insertAt, hlb]
    | cons e r => simp [insertAt, hlb, hne e (by simp [heq])]
  · intro e he
    have h₁ := hr e he
    have h₂ := hne e (by simp [heq, he])
    omega

theorem insert_eq_cons (h : ∀ e ∈ holder, key < e.1) : insert key value holder = (key, value) :: holder := by
  cases holder with
  | nil => simp [insert, insertAt, lowerBound]
  | cons e rest =>
      have he := h e List.mem_cons_self
      have h₁ : ¬ e.1 < key := by omega
      have h₂ : e.1 ≠ key := by omega
      simp [insert, insertAt, lowerBound, h₁, h₂]

/-! ## 加えること -/

theorem overlapLoop_spec {base : Int × Int} (h : HolderInv T rest) (hlow : base.1 ≤ high)
    (hmin : T.min ≤ base.1) (hhigh : high ≤ base.2) (hmax : base.2 ≤ T.max)
    (hgt : ∀ x ∈ rest, base.1 < x.1) (hbase : base.2 = high ∨ ∀ x ∈ rest, base.2 + 1 < x.1) :
    HolderInv T (overlapLoop high (T.safeNext high) base rest) ∧
      (∀ b ∈ overlapLoop high (T.safeNext high) base rest, base.1 ≤ b.1) ∧
      ∀ v, v ∈ denoted (overlapLoop high (T.safeNext high) base rest) ↔ v ∈ denoted (base :: rest) := by
  induction rest with
  | nil =>
      refine ⟨HolderInv.nil.cons (by omega) (by simp) hmin hmax, by simp [overlapLoop], ?_⟩
      simp [overlapLoop]
  | cons e rest ih =>
      obtain ⟨hle, hx, hemin, hemax⟩ := h.head_spec
      have hlt := hgt e List.mem_cons_self
      have hgt' : ∀ x ∈ rest, base.1 < x.1 := fun x hm => hgt x (List.mem_cons_of_mem e hm)
      rw [overlapLoop]
      by_cases hnext : e.1 ≤ T.safeNext high
      · have hnext' : e.1 ≤ high + 1 := by
          unfold IntegerType.safeNext at hnext
          split at hnext <;> omega
        have hb : base.2 = high := by
          rcases hbase with hb | hb
          · exact hb
          · have := hb e List.mem_cons_self
            omega
        rw [if_pos hnext]
        by_cases hover : e.2 > high
        · rw [if_pos hover]
          refine ⟨h.tail.cons (by dsimp only; omega) hx hmin hemax, ?_, ?_⟩
          · intro b hm
            rcases List.mem_cons.mp hm with rfl | hm
            · exact Int.le_refl _
            · exact Int.le_of_lt (hgt' b hm)
          · intro v
            simp only [mem_denoted_cons]
            by_cases hv : v ∈ denoted rest
            · simp only [hv, or_true]
            · simp only [hv, or_false]
              omega
        · rw [if_neg hover]
          obtain ⟨h₁, h₂, h₃⟩ := ih h.tail hgt' (.inl hb)
          refine ⟨h₁, h₂, ?_⟩
          intro v
          rw [h₃]
          simp only [mem_denoted_cons]
          by_cases hv : v ∈ denoted rest
          · simp only [hv, or_true]
          · simp only [hv, or_false]
            omega
      · rw [if_neg hnext]
        have hgap : base.2 + 1 < e.1 := by
          rcases hbase with hb | hb
          · unfold IntegerType.safeNext at hnext
            split at hnext <;> omega
          · exact hb e List.mem_cons_self
        refine ⟨h.cons (by omega) ?_ hmin hmax, ?_, fun v => Iff.rfl⟩
        · intro x hm
          rcases List.mem_cons.mp hm with rfl | hm
          · exact hgap
          · have := hx x hm
            omega
        · intro b hm
          rcases List.mem_cons.mp hm with rfl | hm
          · exact Int.le_refl _
          · exact Int.le_of_lt (hgt b hm)

theorem append_overlapLoop_spec {base : Int × Int} (h : HolderInv T (left ++ rest)) (hleft : ∀ a ∈ left, a.2 + 1 < base.1)
    (hlow : base.1 ≤ high) (hmin : T.min ≤ base.1) (hhigh : high ≤ base.2) (hmax : base.2 ≤ T.max)
    (hgt : ∀ x ∈ rest, base.1 < x.1) (hbase : base.2 = high ∨ ∀ x ∈ rest, base.2 + 1 < x.1) :
    HolderInv T (left ++ overlapLoop high (T.safeNext high) base rest) ∧
      ∀ v, v ∈ denoted (left ++ overlapLoop high (T.safeNext high) base rest) ↔
        v ∈ denoted (left ++ rest) ∨ base.1 ≤ v ∧ v ≤ base.2 := by
  obtain ⟨h₁, h₂, h₃⟩ := overlapLoop_spec h.of_append hlow hmin hhigh hmax hgt hbase
  constructor
  · refine ⟨separated_append.mpr ⟨(separated_append.mp h.separated).1, h₁.separated, ?_⟩, ?_⟩
    · intro a ha b hb
      have := hleft a ha
      have := h₂ b hb
      omega
    · intro e he
      rcases List.mem_append.mp he with he | he
      · exact h.range e (List.mem_append_left _ he)
      · exact h₁.range e he
  · intro v
    rw [mem_denoted_append, h₃, mem_denoted_cons, mem_denoted_append]
    grind

theorem insertAt_overlapLoop_spec (h : HolderInv T holder) (hle : low ≤ high) (hlow : T.min ≤ low)
    (hhigh : high ≤ T.max) (hne : ∀ e ∈ holder, e.1 ≤ low → e.2 + 1 < low) :
    ∃ left base rest, insertAt low high holder = (left, base, rest) ∧
      HolderInv T (left ++ overlapLoop high (T.safeNext high) base rest) ∧
      ∀ v, v ∈ denoted (left ++ overlapLoop high (T.safeNext high) base rest) ↔ v ∈ denoted holder ∨ low ≤ v ∧ v ≤ high := by
  have hkey : ∀ e ∈ holder, e.1 ≠ low := by
    intro e he heq
    have h₁ := hne e he (by omega)
    have h₂ := h.separated.proper e he
    omega
  obtain ⟨left, rest, heq, rfl, hleft, hgt⟩ := insertAt_spec high h.separated hkey
  refine ⟨left, (low, high), rest, heq, ?_⟩
  refine append_overlapLoop_spec h ?_ hle hlow (Int.le_refl _) hhigh hgt (.inl rfl)
  intro a ha
  exact hne a (List.mem_append_left _ ha) (Int.le_of_lt (hleft a ha))

theorem State.add_spec (h : HolderInv T s.holder) (hlow : T.min ≤ low) (hhigh : high ≤ T.max) :
    HolderInv T (s.add T low high).holder ∧
      ∀ v, v ∈ denoted (s.add T low high).holder ↔ v ∈ denoted s.holder ∨ low ≤ v ∧ v ≤ high := by
  unfold State.add
  by_cases hle : low > high
  · rw [if_pos hle]
    refine ⟨h, ?_⟩
    intro v
    have : ¬ (low ≤ v ∧ v ≤ high) := by omega
    simp [this]
  · rw [if_neg hle]
    obtain ⟨left, right, hb⟩ : ∃ left right, startAt low s.holder = (left, right) := ⟨_, _, rfl⟩
    obtain ⟨heq, hleft, htail⟩ := startAt_spec h.separated hb
    rw [hb]
    cases right with
    | nil =>
        have hne : ∀ e ∈ s.holder, e.1 ≤ low → e.2 + 1 < low := by
          intro e he _
          rw [heq, List.append_nil] at he
          exact hleft e he
        obtain ⟨l, base, rest, hins, hspec⟩ := insertAt_overlapLoop_spec h (by omega) hlow hhigh hne
        dsimp only
        rw [hins]
        exact hspec
    | cons e rest =>
        have hinv : HolderInv T (left ++ e :: rest) := heq ▸ h
        obtain ⟨hle', hx, hmin, hmax⟩ := hinv.of_append.head_spec
        dsimp only
        by_cases hcond : e.1 > low ∨ T.safeNext e.2 < low
        · rw [if_pos hcond]
          have hne : ∀ x ∈ s.holder, x.1 ≤ low → x.2 + 1 < low := by
            intro x hm hxlow
            rw [heq] at hm
            rcases List.mem_append.mp hm with hm | hm
            · exact hleft x hm
            · rcases List.mem_cons.mp hm with rfl | hm
              · rcases hcond with hcond | hcond
                · omega
                · unfold IntegerType.safeNext at hcond
                  split at hcond <;> omega
              · have := htail x hm
                omega
          obtain ⟨l, base, rest, hins, hspec⟩ := insertAt_overlapLoop_spec h (by omega) hlow hhigh hne
          rw [hins]
          exact hspec
        · rw [if_neg hcond]
          have hreach : e.1 ≤ low ∧ low ≤ e.2 + 1 := by
            unfold IntegerType.safeNext at hcond
            split at hcond <;> omega
          obtain ⟨second, hsecond⟩ : ∃ second, second = if e.2 < high then high else e.2 := ⟨_, rfl⟩
          rw [← hsecond]
          have hs : (second = high ∧ e.2 < high) ∨ (second = e.2 ∧ high ≤ e.2) := by
            split at hsecond <;> omega
          have hspec : HolderInv T (left ++ overlapLoop high (T.safeNext high) (e.1, second) rest) ∧
              ∀ v, v ∈ denoted (left ++ overlapLoop high (T.safeNext high) (e.1, second) rest) ↔
                v ∈ denoted (left ++ rest) ∨ e.1 ≤ v ∧ v ≤ second := by
            refine append_overlapLoop_spec hinv.erase_head ?_ ?_ hmin ?_ ?_ ?_ ?_
            · intro a ha
              exact (separated_append.mp hinv.separated).2.2 a ha e List.mem_cons_self
            all_goals dsimp only
            · omega
            · omega
            · omega
            · intro x hm
              have := hx x hm
              omega
            · rcases hs with hs | hs
              · exact .inl hs.1
              · exact .inr (hs.1 ▸ hx)
          refine ⟨hspec.1, ?_⟩
          intro v
          rw [hspec.2, heq, mem_denoted_append, mem_denoted_append, mem_denoted_cons]
          by_cases hv : v ∈ denoted left ∨ v ∈ denoted rest
          · grind
          · have : (e.1 ≤ v ∧ v ≤ second) ↔ (e.1 ≤ v ∧ v ≤ e.2) ∨ (low ≤ v ∧ v ≤ high) := by omega
            grind

/-! ## 除くこと -/

def Remains (T : IntegerType) (low high : Int) (holder : Holder) (v : Int) : Prop :=
  (v ∈ denoted holder ∧ ¬ (low ≤ v ∧ v ≤ high)) ∨ (v = T.max ∧ high = T.max ∧ (T.max, T.max) ∈ holder)

theorem remains_of_lt (h : high < T.max) : Remains T low high holder v ↔ v ∈ denoted holder ∧ ¬ (low ≤ v ∧ v ≤ high) := by
  have hne : ¬ high = T.max := by omega
  simp only [Remains, hne, false_and, and_false, or_false]

theorem remains_cons_of_inside {e : Int × Int} (h₁ : low ≤ e.1) (h₂ : e.2 ≤ high) (hne : high = T.max → e ≠ (T.max, T.max)) :
    Remains T low high (e :: rest) v ↔ Remains T low high rest v := by
  unfold Remains
  refine or_congr ?_ ?_
  · rw [mem_denoted_cons]
    refine ⟨fun h => ⟨h.1.resolve_left fun hv => h.2 (by omega), h.2⟩, fun h => ⟨.inr h.1, h.2⟩⟩
  · refine and_congr_right fun _ => and_congr_right fun hm => ?_
    rw [List.mem_cons]
    exact or_iff_right fun heq => hne hm heq.symm

theorem remains_cons_of_before {e : Int × Int} (h : e.2 < low) (hle : low ≤ high) (hmax : high ≤ T.max) :
    Remains T low high (e :: rest) v ↔ (e.1 ≤ v ∧ v ≤ e.2) ∨ Remains T low high rest v := by
  have hne : (T.max, T.max) ≠ e := by
    rintro rfl
    dsimp only at h
    omega
  unfold Remains
  rw [mem_denoted_cons, List.mem_cons, or_iff_right hne, or_and_right, or_assoc]
  refine or_congr_left ?_
  exact and_iff_left_of_imp fun hv hr => by omega

theorem remains_of_stop {e : Int × Int} (h : HolderInv T (e :: rest)) (hmax : high ≤ T.max) (hnext : T.safeNext high ≤ e.1) :
    v ∈ denoted (e :: rest) ↔ Remains T low high (e :: rest) v := by
  obtain ⟨hle, hx, -, hemax⟩ := h.head_spec
  by_cases hlt : high < T.max
  · rw [safeNext_eq T hlt] at hnext
    rw [remains_of_lt hlt]
    refine (and_iff_left_of_imp ?_).symm
    intro hv hr
    refine not_mem_denoted_of_gt ?_ hr.2 hv
    intro x hm
    rcases List.mem_cons.mp hm with rfl | hm
    · omega
    · have := hx x hm
      omega
  · -- 残りの区間は `[max, max]` だけである。
    have heq : high = T.max := by omega
    rw [safeNext_max heq] at hnext
    have he : e = (T.max, T.max) := Prod.ext (by dsimp only; omega) (by dsimp only; omega)
    have hrest : rest = [] := by
      refine List.eq_nil_iff_forall_not_mem.mpr ?_
      intro x hm
      have h₁ := hx x hm
      have h₂ := h.tail.separated.proper x hm
      have h₃ := (h.tail.range x hm).2
      omega
    subst he hrest
    simp only [Remains, mem_denoted_cons, mem_denoted_nil, List.mem_singleton, heq, or_false, and_true]
    omega

theorem mem_denoted_outside {e : Int × Int} (hx : ∀ x ∈ rest, e.2 + 1 < x.1) (hcut : high < e.2) :
    (v ∈ denoted rest ∧ ¬ (low ≤ v ∧ v ≤ high)) ↔ v ∈ denoted rest := by
  refine and_iff_left_of_imp ?_
  intro hv hr
  refine not_mem_denoted_of_gt ?_ hr.2 hv
  intro x hm
  have := hx x hm
  omega

theorem remains_of_cut {e : Int × Int} (h : HolderInv T (e :: rest)) (hlow : low ≤ e.1)
    (hhigh : e.1 ≤ high) (hcut : high < e.2) : HolderInv T ((high + 1, e.2) :: rest) ∧
      (v ∈ denoted ((high + 1, e.2) :: rest) ↔ Remains T low high (e :: rest) v) := by
  obtain ⟨hle, hx, hemin, hemax⟩ := h.head_spec
  refine ⟨h.tail.cons (by dsimp only; omega) hx (by dsimp only; omega) hemax, ?_⟩
  rw [remains_of_lt (by omega), mem_denoted_cons, mem_denoted_cons, or_and_right]
  exact or_congr (by dsimp only; omega) (mem_denoted_outside hx hcut).symm

theorem removeLoop_spec_of_ge (h : HolderInv T rest) (hmax : high ≤ T.max)
    (hge : ∀ e ∈ rest, low ≤ e.1) (fuel : Nat) (hfuel : rest.length < fuel) :
    ∃ out, removeLoop low high (T.safeNext high) fuel rest = some out ∧ HolderInv T out ∧
      (∀ b ∈ out, ∃ e ∈ rest, e.1 ≤ b.1) ∧ ∀ v, v ∈ denoted out ↔ Remains T low high rest v := by
  induction rest generalizing fuel with
  | nil =>
      obtain ⟨fuel, rfl⟩ : ∃ n, fuel = n + 1 := ⟨fuel - 1, by omega⟩
      exact ⟨[], rfl, h, by simp, by simp [Remains]⟩
  | cons e rest ih =>
      obtain ⟨fuel, rfl⟩ : ∃ n, fuel = n + 1 := ⟨fuel - 1, by omega⟩
      obtain ⟨hle', hx, hemin, hemax⟩ := h.head_spec
      have hlow := hge e List.mem_cons_self
      rw [removeLoop]
      by_cases hnext : e.1 < T.safeNext high
      · have hfirst : e.1 ≤ high ∧ (high = T.max → e.1 < T.max) := by
          unfold IntegerType.safeNext at hnext
          split at hnext <;> omega
        rw [if_pos hnext, if_pos hlow]
        by_cases hin : e.2 ≤ high
        · rw [if_pos hin]
          have hge' : ∀ x ∈ rest, low ≤ x.1 := fun x hm => hge x (List.mem_cons_of_mem e hm)
          obtain ⟨out, hout, hinv, hfrom, hmem⟩ := ih h.tail hge' fuel (by simpa using hfuel)
          refine ⟨out, hout, hinv, ?_, ?_⟩
          · intro b hb
            obtain ⟨x, hm, hxb⟩ := hfrom b hb
            exact ⟨x, List.mem_cons_of_mem e hm, hxb⟩
          · intro v
            rw [hmem, remains_cons_of_inside hlow hin]
            rintro hm rfl
            have := hfirst.2 hm
            dsimp only at this
            omega
        · rw [if_neg hin, safeNext_eq T (by omega), insert_eq_cons ?_]
          · refine ⟨_, rfl, (remains_of_cut (v := 0) h hlow hfirst.1 (by omega)).1, ?_, ?_⟩
            · intro b hb
              rcases List.mem_cons.mp hb with rfl | hb
              · exact ⟨e, List.mem_cons_self, by dsimp only; omega⟩
              · exact ⟨b, List.mem_cons_of_mem e hb, Int.le_refl _⟩
            · intro v
              exact (remains_of_cut h hlow hfirst.1 (by omega)).2
          · intro x hm
            have := hx x hm
            omega
      · rw [if_neg hnext]
        exact ⟨_, rfl, h, fun b hb => ⟨b, hb, Int.le_refl _⟩, fun v => remains_of_stop h hmax (by omega)⟩

theorem removeLoop_cons_of_before {e : Int × Int} (h : HolderInv T (e :: rest)) (hle : low ≤ high) (hmax : high ≤ T.max)
    (hbefore : e.2 < low) (hge : ∀ x ∈ rest, low ≤ x.1) (fuel : Nat) (hfuel : rest.length + 1 < fuel) :
    ∃ out, removeLoop low high (T.safeNext high) fuel (e :: rest) = some out ∧ HolderInv T out ∧
      (∀ b ∈ out, e.1 ≤ b.1) ∧ ∀ v, v ∈ denoted out ↔ Remains T low high (e :: rest) v := by
  obtain ⟨fuel, rfl⟩ : ∃ n, fuel = n + 1 := ⟨fuel - 1, by omega⟩
  obtain ⟨hle', hx, hemin, hemax⟩ := h.head_spec
  obtain ⟨out, hout, hinv, hfrom, hmem⟩ := removeLoop_spec_of_ge h.tail hmax hge fuel (by omega)
  have hgap : ∀ b ∈ out, e.2 + 1 < b.1 := by
    intro b hb
    obtain ⟨x, hm, hxb⟩ := hfrom b hb
    have := hx x hm
    omega
  have hnext : e.1 < T.safeNext high := by
    unfold IntegerType.safeNext
    split <;> omega
  refine ⟨e :: out, ?_, hinv.cons hle' hgap hemin hemax, ?_, ?_⟩
  · rw [removeLoop, if_pos hnext, if_neg (by omega), if_pos hbefore, hout]
    rfl
  · intro b hb
    rcases List.mem_cons.mp hb with rfl | hb
    · exact Int.le_refl _
    · have := hgap b hb
      omega
  · intro v
    rw [mem_denoted_cons, hmem, remains_cons_of_before hbefore hle hmax]

theorem remains_cons_trim {e : Int × Int} (hlow : e.1 < low) (h₁ : low ≤ e.2) (h₂ : e.2 ≤ high) (hmax : high ≤ T.max) :
    Remains T low high ((e.1, low - 1) :: rest) v ↔ Remains T low high (e :: rest) v := by
  have hne : (T.max, T.max) ≠ e := by
    rintro rfl
    dsimp only at hlow h₁ h₂
    omega
  rw [remains_cons_of_before (by dsimp only; omega) (by omega) hmax]
  unfold Remains
  rw [mem_denoted_cons, List.mem_cons, or_iff_right hne, or_and_right, or_assoc]
  exact or_congr_left (by dsimp only; omega)

theorem remains_cons_split {e : Int × Int} (h : HolderInv T (e :: rest)) (hlow : e.1 < low)
    (hle : low ≤ high) (hcut : high < e.2) :
    v ∈ denoted ((e.1, low - 1) :: (high + 1, e.2) :: rest) ↔ Remains T low high (e :: rest) v := by
  obtain ⟨hle', hx, hemin, hemax⟩ := h.head_spec
  rw [remains_of_lt (by omega), mem_denoted_cons, mem_denoted_cons, mem_denoted_cons, or_and_right, ← or_assoc]
  exact or_congr (by dsimp only; omega) (mem_denoted_outside hx hcut).symm

theorem removeLoop_spec (h : HolderInv T right) (hle : low ≤ high) (hmin : T.min ≤ low)
    (hmax : high ≤ T.max) (htail : ∀ x ∈ right.tail, low < x.1) :
    ∃ out, removeLoop low high (T.safeNext high) (2 * right.length + 3) right = some out ∧ HolderInv T out ∧
      (∀ b ∈ out, ∃ e ∈ right, e.1 ≤ b.1) ∧ ∀ v, v ∈ denoted out ↔ Remains T low high right v := by
  cases right with
  | nil => exact removeLoop_spec_of_ge h hmax (by simp) _ (by simp)
  | cons e rest =>
      obtain ⟨hle', hx, hemin, hemax⟩ := h.head_spec
      have hge : ∀ x ∈ rest, low ≤ x.1 := fun x hm => Int.le_of_lt (htail x hm)
      by_cases hlow : low ≤ e.1
      · refine removeLoop_spec_of_ge h hmax ?_ _ (by simp only [List.length_cons]; omega)
        intro x hm
        rcases List.mem_cons.mp hm with rfl | hm
        · exact hlow
        · exact hge x hm
      · have hnext : e.1 < T.safeNext high := by
          unfold IntegerType.safeNext
          split <;> omega
        have hlen : 2 * (e :: rest).length + 3 = 2 * rest.length + 4 + 1 := by
          simp only [List.length_cons]
          omega
        rw [hlen]
        by_cases hbefore : e.2 < low
        · obtain ⟨out, hout, hinv, hfrom, hmem⟩ :=
            removeLoop_cons_of_before h hle hmax hbefore hge (2 * rest.length + 4 + 1) (by omega)
          exact ⟨out, hout, hinv, fun b hb => ⟨e, List.mem_cons_self, hfrom b hb⟩, hmem⟩
        · rw [removeLoop, if_pos hnext, if_neg (by omega), if_neg hbefore]
          by_cases hin : e.2 ≤ high
          · rw [if_pos hin]
            have htrim : HolderInv T ((e.1, low - 1) :: rest) := by
              refine h.tail.cons (by dsimp only; omega) ?_ hemin (by dsimp only; omega)
              intro x hm
              have := hx x hm
              dsimp only
              omega
            obtain ⟨out, hout, hinv, hfrom, hmem⟩ :=
              removeLoop_cons_of_before htrim hle hmax (by dsimp only; omega) hge (2 * rest.length + 4) (by omega)
            refine ⟨out, hout, hinv, fun b hb => ⟨e, List.mem_cons_self, hfrom b hb⟩, ?_⟩
            intro v
            rw [hmem, remains_cons_trim (by omega) (by omega) hin hmax]
          · rw [if_neg hin, safeNext_eq T (by omega), insert_eq_cons ?_]
            · refine ⟨(e.1, low - 1) :: (high + 1, e.2) :: rest, ?_, ?_, ?_, fun v =>
                remains_cons_split h (by omega) hle (by omega)⟩
              · -- 切られた区間を飛ばし、`high_next` で始まる区間で止まる。
                rw [removeLoop, if_pos (by dsimp only; omega), if_neg (by dsimp only; omega), if_pos (by dsimp only; omega)]
                rw [removeLoop, if_neg (by dsimp only; omega)]
                rfl
              · refine (h.tail.cons (e := (high + 1, e.2)) (by dsimp only; omega) hx (by dsimp only; omega) hemax).cons
                  (by dsimp only; omega) ?_ hemin (by dsimp only; omega)
                intro x hm
                rcases List.mem_cons.mp hm with rfl | hm
                · dsimp only
                  omega
                · have := hx x hm
                  dsimp only
                  omega
              · intro b hb
                refine ⟨e, List.mem_cons_self, ?_⟩
                rcases List.mem_cons.mp hb with rfl | hb
                · exact Int.le_refl _
                · rcases List.mem_cons.mp hb with rfl | hb
                  · dsimp only
                    omega
                  · have := hx b hb
                    omega
            · intro x hm
              have := hx x hm
              omega

/-! ## 状態の整合 -/

structure State.Inv (T : IntegerType) (s : State) : Prop where
  holder : HolderInv T s.holder
  cached : ∀ first, s.lastFound = some first → first ∈ s.holder.map Prod.fst

theorem State.init_inv : State.init.Inv T := ⟨HolderInv.nil, by simp [State.init]⟩

theorem State.clear_inv : s.clear.Inv T := State.init_inv

theorem State.Inv.add (h : s.Inv T) (hlow : T.min ≤ low) (hhigh : high ≤ T.max) : (s.add T low high).Inv T := by
  refine ⟨(State.add_spec h.holder hlow hhigh).1, ?_⟩
  unfold State.add
  split
  · exact h.cached
  · intro first hf
    cases hf

theorem State.remove_spec (h : s.Inv T) (hmin : T.min ≤ low) (hmax : high ≤ T.max) :
    ∃ s', s.remove T low high = some s' ∧ s'.Inv T ∧
      ∀ v, v ∈ denoted s'.holder ↔ if low ≤ high then Remains T low high s.holder v else v ∈ denoted s.holder := by
  unfold State.remove
  by_cases hle : low > high
  · rw [if_pos hle]
    refine ⟨s, rfl, h, ?_⟩
    intro v
    rw [if_neg (by omega)]
  · rw [if_neg hle]
    obtain ⟨left, right, hb⟩ : ∃ left right, startAt low s.holder = (left, right) := ⟨_, _, rfl⟩
    obtain ⟨heq, hleft, htail⟩ := startAt_spec h.holder.separated hb
    have hinv : HolderInv T (left ++ right) := heq ▸ h.holder
    obtain ⟨out, hout, hinv', hfrom, hmem⟩ := removeLoop_spec hinv.of_append (by omega) hmin hmax htail
    rw [hb]
    dsimp only
    rw [hout]
    refine ⟨⟨left ++ out, none⟩, rfl, ⟨hinv.append hinv' hfrom, by simp⟩, ?_⟩
    intro v
    have hnot : v ∈ denoted left → ¬ (low ≤ v ∧ v ≤ high) := by
      rintro hv ⟨hlow, -⟩
      exact not_mem_denoted_of_lt (fun e he => by have := hleft e he; omega) hlow hv
    have hmem' : (T.max, T.max) ∉ left := by
      intro hm
      have := hleft _ hm
      dsimp only at this
      omega
    rw [if_pos (by omega)]
    dsimp only
    rw [mem_denoted_append, hmem, heq]
    unfold Remains
    rw [mem_denoted_append, List.mem_append, or_iff_right hmem', or_and_right, and_iff_left_of_imp hnot, or_assoc]

theorem max_mem_iff (h : HolderInv T holder) :
    (T.max, T.max) ∈ holder ↔ T.max ∈ denoted holder ∧ T.max - 1 ∉ denoted holder := by
  constructor
  · intro hm
    exact ⟨⟨_, hm, Int.le_refl _, Int.le_refl _⟩, h.separated.pred_not_mem hm⟩
  · rintro ⟨⟨e, he, h₁, h₂⟩, hnot⟩
    have hfirst : e.1 = T.max := by
      by_contra hne
      exact hnot ⟨e, he, by omega, by omega⟩
    have hsecond : e.2 = T.max := by
      have := (h.range e he).2
      omega
    rw [← Prod.eta e] at he
    rw [hfirst, hsecond] at he
    exact he

/-! ## 集合を加えることと除くこと -/

theorem State.addAll_spec {cset : Holder} (hc : HolderInv T cset) (h : s.Inv T) :
    (s.addAll T cset).Inv T ∧ ∀ v, v ∈ denoted (s.addAll T cset).holder ↔ v ∈ denoted s.holder ∨ v ∈ denoted cset := by
  induction cset generalizing s with
  | nil => exact ⟨h, by simp [State.addAll]⟩
  | cons e cset ih =>
      obtain ⟨-, -, hmin, hmax⟩ := hc.head_spec
      obtain ⟨hinv, hmem⟩ := ih hc.tail (h.add hmin hmax)
      refine ⟨hinv, ?_⟩
      intro v
      rw [State.addAll, hmem, (State.add_spec h.holder hmin hmax).2, mem_denoted_cons, or_assoc]

def RemainsSet (T : IntegerType) (cset holder : Holder) (v : Int) : Prop :=
  (v ∈ denoted holder ∧ v ∉ denoted cset) ∨ (v = T.max ∧ T.max ∈ denoted cset ∧ (T.max, T.max) ∈ holder)

theorem State.removeAll_spec {cset : Holder} (hc : HolderInv T cset) (h : s.Inv T) :
    ∃ s', s.removeAll T cset = some s' ∧ s'.Inv T ∧ ∀ v, v ∈ denoted s'.holder ↔ RemainsSet T cset s.holder v := by
  induction cset generalizing s with
  | nil => exact ⟨s, rfl, h, by simp [RemainsSet]⟩
  | cons e cset ih =>
      obtain ⟨hle, hx, hmin, hmax⟩ := hc.head_spec
      obtain ⟨s₁, hs₁, hinv₁, hmem₁⟩ := State.remove_spec h hmin hmax
      obtain ⟨s₂, hs₂, hinv₂, hmem₂⟩ := ih hc.tail hinv₁
      simp only [if_pos hle] at hmem₁
      refine ⟨s₂, ?_, hinv₂, ?_⟩
      · rw [State.removeAll, hs₁]
        exact hs₂
      · -- 後の区間が `max` に届くならば、この区間を除くことは `max` の孤立に関わらない。
        have hiso : T.max ∈ denoted cset → ((T.max, T.max) ∈ s₁.holder ↔ (T.max, T.max) ∈ s.holder) := by
          rintro ⟨x, hm, h₁, h₂⟩
          have hlt := hx x hm
          rw [max_mem_iff hinv₁.holder, max_mem_iff h.holder, hmem₁, hmem₁,
            remains_of_lt (by omega), remains_of_lt (by omega)]
          have n₁ : ¬ (e.1 ≤ T.max ∧ T.max ≤ e.2) := by omega
          have n₂ : ¬ (e.1 ≤ T.max - 1 ∧ T.max - 1 ≤ e.2) := by omega
          simp only [n₁, n₂, not_false_eq_true, and_true]
        have hlast : e.2 = T.max → T.max ∉ denoted cset := by
          rintro heq ⟨x, hm, h₁, h₂⟩
          have := hx x hm
          have := hc.tail.separated.proper x hm
          omega
        intro v
        rw [hmem₂]
        unfold RemainsSet
        rw [hmem₁, mem_denoted_cons, mem_denoted_cons]
        unfold Remains
        by_cases hv : v = T.max
        · subst hv
          have hreach : (e.1 ≤ T.max ∧ T.max ≤ e.2) ↔ e.2 = T.max := by omega
          by_cases hm : T.max ∈ denoted cset
          · have hne : ¬ e.2 = T.max := fun heq => hlast heq hm
            simp [hreach, hm, hne, hiso hm]
          · simp [hreach, hm]
        · simp only [hv, false_and, or_false, not_or, and_assoc]

/-! ## 調べること -/

theorem mem_denoted_concat {p : Int × Int} (h : Separated (left ++ [p])) (hp : p.1 ≤ v) :
    v ∈ denoted (left ++ [p]) ↔ v ≤ p.2 := by
  rw [mem_denoted_append, mem_denoted_cons, or_iff_right]
  · simp [hp]
  · refine not_mem_denoted_of_lt ?_ hp
    intro a ha
    have := (separated_append.mp h).2.2 a ha p (by simp)
    omega

theorem State.search_holder : (s.search value).1.holder = s.holder := by
  unfold State.search
  dsimp only
  split
  · rfl
  · split <;> rfl

theorem State.search_spec (value : Int) (h : HolderInv T s.holder) :
    (s.search value).1.Inv T ∧ ((s.search value).2 = true ↔ value ∈ denoted s.holder) := by
  obtain ⟨left, right, hlb⟩ : ∃ left right, lowerBound value s.holder = (left, right) := ⟨_, _, rfl⟩
  obtain ⟨heq, hl, hr⟩ := lowerBound_split h.separated hlb
  obtain ⟨hsl, hsr, hx⟩ := separated_append.mp (heq ▸ h.separated)
  have hhead : ∀ first, right.head?.map Prod.fst = some first → first ∈ s.holder.map Prod.fst := by
    intro first hf
    obtain ⟨e, he, rfl⟩ := Option.map_eq_some_iff.mp hf
    rw [heq]
    exact List.mem_map.mpr ⟨e, List.mem_append_right _ (List.mem_of_mem_head? he), rfl⟩
  unfold State.search
  rw [hlb]
  dsimp only
  by_cases hfirst : right.head?.map Prod.fst = some value
  · rw [if_pos hfirst]
    refine ⟨⟨h, hhead⟩, iff_of_true rfl ?_⟩
    obtain ⟨e, he, hv⟩ := Option.map_eq_some_iff.mp hfirst
    have hmem : e ∈ s.holder := by
      rw [heq]
      exact List.mem_append_right _ (List.mem_of_mem_head? he)
    have := h.separated.proper e hmem
    exact ⟨e, hmem, by omega, by omega⟩
  · rw [if_neg hfirst]
    have hright : value ∉ denoted right := by
      refine not_mem_denoted_of_gt ?_ (Int.le_refl value)
      cases right with
      | nil => simp
      | cons e right =>
          intro x hm
          have hne : e.1 ≠ value := by simpa using hfirst
          have he := hr e List.mem_cons_self
          rcases List.mem_cons.mp hm with rfl | hm
          · omega
          · exact tail_gt hsr hr x hm
    rcases List.eq_nil_or_concat' left with rfl | ⟨left, p, rfl⟩
    · refine ⟨⟨h, hhead⟩, ?_⟩
      rw [heq]
      simpa using hright
    · have hp := hl p (by simp)
      rw [List.getLast?_concat]
      refine ⟨⟨h, ?_⟩, ?_⟩
      · intro first hf
        obtain rfl : p.1 = first := by simpa using hf
        rw [heq]
        exact List.mem_map.mpr ⟨p, by simp, rfl⟩
      · rw [heq, mem_denoted_append, or_iff_left hright, mem_denoted_concat hsl (Int.le_of_lt hp)]
        exact decide_eq_true_iff

theorem State.belongs_spec (value : Int) (h : s.Inv T) :
    ∃ s' b, s.belongs value = some (s', b) ∧ s'.Inv T ∧ s'.holder = s.holder ∧ (b = true ↔ value ∈ denoted s.holder) := by
  obtain ⟨hinv, hmem⟩ := State.search_spec value h.holder
  unfold State.belongs
  cases hc : s.lastFound with
  | none => exact ⟨_, _, rfl, hinv, State.search_holder, hmem⟩
  | some first =>
      obtain ⟨e, he, rfl⟩ := List.mem_map.mp (h.cached first hc)
      have hl : lookup e.1 s.holder = some e.2 := lookup_of_mem h.holder.separated.keys_nodup he
      dsimp only
      rw [hl, Option.bind_eq_bind, Option.bind_some]
      by_cases hin : e.1 ≤ value ∧ e.2 ≥ value
      · rw [if_pos hin]
        exact ⟨s, true, rfl, h, rfl, iff_of_true rfl ⟨e, he, hin.1, hin.2⟩⟩
      · rw [if_neg hin]
        exact ⟨_, _, rfl, hinv, State.search_holder, hmem⟩

def Presence (S : Set Int) (low high : Int) : CheckStatus → Prop
  | .none => ∀ v, low ≤ v → v ≤ high → v ∉ S
  | .all => ∀ v, low ≤ v → v ≤ high → v ∈ S
  | .some => (∃ v, low ≤ v ∧ v ≤ high ∧ v ∈ S) ∧ ∃ v, low ≤ v ∧ v ≤ high ∧ v ∉ S

theorem presence_of_cover {e : Int × Int} (h : Separated holder) (he : e ∈ holder)
    (hle : low ≤ high) (h₁ : e.1 ≤ low) (h₂ : low ≤ e.2) :
    Presence (denoted holder) low high (if e.2 ≥ high then .all else .some) := by
  split
  · intro v hv hv'
    exact ⟨e, he, by omega, by omega⟩
  · exact ⟨⟨low, Int.le_refl _, hle, e, he, h₁, h₂⟩, ⟨e.2 + 1, by omega, by omega, h.succ_not_mem he⟩⟩

theorem checkPrevious_spec (h : Separated (left ++ right)) (hle : low ≤ high) (hl : ∀ e ∈ left, e.1 < low)
    (hr : ∀ e ∈ right, high < e.1) : Presence (denoted (left ++ right)) low high (checkPrevious low high left) := by
  obtain ⟨hsl, -, -⟩ := separated_append.mp h
  unfold checkPrevious
  rcases List.eq_nil_or_concat' left with rfl | ⟨left, p, rfl⟩
  · intro v _ hv
    exact not_mem_denoted_of_gt hr hv
  · have hp := hl p (by simp)
    rw [List.getLast?_concat]
    dsimp only
    by_cases hlt : p.2 < low
    · rw [if_pos hlt]
      intro v hv hv'
      rw [mem_denoted_append, or_iff_left (not_mem_denoted_of_gt hr hv'), mem_denoted_concat hsl (by omega)]
      omega
    · rw [if_neg hlt]
      exact presence_of_cover h (by simp) hle (by omega) (by omega)

theorem State.checkPresence_spec (h : HolderInv T s.holder) (hle : low ≤ high) :
    Presence (denoted s.holder) low high (s.checkPresence low high) := by
  obtain ⟨left, right, hlb⟩ : ∃ left right, lowerBound low s.holder = (left, right) := ⟨_, _, rfl⟩
  obtain ⟨heq, hl, hr⟩ := lowerBound_split h.separated hlb
  have hsep : Separated (left ++ right) := heq ▸ h.separated
  unfold State.checkPresence
  rw [if_neg (by omega), hlb]
  cases right with
  | nil =>
      rw [heq]
      exact checkPrevious_spec hsep hle hl (by simp)
  | cons e right =>
      have he : e ∈ s.holder := by simp [heq]
      have hproper := h.separated.proper e he
      have hge := hr e List.mem_cons_self
      dsimp only
      by_cases hfirst : e.1 = low
      · rw [if_pos hfirst]
        exact presence_of_cover h.separated he hle (by omega) (by omega)
      · rw [if_neg hfirst]
        by_cases hhigh : e.1 ≤ high
        · rw [if_pos hhigh]
          exact ⟨⟨e.1, hge, hhigh, e, he, Int.le_refl _, hproper⟩,
            ⟨e.1 - 1, by omega, by omega, h.separated.pred_not_mem he⟩⟩
        · rw [if_neg hhigh, heq]
          refine checkPrevious_spec hsep hle hl ?_
          intro x hm
          obtain ⟨-, hx, -⟩ := separated_cons.mp (separated_append.mp hsep).2.1
          rcases List.mem_cons.mp hm with rfl | hm
          · omega
          · have := hx x hm
            omega

end UnixCommons.Generics.CompressedSet
