import Mathlib

/-! # 正準の順序と合成 -/

/-!
## 正準の順序

級 0 でない要素の続く範囲を、級の順に安定に整列した列と、その性質。級 0 の要素は動かない。
-/

namespace Lib

variable {α : Type} {lt lt' : α → α → Bool} {key : α → Nat} {xs ys : List α} {a : α}

def stableSort (lt : α → α → Bool) (xs : List α) : List α := xs.insertionSort fun a b => lt b a = false

/-- `ys` は、`xs` の要素を `key` の順に並べ、`key` の等しい要素を元の順に置く。 -/
structure StableSorted (key : α → Nat) (xs ys : List α) : Prop where
  perm : ys.Perm xs
  sorted : ys.Pairwise (key · ≤ key ·)
  stable : ∀ k, ys.filter (key · = k) = xs.filter (key · = k)

theorem stableSort_congr (h : ∀ a ∈ xs, ∀ b ∈ xs, lt a b = lt' a b) : stableSort lt xs = stableSort lt' xs := by
  have hmap := List.map_insertionSort (fun a b => lt b a = false) (fun a b => lt' b a = false) id xs
    fun a ha b hb => by rw [h b hb a ha]; rfl
  rwa [List.map_id, List.map_id] at hmap

theorem filter_orderedInsert (k : Nat) :
    (xs.orderedInsert (key · ≤ key ·) a).filter (key · = k) = (a :: xs).filter (key · = k) := by
  induction xs with
  | nil => rfl
  | cons b xs ih =>
      rw [List.orderedInsert_cons]
      by_cases hle : key a ≤ key b
      · rw [if_pos hle]
      · rw [if_neg hle, List.filter_cons, ih]
        have hne : ¬ (key a = k ∧ key b = k) := fun h => hle (Nat.le_of_eq (h.1.trans h.2.symm))
        by_cases ha : key a = k
        · have hb : key b ≠ k := fun hb => hne ⟨ha, hb⟩
          simp [ha, hb]
        · simp [List.filter_cons, ha]

theorem stableSort_key : stableSort (fun a b => decide (key a < key b)) xs = xs.insertionSort (key · ≤ key ·) := by
  rw [stableSort]
  congr 1
  funext a b
  simp

theorem stableSorted_stableSort : StableSorted key xs (stableSort (fun a b => decide (key a < key b)) xs) := by
  have : Std.Total (key · ≤ key · : α → α → Prop) := ⟨fun a b => Nat.le_total (key a) (key b)⟩
  have : IsTrans α (key · ≤ key ·) := ⟨fun _ _ _ => Nat.le_trans⟩
  rw [stableSort_key]
  refine ⟨List.perm_insertionSort _ _, List.pairwise_insertionSort _ _, fun k => ?_⟩
  induction xs with
  | nil => rfl
  | cons a xs ih => rw [List.insertionSort_cons, filter_orderedInsert, List.filter_cons, List.filter_cons, ih]

/-- 級 0 の要素を一つずつ、級 0 でない要素の続く範囲を長さの限り、まとめる。 -/
def runs (key : α → Nat) (text : List α) : List (List α) := text.splitBy fun a b => decide (key a ≠ 0) && decide (key b ≠ 0)

/-- `out` は、`text` のどの範囲も、級の順に安定に並べた列である。 -/
def Reordered (key : α → Nat) (text out : List α) : Prop := ∃ sorted, List.Forall₂
    (StableSorted key) (runs key text) sorted ∧ out = sorted.flatten

def reorder (key : α → Nat) (text : List α) : List α :=
  ((runs key text).map (stableSort fun a b => decide (key a < key b))).flatten

theorem reordered_reorder (key : α → Nat) (text : List α) : Reordered key text (reorder key text) := by
  refine ⟨_, List.forall₂_map_right_iff.mpr (List.forall₂_same.mpr fun run _ => ?_), rfl⟩
  exact stableSorted_stableSort

theorem reorder_append (h : ∀ a ∈ xs.getLast?, ∀ b ∈ ys.head?, key a = 0 ∨ key b = 0) :
    reorder key (xs ++ ys) = reorder key xs ++ reorder key ys := by
  have hruns : runs key (xs ++ ys) = runs key xs ++ runs key ys := by
    refine List.splitBy_append fun a ha b hb => ?_
    rcases h a ha b hb with hzero | hzero
    · simp [hzero]
    · simp [hzero]
  rw [reorder, hruns, List.map_append, List.flatten_append]
  rfl

theorem reorder_starters (h : ∀ a ∈ xs, key a = 0) : reorder key xs = xs := by
  induction xs with
  | nil => rfl
  | cons a xs ih =>
      obtain ⟨ha, hxs⟩ := List.forall_mem_cons.mp h
      have happend := @reorder_append α key [a] xs fun b hb _ _ => .inl (by
        obtain rfl : a = b := Option.some.inj hb
        exact ha)
      rw [List.singleton_append] at happend
      rw [happend, ih hxs]
      rfl

theorem reorder_nonstarters (h : ∀ a ∈ xs, key a ≠ 0) : reorder key xs = stableSort
    (fun a b => decide (key a < key b)) xs := by
  cases xs with
  | nil => rfl
  | cons a xs =>
      have hchain : (a :: xs).IsChain fun a b => decide (key a ≠ 0) && decide (key b ≠ 0) :=
        (List.pairwise_of_forall_mem_list fun a ha b hb => by simp [h a ha, h b hb]).isChain
      rw [reorder, runs, List.splitBy_of_isChain (List.cons_ne_nil _ _) hchain]
      simp

end Lib

/-!
## 正準の合成

結合の級と合成の対から、文字の列を合成する算法と、その性質。級 0 の文字を始めの文字と呼ぶ。文字は、前の最後の始めの文字と、間の文字に
妨げられない時に合成する。
-/

namespace Lib

structure Composer (α : Type) where
  combiningClass : α → Nat
  composite : α → α → Option α

namespace Composer

variable {α : Type} (R : Composer α)

def lastStarter : List α → Option (List α × α × List α)
  | [] => none
  | x :: l =>
      match lastStarter l with
      | some (before, y, between) => some (x :: before, y, between)
      | none => if R.combiningClass x = 0 then some ([], x, l) else none

/-- 間の文字が、始めの文字であるか、`c` の級より低くない級ならば、`c` の合成を妨げる。 -/
def Blocked (between : List α) (c : α) : Prop := ∃ b ∈ between, R.combiningClass b = 0 ∨
    R.combiningClass c ≤ R.combiningClass b

instance (between : List α) (c : α) : Decidable (R.Blocked between c) :=
  inferInstanceAs (Decidable (∃ b ∈ between, R.combiningClass b = 0 ∨ R.combiningClass c ≤ R.combiningClass b))

def composeNext (out : List α) (c : α) : List α :=
  match R.lastStarter out with
  | some (before, x, between) =>
      if R.Blocked between c then out ++ [c]
      else
        match R.composite x c with
        | some value => before ++ value :: between
        | none => out ++ [c]
  | none => out ++ [c]

def compose (text : List α) : List α := text.foldl R.composeNext []

def CanonicallyOrdered (text : List α) : Prop := text.IsChain fun a b => R.combiningClass b = 0 ∨
    R.combiningClass a ≤ R.combiningClass b

def NeverMeets (bad : List α → α → Prop) : List α → List α → Prop
  | _, [] => True
  | out, c :: rest => ¬ bad out c ∧ NeverMeets bad (R.composeNext out c) rest

instance decidableNeverMeets {bad : List α → α → Prop} [∀ out c, Decidable (bad out c)] :
    (out text : List α) → Decidable (R.NeverMeets bad out text)
  | _, [] => isTrue trivial
  | out, c :: rest =>
      have : Decidable (R.NeverMeets bad (R.composeNext out c) rest) := decidableNeverMeets (R.composeNext out c) rest
      inferInstanceAs (Decidable (¬ bad out c ∧ R.NeverMeets bad (R.composeNext out c) rest))

/-- 合成した文字は始めの文字同士にかかわり、分けた長さは、合成で変わらない。 -/
structure Lawful (length : α → Nat) : Prop where
  starter : ∀ x c value, R.composite x c = some value → R.combiningClass x = 0 ∧ R.combiningClass value = 0
  sum : ∀ x c value, R.composite x c = some value → length value = length x + length c
  pos : ∀ c, 0 < length c

variable {R} {length : α → Nat} {x c value : α} {before between out text : List α}

theorem lastStarter_eq_none (h : ∀ b ∈ out, R.combiningClass b ≠ 0) : R.lastStarter out = none := by
  induction out with
  | nil => rfl
  | cons y l ih =>
      rw [lastStarter, ih fun b hb => h b (List.mem_cons_of_mem _ hb)]
      exact if_neg (h y List.mem_cons_self)

theorem lastStarter_append (hx : R.combiningClass x = 0) (h : ∀ b ∈ between, R.combiningClass b ≠ 0) :
    R.lastStarter (before ++ x :: between) = some (before, x, between) := by
  induction before with
  | nil =>
      rw [List.nil_append, lastStarter, lastStarter_eq_none h]
      exact if_pos hx
  | cons y before ih => rw [List.cons_append, lastStarter, ih]

theorem lastStarter_spec (h : R.lastStarter out = some (before, x, between)) :
    out = before ++ x :: between ∧ R.combiningClass x = 0 ∧ ∀ b ∈ between, R.combiningClass b ≠ 0 := by
  induction out generalizing before with
  | nil => cases h
  | cons y l ih =>
      rw [lastStarter] at h
      cases hl : R.lastStarter l with
      | some found =>
          obtain ⟨front, z, back⟩ := found
          simp only [hl, Option.some.injEq, Prod.mk.injEq] at h
          obtain ⟨rfl, rfl, rfl⟩ := h
          obtain ⟨rfl, hx, hbetween⟩ := ih hl
          exact ⟨rfl, hx, hbetween⟩
      | none =>
          simp only [hl] at h
          split at h
          · obtain ⟨rfl, rfl, rfl⟩ : [] = before ∧ y = x ∧ l = between := by simpa using h
            refine ⟨rfl, ‹_›, fun b hb hzero => ?_⟩
            obtain ⟨front, back, rfl⟩ := List.append_of_mem hb
            have hsome : ∀ front, R.lastStarter (front ++ b :: back) ≠ none := by
              intro front
              induction front with
              | nil =>
                  rw [List.nil_append, lastStarter]
                  split
                  · simp
                  · simp [hzero]
              | cons z front ihf =>
                  rw [List.cons_append, lastStarter]
                  split
                  · simp
                  · exact absurd ‹_› ihf
            exact hsome front hl
          · cases h

theorem composeNext_some (hx : R.combiningClass x = 0)
    (hbetween : ∀ b ∈ between, R.combiningClass b ≠ 0) (hb : ¬ R.Blocked between c)
    (hv : R.composite x c = some value) : R.composeNext (before ++ x :: between) c = before ++ value :: between := by
  rw [composeNext, lastStarter_append hx hbetween]
  simp only [if_neg hb, hv]

theorem composeNext_append (hx : R.combiningClass x = 0) (hbetween : ∀ b ∈ between, R.combiningClass b ≠ 0)
    (h : R.Blocked between c ∨ R.composite x c = none) : R.composeNext
    (before ++ x :: between) c = before ++ x :: between ++ [c] := by
  rw [composeNext, lastStarter_append hx hbetween]
  simp only
  split
  · rfl
  · rename_i hb
    rw [h.resolve_left hb]

theorem composeNext_of_none (h : ∀ b ∈ out, R.combiningClass b ≠ 0) : R.composeNext out c = out ++ [c] := by
  rw [composeNext, lastStarter_eq_none h]

theorem composeNext_cases (out : List α) (c : α) :
    R.composeNext out c = out ++ [c] ∨
      ∃ before x between value, out = before ++ x :: between ∧
      (∀ b ∈ between, R.combiningClass b ≠ 0) ∧ R.composite x c = some value ∧
        R.composeNext out c = before ++ value :: between := by
  rw [composeNext]
  cases hl : R.lastStarter out with
  | none => exact .inl rfl
  | some found =>
      obtain ⟨before, x, between⟩ := found
      simp only
      split
      · exact .inl rfl
      · cases hv : R.composite x c with
        | none => exact .inl rfl
        | some value =>
            obtain ⟨hout, -, hbetween⟩ := lastStarter_spec hl
            exact .inr ⟨before, x, between, value, hout, hbetween, hv, rfl⟩

def weight (length : α → Nat) (text : List α) : Nat := (text.map length).sum

@[simp] theorem weight_append {a b : List α} : weight length (a ++ b) = weight length a + weight length b := by simp [weight]

@[simp] theorem weight_cons : weight length (c :: text) = length c + weight length text := by simp [weight]

@[simp] theorem weight_nil : weight length ([] : List α) = 0 := rfl

theorem Lawful.weight_composeNext (h : R.Lawful length) : weight length
    (R.composeNext out c) = weight length out + length c := by
  rcases R.composeNext_cases out c with heq | ⟨before, x, between, value, rfl, -, hv, heq⟩
  · simp [heq]
  · rw [heq]
    simp only [weight_append, weight_cons, h.sum x c value hv]
    omega

theorem Lawful.weight_foldl (h : R.Lawful length) : weight length
    (text.foldl R.composeNext out) = weight length out + weight length text := by
  induction text generalizing out with
  | nil => simp
  | cons c text ih =>
      rw [List.foldl_cons, ih, h.weight_composeNext, weight_cons]
      omega

theorem Lawful.composeNext_prefix (h : R.Lawful length) (hx : R.combiningClass x = 0) :
    ∃ y back, R.composeNext (before ++ x :: between) c = before ++ y :: back ∧ R.combiningClass y = 0 := by
  rcases R.composeNext_cases (before ++ x :: between) c with heq | ⟨front, y, back, value, hsplit, hback, hv, heq⟩
  · exact ⟨x, between ++ [c], by simp [heq], hx⟩
  · rw [heq]
    rcases List.append_eq_append_iff.mp hsplit with ⟨mid, rfl, hmid⟩ | ⟨mid, rfl, hmid⟩
    · cases mid with
      | nil =>
          rw [List.nil_append] at hmid
          obtain ⟨rfl, rfl⟩ := List.cons.inj hmid
          exact ⟨value, between, by simp, (h.starter _ _ _ hv).2⟩
      | cons z mid =>
          obtain ⟨rfl, rfl⟩ := List.cons.inj hmid
          exact ⟨x, mid ++ value :: back, by simp, hx⟩
    · cases mid with
      | nil =>
          rw [List.nil_append] at hmid
          obtain ⟨rfl, rfl⟩ := List.cons.inj hmid
          exact ⟨value, back, by simp, (h.starter _ _ _ hv).2⟩
      | cons z mid =>
          obtain ⟨rfl, rfl⟩ := List.cons.inj hmid
          exact absurd hx (hback x (by simp))

theorem Lawful.foldl_prefix (h : R.Lawful length) (hx : R.combiningClass x = 0) :
    ∃ y back, text.foldl R.composeNext (before ++ x :: between) = before ++ y :: back ∧ R.combiningClass y = 0 := by
  induction text generalizing x between with
  | nil => exact ⟨x, between, rfl, hx⟩
  | cons c text ih =>
      obtain ⟨y, back, heq, hy⟩ := h.composeNext_prefix hx
      rw [List.foldl_cons, heq]
      exact ih hy

end Composer

end Lib
