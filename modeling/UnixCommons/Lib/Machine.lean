import Mathlib.Data.List.Basic

/-!
# 一歩ずつ進む機械

動作の列を順に行う機械の、どの歩みも保つ条件の規則と、複数の糸の局所の状態を並べた表の補題。
-/

namespace Lib

/-! ## 動作の列 -/

section Run

variable {σ α : Type} {step : σ → α → Option σ} {ok : σ → α → Prop} {I : σ → Prop} {s t : σ} {a : α} {as bs : List α}

/-- 動作の列を順に行う。行えない動作があれば `none` である。 -/
def execute (step : σ → α → Option σ) : σ → List α → Option σ
  | s, [] => some s
  | s, a :: as =>
      match step s a with
      | some t => execute step t as
      | none => none

/-- 列のどの動作も、行われる時に `ok` を満たす。 -/
def Along (step : σ → α → Option σ) (ok : σ → α → Prop) : σ → List α → Prop
  | _, [] => True
  | s, a :: as =>
      ok s a ∧
        match step s a with
        | some t => Along step ok t as
        | none => True

instance decidableAlong [∀ s a, Decidable (ok s a)] : (s : σ) → (as : List α) → Decidable (Along step ok s as)
  | _, [] => isTrue trivial
  | s, a :: as =>
      match h : step s a with
      | some t =>
          have : Decidable (Along step ok t as) := decidableAlong t as
          decidable_of_iff (ok s a ∧ Along step ok t as) (by rw [Along, h])
      | none => decidable_of_iff (ok s a) (by rw [Along, h, and_true])

theorem Along.and {ok' : σ → α → Prop} (h : Along step ok s as) (h' : Along step ok' s as) :
    Along step (fun s a => ok s a ∧ ok' s a) s as := by
  induction as generalizing s with
  | nil => trivial
  | cons a as ih =>
      rw [Along] at h h' ⊢
      refine ⟨⟨h.1, h'.1⟩, ?_⟩
      cases hstep : step s a with
      | none => trivial
      | some t =>
          rw [hstep] at h h'
          exact ih h.2 h'.2

theorem execute_cons : execute step s (a :: as) = some t ↔ ∃ u, step s a = some u ∧ execute step u as = some t := by
  rw [execute]
  cases h : step s a with
  | some u =>
      constructor
      · exact fun he => ⟨u, rfl, he⟩
      · rintro ⟨v, hv, he⟩
        obtain rfl := Option.some.inj hv
        exact he
  | none =>
      constructor
      · intro he
        cases he
      · rintro ⟨v, hv, -⟩
        cases hv

theorem execute_append : execute step s (as ++ bs) = some t ↔
    ∃ u, execute step s as = some u ∧ execute step u bs = some t := by
  induction as generalizing s with
  | nil =>
      constructor
      · exact fun h => ⟨s, rfl, h⟩
      · rintro ⟨u, hu, h⟩
        obtain rfl := Option.some.inj hu
        exact h
  | cons a as ih =>
      rw [List.cons_append, execute_cons]
      constructor
      · rintro ⟨v, hv, hrest⟩
        obtain ⟨u, hu, h⟩ := ih.mp hrest
        exact ⟨u, execute_cons.mpr ⟨v, hv, hu⟩, h⟩
      · rintro ⟨u, hu, h⟩
        obtain ⟨v, hv, hrest⟩ := execute_cons.mp hu
        exact ⟨v, hv, ih.mpr ⟨u, hrest, h⟩⟩

theorem execute_invariant (hstep : ∀ s a t, I s → ok s a → step s a = some t → I t) (hi : I s)
    (hok : Along step ok s as) (h : execute step s as = some t) : I t := by
  induction as generalizing s with
  | nil => exact Option.some.inj h ▸ hi
  | cons a as ih =>
      obtain ⟨u, hu, hrest⟩ := execute_cons.mp h
      rw [Along, hu] at hok
      exact ih (hstep s a u hi hok.1 hu) hok.2 hrest

theorem execute_always (hstep : ∀ s a t, I s → step s a = some t → I t) (hi : I s)
    (h : execute step s as = some t) : I t := by
  induction as generalizing s with
  | nil => exact Option.some.inj h ▸ hi
  | cons a as ih =>
      obtain ⟨u, hu, hrest⟩ := execute_cons.mp h
      exact ih (hstep s a u hi hu) hrest

theorem execute_iff_along {P : σ → Prop} (hstep : ∀ s a t, I s → step s a = some t → ok s a → I t) (hI : ∀ s, I s → P s)
    (hexact : ∀ s a t, I s → step s a = some t → P t → ok s a) (hi : I s) (h : execute step s as = some t) :
    (∀ bs u, bs <+: as → execute step s bs = some u → P u) ↔ Along step ok s as := by
  induction as generalizing s with
  | nil =>
      refine iff_of_true (fun bs u hbs hu => ?_) trivial
      obtain rfl := List.prefix_nil.mp hbs
      obtain rfl := Option.some.inj hu
      exact hI s hi
  | cons a as ih =>
      obtain ⟨u, hu, hrest⟩ := execute_cons.mp h
      rw [Along, hu]
      constructor
      · intro hall
        have hok : ok s a := hexact s a u hi hu (hall [a] u ⟨as, rfl⟩ (execute_cons.mpr ⟨u, hu, rfl⟩))
        refine ⟨hok, (ih (hstep s a u hi hu hok) hrest).mp fun bs v hbs hv => ?_⟩
        exact hall (a :: bs) v (List.cons_prefix_cons.mpr ⟨rfl, hbs⟩) (execute_cons.mpr ⟨u, hu, hv⟩)
      · rintro ⟨hok, halong⟩ bs v hbs hv
        obtain _ | ⟨b, bs⟩ := bs
        · obtain rfl := Option.some.inj hv
          exact hI s hi
        · obtain ⟨rfl, htail⟩ := List.cons_prefix_cons.mp hbs
          obtain ⟨u', hu', hv⟩ := execute_cons.mp hv
          obtain rfl := Option.some.inj (hu.symm.trans hu')
          exact (ih (hstep s b u hi hu hok) hrest).mpr halong bs v htail hv

end Run

/-! ## 糸の表 -/

section Pool

variable {α : Type} {pool : List α} {i : Nat} {a b : α} {p : α → Bool} {P : α → Prop}

theorem countP_set_of_getElem? (h : pool[i]? = some a) :
    (pool.set i b).countP p + (if p a then 1 else 0) = pool.countP p + (if p b then 1 else 0) := by
  induction pool generalizing i with
  | nil => cases h
  | cons c pool ih =>
      cases i with
      | zero =>
          obtain rfl := Option.some.inj h
          simp only [List.set_cons_zero, List.countP_cons]
          omega
      | succ i =>
          have := ih h
          simp only [List.set_cons_succ, List.countP_cons]
          omega

theorem countP_pos_of_getElem? (h : pool[i]? = some a) (hp : p a = true) : 0 < pool.countP p :=
  List.countP_pos_iff.mpr ⟨a, List.mem_of_getElem? h, hp⟩

theorem forall_mem_set (h : ∀ c ∈ pool, P c) (hb : P b) : ∀ c ∈ pool.set i b, P c := by
  intro c hc
  rcases List.mem_or_eq_of_mem_set hc with hc | rfl
  · exact h c hc
  · exact hb

theorem exists_split_of_getElem? (h : pool[i]? = some a) :
    ∃ before after, pool = before ++ a :: after ∧ ∀ b, pool.set i b = before ++ b :: after := by
  induction pool generalizing i with
  | nil => cases h
  | cons c pool ih =>
      cases i with
      | zero =>
          obtain rfl := Option.some.inj h
          exact ⟨[], pool, rfl, fun _ => rfl⟩
      | succ i =>
          obtain ⟨before, after, hpool, hset⟩ := ih h
          exact ⟨c :: before, after, congrArg (c :: ·) hpool, fun b => congrArg (c :: ·) (hset b)⟩

theorem countP_le_of_getElem? {base : Nat} (h : ∀ k a, pool[k]? = some a → k < base → p a = false) :
    pool.countP p ≤ pool.length - base := by
  have hbefore : (pool.take base).countP p = 0 := by
    apply List.countP_eq_zero.mpr
    intro a ha
    obtain ⟨k, hk⟩ := List.mem_iff_getElem?.mp ha
    rw [List.getElem?_take] at hk
    split at hk
    · simp [h k a hk ‹_›]
    · cases hk
  calc
    pool.countP p = (pool.take base ++ pool.drop base).countP p := by rw [List.take_append_drop]
    _ = (pool.drop base).countP p := by rw [List.countP_append, hbefore, Nat.zero_add]
    _ ≤ (pool.drop base).length := List.countP_le_length
    _ = pool.length - base := List.length_drop

theorem countP_drop_of_iff {base m : Nat} (h : ∀ k a, pool[k]? = some a → (p a = true ↔ base ≤ k))
    (hm : m ≤ base) : (pool.drop m).countP p = pool.length - base := by
  have hsplit : pool.drop m = (pool.drop m).take (base - m) ++ pool.drop base := by
    have hdrop : (pool.drop m).drop (base - m) = pool.drop base := by
      rw [List.drop_drop]
      congr 1
      omega
    rw [← hdrop, List.take_append_drop]
  have hbefore : ((pool.drop m).take (base - m)).countP p = 0 := by
    apply List.countP_eq_zero.mpr
    intro a ha
    obtain ⟨k, hk⟩ := List.mem_iff_getElem?.mp ha
    rw [List.getElem?_take] at hk
    split at hk
    · rw [List.getElem?_drop] at hk
      rw [h _ a hk]
      omega
    · cases hk
  have hafter : (pool.drop base).countP p = (pool.drop base).length := by
    apply List.countP_eq_length.mpr
    intro a ha
    obtain ⟨k, hk⟩ := List.mem_iff_getElem?.mp ha
    rw [List.getElem?_drop] at hk
    exact (h _ a hk).mpr (Nat.le_add_right _ _)
  rw [hsplit, List.countP_append, hbefore, hafter, List.length_drop, Nat.zero_add]

end Pool

end Lib
