import Mathlib.Tactic.Common

/-!
# 状態を変える、失敗のある計算

失敗しても途中の状態が残る計算 `ExceptT ε (StateM σ)` の、成功する実行と失敗する実行。
-/

namespace Lib

variable {ε σ α β : Type}

/-- 状態 `s` から始めて、値 `b` と状態 `s'` で成功する。 -/
def Ends (x : ExceptT ε (StateM σ) α) (s : σ) (b : α) (s' : σ) : Prop := x.run.run s = (.ok b, s')

variable {x : ExceptT ε (StateM σ) α} {f : α → ExceptT ε (StateM σ) β} {s s' : σ} {a : α} {b : β}

theorem ends_bind : Ends (x >>= f) s b s' ↔ ∃ a s₁, Ends x s a s₁ ∧ Ends (f a) s₁ b s' := by
  unfold Ends
  rw [ExceptT.run_bind, StateT.run_bind]
  rcases x.run.run s with ⟨r, s₁⟩
  cases r with
  | ok a =>
      constructor
      · exact fun h => ⟨a, s₁, rfl, h⟩
      · rintro ⟨a', s₁', he, h⟩
        cases he
        exact h
  | error e =>
      refine iff_of_false (fun h => by cases h) ?_
      rintro ⟨a', s₁', he, -⟩
      cases he

theorem ends_pure {a' : α} : Ends (pure a : ExceptT ε (StateM σ) α) s a' s' ↔ a' = a ∧ s' = s := by
  constructor
  · intro h
    cases h
    exact ⟨rfl, rfl⟩
  · rintro ⟨rfl, rfl⟩
    rfl

theorem ends_get {t : σ} : Ends (get : ExceptT ε (StateM σ) σ) s t s' ↔ t = s ∧ s' = s := by
  constructor
  · intro h
    cases h
    exact ⟨rfl, rfl⟩
  · rintro ⟨rfl, rfl⟩
    rfl

theorem ends_set {t : σ} {u : PUnit} : Ends (set t : ExceptT ε (StateM σ) PUnit) s u s' ↔ s' = t := by
  constructor
  · intro h
    cases h
    rfl
  · rintro rfl
    rfl

theorem ends_modify {g : σ → σ} {u : PUnit} : Ends (modify g : ExceptT ε (StateM σ) PUnit) s u s' ↔ s' = g s := by
  constructor
  · intro h
    cases h
    rfl
  · rintro rfl
    rfl

theorem ends_throw {e : ε} : ¬ Ends (throw e : ExceptT ε (StateM σ) α) s a s' := by
  intro h
  cases h

theorem ends_lift {y : Except ε α} : Ends (liftM y : ExceptT ε (StateM σ) α) s a s' ↔ y = .ok a ∧ s' = s := by
  cases y with
  | ok a' =>
      constructor
      · intro h
        cases h
        exact ⟨rfl, rfl⟩
      · rintro ⟨h, rfl⟩
        cases h
        rfl
  | error e =>
      refine iff_of_false (fun h => by cases h) ?_
      rintro ⟨h, -⟩
      cases h

/-! ## 失敗する実行 -/

/-- 状態 `s` から始めて、失敗 `e` と状態 `s'` で終わる。 -/
def Fails (x : ExceptT ε (StateM σ) α) (s : σ) (e : ε) (s' : σ) : Prop := x.run.run s = (.error e, s')

variable {e : ε}

theorem fails_bind : Fails (x >>= f) s e s' ↔ Fails x s e s' ∨ ∃ a s₁, Ends x s a s₁ ∧ Fails (f a) s₁ e s' := by
  unfold Fails Ends
  rw [ExceptT.run_bind, StateT.run_bind]
  rcases x.run.run s with ⟨r, s₁⟩
  cases r with
  | ok a =>
      constructor
      · exact fun h => .inr ⟨a, s₁, rfl, h⟩
      · rintro (he | ⟨a', s₁', he, h⟩)
        · cases he
        · cases he
          exact h
  | error e' =>
      constructor
      · intro h
        cases h
        exact .inl rfl
      · rintro (h | ⟨a', s₁', he, -⟩)
        · cases h
          rfl
        · cases he

theorem fails_pure : ¬ Fails (pure a : ExceptT ε (StateM σ) α) s e s' := by
  intro h
  cases h

theorem fails_get : ¬ Fails (get : ExceptT ε (StateM σ) σ) s e s' := by
  intro h
  cases h

theorem fails_set {t : σ} : ¬ Fails (set t : ExceptT ε (StateM σ) PUnit) s e s' := by
  intro h
  cases h

theorem fails_modify {g : σ → σ} : ¬ Fails (modify g : ExceptT ε (StateM σ) PUnit) s e s' := by
  intro h
  cases h

theorem fails_throw {e' : ε} : Fails (throw e' : ExceptT ε (StateM σ) α) s e s' ↔ e = e' ∧ s' = s := by
  constructor
  · intro h
    cases h
    exact ⟨rfl, rfl⟩
  · rintro ⟨rfl, rfl⟩
    rfl

theorem fails_lift {y : Except ε α} : Fails (liftM y : ExceptT ε (StateM σ) α) s e s' ↔ y = .error e ∧ s' = s := by
  cases y with
  | ok a' =>
      refine iff_of_false (fun h => by cases h) ?_
      rintro ⟨h, -⟩
      cases h
  | error e' =>
      constructor
      · intro h
        cases h
        exact ⟨rfl, rfl⟩
      · rintro ⟨h, rfl⟩
        cases h
        rfl

end Lib
