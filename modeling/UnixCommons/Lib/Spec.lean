import Mathlib.Data.List.Forall2
import Mathlib.Logic.Basic

/-! # 失敗しうる計算の規則 -/

/-!
## 例外を投げても状態が残る計算の仕様

`EStateM` の計算は、例外を投げたときも途中までの状態を残す。状態 `s` から始めた計算が返る場合の条件 `Q` と、
例外を投げる場合の条件 `E` を一つの言明 `Spec` にまとめ、計算の組み立てに沿った規則を与える。
-/

namespace Lib

universe u
variable {ε ε' σ τ α β : Type u}

/-- 状態 `s` から `x` を走らせると、返る場合は `Q`、例外を投げる場合は `E` が成り立つ。 -/
def Spec (x : EStateM ε σ α) (s : σ) (Q : α → σ → Prop) (E : ε → σ → Prop) : Prop :=
  match x.run s with
  | .ok a s' => Q a s'
  | .error e s' => E e s'

/-- 状態の一部 `τ` の上の計算を、全体 `σ` の上の計算にする。 -/
def zoom (get : σ → τ) (put : τ → σ → σ) (x : EStateM ε τ α) : EStateM ε σ α := fun s =>
  match x.run (get s) with
  | .ok a t => .ok a (put t s)
  | .error e t => .error e (put t s)

def observe (get : σ → τ) (x : EStateM ε τ α) : EStateM ε σ α := fun s =>
  match x.run (get s) with
  | .ok a _ => .ok a s
  | .error e _ => .error e s

/-- 新しい状態 `s` から `x` を走らせ、終わった状態の一部 `τ` を残す。 -/
def within (get : σ → τ) (s : σ) (x : EStateM ε σ α) : EStateM ε τ α := fun _ =>
  match x.run s with
  | .ok a s' => .ok a (get s')
  | .error e s' => .error e (get s')

/-- 結果が `a` を返したものである。状態を比べずに、走らせて判定できる。 -/
def returns [DecidableEq α] (r : EStateM.Result ε σ α) (a : α) : Bool :=
  match r with
  | .ok a' _ => a' = a
  | .error _ _ => false

theorem exists_of_returns [DecidableEq α] {r : EStateM.Result ε σ α} {a : α}
    (h : returns r a = true) : ∃ s, r = .ok a s := by
  cases r with
  | ok a' s => exact ⟨s, by rw [of_decide_eq_true h]⟩
  | error e s => exact absurd h (by simp [returns])

def raises [DecidableEq ε] (r : EStateM.Result ε σ α) (e : ε) : Bool :=
  match r with
  | .ok _ _ => false
  | .error e' _ => e' = e

theorem exists_of_raises [DecidableEq ε] {r : EStateM.Result ε σ α} {e : ε}
    (h : raises r e = true) : ∃ s, r = .error e s := by
  cases r with
  | ok a s => exact absurd h (by simp [raises])
  | error e' s => exact ⟨s, by rw [of_decide_eq_true h]⟩

variable {s : σ} {Q Q' : α → σ → Prop} {E E' : ε → σ → Prop}

theorem Spec.of_ok {x : EStateM ε σ α} {a : α} {s' : σ} (h : x.run s = .ok a s') (hq : Q a s') :
    Spec x s Q E := by
  unfold Spec; rw [h]; exact hq

theorem Spec.ok {x : EStateM ε σ α} {a : α} {s' : σ} (hs : Spec x s Q E) (h : x.run s = .ok a s') :
    Q a s' := by
  unfold Spec at hs; rw [h] at hs; exact hs

theorem Spec.exists_ok {x : EStateM ε σ α} (hs : Spec x s Q (fun _ _ => False)) :
    ∃ a s', x.run s = .ok a s' ∧ Q a s' := by
  unfold Spec at hs
  cases hx : x.run s with
  | ok a s' => rw [hx] at hs; exact ⟨a, s', rfl, hs⟩
  | error e s' => rw [hx] at hs; exact hs.elim

theorem Spec.error {x : EStateM ε σ α} {e : ε} {s' : σ} (hs : Spec x s Q E)
    (h : x.run s = .error e s') : E e s' := by
  unfold Spec at hs; rw [h] at hs; exact hs

theorem Spec.mono {x : EStateM ε σ α} (h : Spec x s Q E) (hQ : ∀ a s', Q a s' → Q' a s')
    (hE : ∀ e s', E e s' → E' e s') : Spec x s Q' E' := by
  unfold Spec at h ⊢
  cases hx : x.run s with
  | ok a s' => rw [hx] at h; exact hQ a s' h
  | error e s' => rw [hx] at h; exact hE e s' h

theorem Spec.pure {a : α} (h : Q a s) : Spec (pure a) s Q E := h

theorem Spec.throw {e : ε} (h : E e s) : Spec (throw e) s Q E := h

theorem Spec.get {Q : σ → σ → Prop} (h : Q s s) : Spec get s Q E := h

theorem Spec.set {s' : σ} {Q : PUnit → σ → Prop} (h : Q .unit s') : Spec (set s') s Q E := h

theorem Spec.modify {Q : PUnit → σ → Prop} {f : σ → σ} (h : Q .unit (f s)) :
    Spec (modify f) s Q E := h

theorem Spec.bind {x : EStateM ε σ β} {f : β → EStateM ε σ α}
    (h : Spec x s (fun b s' => Spec (f b) s' Q E) E) : Spec (x >>= f) s Q E := by
  unfold Spec at h ⊢
  rw [EStateM.run_bind]
  cases hx : x.run s with
  | ok b s' => rw [hx] at h; exact h
  | error e s' => rw [hx] at h; exact h

theorem Spec.ite {c : Prop} [Decidable c] {x y : EStateM ε σ α} (ht : c → Spec x s Q E)
    (hf : ¬ c → Spec y s Q E) : Spec (if c then x else y) s Q E := by
  split
  · exact ht ‹_›
  · exact hf ‹_›

theorem Spec.mapM {ι : Type u} {f : ι → EStateM ε σ β} {I : σ → Prop} {P : ι → β → Prop}
    {l : List ι} (hs : I s) (h : ∀ i ∈ l, ∀ s, I s → Spec (f i) s (fun b s' => I s' ∧ P i b) E) :
    Spec (l.mapM f) s (fun bs s' => I s' ∧ List.Forall₂ P l bs) E := by
  induction l generalizing s with
  | nil =>
      rw [List.mapM_nil]
      exact Spec.pure ⟨hs, .nil⟩
  | cons i l ih =>
      rw [List.mapM_cons]
      refine Spec.bind ((h i List.mem_cons_self s hs).mono ?_ fun _ _ he => he)
      rintro b s₁ ⟨hs₁, hb⟩
      refine Spec.bind ((ih hs₁ fun i hi => h i (List.mem_cons_of_mem _ hi)).mono ?_ fun _ _ he => he)
      rintro bs s₂ ⟨hs₂, hbs⟩
      exact Spec.pure ⟨hs₂, .cons hb hbs⟩

theorem Spec.adaptExcept {wrap : ε → ε'} {E : ε' → σ → Prop} {x : EStateM ε σ α}
    (h : Spec x s Q (fun e s' => E (wrap e) s')) : Spec (EStateM.adaptExcept wrap x) s Q E := by
  unfold Spec at h ⊢
  rw [EStateM.run_adaptExcept]
  cases hx : x.run s with
  | ok a s' => rw [hx] at h; exact h
  | error e s' => rw [hx] at h; exact h

theorem Spec.zoom {get : σ → τ} {put : τ → σ → σ} {x : EStateM ε τ α}
    (h : Spec x (get s) (fun a t => Q a (put t s)) (fun e t => E e (put t s))) :
    Spec (zoom get put x) s Q E := by
  unfold Spec at h ⊢
  simp only [Lib.zoom, EStateM.run] at h ⊢
  cases hx : x (get s) with
  | ok a t => rw [hx] at h; exact h
  | error e t => rw [hx] at h; exact h

theorem Spec.observe {get : σ → τ} {x : EStateM ε τ α}
    (h : Spec x (get s) (fun a _ => Q a s) (fun e _ => E e s)) : Spec (observe get x) s Q E := by
  unfold Spec at h ⊢
  simp only [Lib.observe, EStateM.run] at h ⊢
  cases hx : x (get s) with
  | ok a t => rw [hx] at h; exact h
  | error e t => rw [hx] at h; exact h

theorem Spec.within {get : σ → τ} {x : EStateM ε σ α} {t : τ} {Q : α → τ → Prop} {E : ε → τ → Prop}
    (h : Spec x s (fun a s' => Q a (get s')) (fun e s' => E e (get s'))) :
    Spec (within get s x) t Q E := by
  unfold Spec at h ⊢
  simp only [Lib.within, EStateM.run] at h ⊢
  cases hx : x s with
  | ok a s' => rw [hx] at h; exact h
  | error e s' => rw [hx] at h; exact h

end Lib

/-!
## 失敗しうる計算とループの規則

状態を渡して進める計算は `Except` で書く。返る場合の条件 `Q` と、失敗する場合の条件 `E` を言明 `Returns` にまとめ、番号を
上げながら、または下げながら進むループの不変条件の規則を与える。
-/

namespace Lib

variable {ε α β σ τ : Type}

/-- `x` が返る場合は `Q`、失敗する場合は `E` が成り立つ。 -/
def Returns (x : Except ε α) (Q : α → Prop) (E : ε → Prop) : Prop :=
  match x with
  | .ok a => Q a
  | .error e => E e

variable {Q Q' : α → Prop} {E E' : ε → Prop} {x : Except ε α} {a : α} {e : ε}

@[simp] theorem ok_bind (b : β) (f : β → Except ε α) : (Except.ok b >>= f) = f b := rfl

@[simp] theorem error_bind (e : ε) (f : β → Except ε α) : (Except.error e >>= f) = Except.error e := rfl

theorem bind_eq_ok {x : Except ε β} {f : β → Except ε α} : (x >>= f) = .ok a ↔ ∃ b, x = .ok b ∧ f b = .ok a := by
  cases x with
  | ok b =>
      refine ⟨fun h => ⟨b, rfl, h⟩, ?_⟩
      rintro ⟨b', hb, h⟩
      obtain rfl := Except.ok.inj hb
      exact h
  | error e =>
      refine ⟨fun h => (by cases h), ?_⟩
      rintro ⟨b, hb, -⟩
      cases hb

theorem mapError_bind (wrap : ε → ε') (x : Except ε β) (f : β → Except ε α) :
    (x >>= f).mapError wrap = x.mapError wrap >>= fun b => (f b).mapError wrap := by
  cases x with
  | ok b => rfl
  | error e => rfl

theorem Returns.pure (h : Q a) : Returns (pure a : Except ε α) Q E := h

theorem Returns.throw (h : E e) : Returns (throw e : Except ε α) Q E := h

theorem Returns.mono (h : Returns x Q E) (hQ : ∀ a, Q a → Q' a) (hE : ∀ e, E e → E' e) : Returns x Q' E' := by
  cases x with
  | ok a => exact hQ a h
  | error e => exact hE e h

theorem Returns.bind {x : Except ε β} {f : β → Except ε α}
    (h : Returns x (fun b => Returns (f b) Q E) E) : Returns (x >>= f) Q E := by
  cases x with
  | ok b => exact h
  | error e => exact h

theorem Returns.skip {x : Except ε β} {f : β → Except ε α}
    (h : ∀ b, Returns (f b) Q fun _ => True) : Returns (x >>= f) Q fun _ => True := by
  cases x with
  | ok b => exact h b
  | error e => trivial

theorem Returns.ite {c : Prop} [Decidable c] {x y : Except ε α} (ht : c → Returns x Q E)
    (hf : ¬ c → Returns y Q E) : Returns (if c then x else y) Q E := by
  split
  · exact ht ‹_›
  · exact hf ‹_›

theorem Returns.mapError {E : ε' → Prop} {wrap : ε → ε'} (h : Returns x Q fun e => E (wrap e)) :
    Returns (x.mapError wrap) Q E := by
  cases x with
  | ok a => exact h
  | error e => exact h

theorem Returns.of_ok (h : Returns x Q E) (hx : x = .ok a) : Q a := by
  subst hx
  exact h

theorem Returns.of_error (h : Returns x Q E) (hx : x = .error e) : E e := by
  subst hx
  exact h

theorem Returns.exists_ok (h : Returns x Q fun _ => False) : ∃ a, x = .ok a ∧ Q a := by
  cases x with
  | ok a => exact ⟨a, rfl, h⟩
  | error e => exact h.elim

theorem foldlM_invariant {f : σ → α → Except ε σ} {P : σ → Prop} {l : List α} {s s' : σ} (h0 : P s)
    (h : l.foldlM f s = .ok s') (hs : ∀ s a s', P s → f s a = .ok s' → P s') : P s' := by
  induction l generalizing s with
  | nil =>
      obtain rfl := Except.ok.inj h
      exact h0
  | cons a l ih =>
      rw [List.foldlM_cons] at h
      obtain ⟨s₁, ha, hrest⟩ := bind_eq_ok.mp h
      exact ih (hs s a s₁ h0 ha) hrest

/-- 状態を持つ計算の中で、`Except` の計算を行う。 -/
def lift (x : Except ε α) : EStateM ε σ α := fun s =>
  match x with
  | .ok a => .ok a s
  | .error e => .error e s

theorem Spec.lift {s : σ} {Q : α → σ → Prop} {E : ε → σ → Prop}
    (h : Returns x (fun a => Q a s) fun e => E e s) : Spec (lift x) s Q E := by
  cases x with
  | ok a => exact h
  | error e => exact h

/-- `for (i = 0; i < n; i++)`。 -/
def forUp (body : Nat → σ → σ) : Nat → σ → σ
  | 0, s => s
  | n + 1, s => body n (forUp body n s)

theorem forUp_invariant (body : Nat → σ → σ) {P : Nat → σ → Prop} {n : Nat} {s : σ} (h0 : P 0 s)
    (hs : ∀ i s, i < n → P i s → P (i + 1) (body i s)) : P n (forUp body n s) := by
  induction n with
  | zero => exact h0
  | succ n ih => exact hs n _ (Nat.lt_succ_self n) (ih fun i s hi => hs i s (Nat.lt_succ_of_lt hi))

/-- 途中で失敗しうる `for (i = 0; i < n; i++)`。 -/
def forUpM (body : Nat → σ → Except ε σ) : Nat → σ → Except ε σ
  | 0, s => pure s
  | n + 1, s => forUpM body n s >>= body n

theorem Returns.forUpM {body : Nat → σ → Except ε σ} {P : Nat → σ → Prop} {n : Nat} {s : σ} (h0 : P 0 s)
    (hs : ∀ i s, i < n → P i s → Returns (body i s) (P (i + 1)) E) : Returns (forUpM body n s) (P n) E := by
  induction n with
  | zero => exact h0
  | succ n ih =>
      refine Returns.bind ((ih fun i s hi => hs i s (Nat.lt_succ_of_lt hi)).mono ?_ fun _ h => h)
      exact fun s h => hs n s (Nat.lt_succ_self n) h

/-- `for (i = n - 1; i >= 0; i--)`。 -/
def forDown (body : Nat → σ → σ) : Nat → σ → σ
  | 0, s => s
  | n + 1, s => forDown body n (body n s)

theorem forDown_invariant (body : Nat → σ → σ) {P : Nat → σ → Prop} {n : Nat} {s : σ} (h0 : P n s)
    (hs : ∀ i s, i < n → P (i + 1) s → P i (body i s)) : P 0 (forDown body n s) := by
  induction n generalizing s with
  | zero => exact h0
  | succ n ih => exact ih (hs n s (Nat.lt_succ_self n) h0) fun i s hi => hs i s (Nat.lt_succ_of_lt hi)

/-- 途中で失敗しうる `for (i = n - 1; i >= 0; i--)`。 -/
def forDownM (body : Nat → σ → Except ε σ) : Nat → σ → Except ε σ
  | 0, s => pure s
  | n + 1, s => body n s >>= forDownM body n

theorem Returns.forDownM {body : Nat → σ → Except ε σ} {P : Nat → σ → Prop} {n : Nat} {s : σ} (h0 : P n s)
    (hs : ∀ i s, i < n → P (i + 1) s → Returns (body i s) (P i) E) : Returns (forDownM body n s) (P 0) E := by
  induction n generalizing s with
  | zero => exact h0
  | succ n ih =>
      refine Returns.bind ((hs n s (Nat.lt_succ_self n) h0).mono ?_ fun _ h => h)
      exact fun s h => ih h fun i s hi => hs i s (Nat.lt_succ_of_lt hi)

end Lib
