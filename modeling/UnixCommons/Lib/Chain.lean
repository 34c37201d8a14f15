import Mathlib.Data.List.Nodup
import Mathlib.Logic.Function.Basic

/-!
# 次の番号でつながる鎖

番号 `0` を終わりとし、`next` で次の番号へ進む鎖を扱う。鎖が有限で終わることは、たどる番号の並びが存在することで表す。
-/

namespace Lib

/-- `s` から `next` をたどると、ちょうど `l` を通って `0` に着く。 -/
def Chain (next : Nat → Nat) : Nat → List Nat → Prop
  | s, [] => s = 0
  | s, x :: l => s = x ∧ x ≠ 0 ∧ Chain next (next x) l

variable {next next' : Nat → Nat} {s x b : Nat} {l l' : List Nat}

theorem Chain.nil_iff : Chain next s [] ↔ s = 0 := Iff.rfl

theorem Chain.head (h : Chain next s (x :: l)) : s = x := h.1

theorem Chain.tail (h : Chain next s (x :: l)) : Chain next (next x) l := h.2.2

theorem Chain.ne_zero (h : Chain next s l) : ∀ y ∈ l, y ≠ 0 := by
  induction l generalizing s with
  | nil => simp
  | cons x l ih =>
      intro y hy
      rcases List.mem_cons.mp hy with rfl | hy
      · exact h.2.1
      · exact ih h.tail y hy

theorem Chain.cons_of_ne_zero (h : Chain next s l) (hs : s ≠ 0) : ∃ l', l = s :: l' := by
  cases l with
  | nil => exact absurd h hs
  | cons x l => exact ⟨l, by rw [h.head]⟩

theorem Chain.eq_nil (h : Chain next 0 l) : l = [] := by
  cases l with
  | nil => rfl
  | cons x l => exact absurd h.head.symm h.2.1

theorem Chain.unique (h : Chain next s l) (h' : Chain next s l') : l = l' := by
  induction l generalizing s l' with
  | nil => rw [Chain.nil_iff.mp h] at h'; exact h'.eq_nil.symm
  | cons x l ih =>
      have hs : s ≠ 0 := by rw [h.head]; exact h.2.1
      obtain ⟨l'', rfl⟩ := h'.cons_of_ne_zero hs
      obtain rfl := h.head
      rw [ih h.tail h'.tail]

theorem Chain.suffix (h : Chain next s l) : ∀ y ∈ l, ∃ l₁ l₂, l = l₁ ++ y :: l₂ ∧ Chain next y (y :: l₂) := by
  induction l generalizing s with
  | nil => simp
  | cons x l ih =>
      intro y hy
      rcases List.mem_cons.mp hy with rfl | hy
      · exact ⟨[], l, rfl, rfl, h.2.1, h.tail⟩
      · obtain ⟨l₁, l₂, rfl, hl⟩ := ih h.tail y hy
        exact ⟨x :: l₁, l₂, rfl, hl⟩

/-- 終わる鎖は閉路を持たない。途中で始まりに戻れば、並びが二通りになる。 -/
theorem Chain.nodup (h : Chain next s l) : l.Nodup := by
  induction l generalizing s with
  | nil => exact List.nodup_nil
  | cons x l ih =>
      refine List.nodup_cons.mpr ⟨fun hx => ?_, ih h.tail⟩
      obtain ⟨l₁, l₂, hl, hc⟩ := h.tail.suffix x hx
      obtain rfl := h.head
      have hlen := congrArg List.length (h.unique hc)
      simp only [hl, List.length_cons, List.length_append] at hlen
      omega

theorem Chain.congr (h : Chain next s l) (he : ∀ y ∈ l, next' y = next y) : Chain next' s l := by
  induction l generalizing s with
  | nil => exact h
  | cons x l ih =>
      refine ⟨h.1, h.2.1, ?_⟩
      rw [he x (by simp)]
      exact ih h.tail (fun y hy => he y (by simp [hy]))

theorem Chain.relink {l'' : List Nat} (h : Chain next s (l ++ x :: l')) (hl : ∀ y ∈ l, next' y = next y)
    (h' : Chain next' (next' x) l'') : Chain next' s (l ++ x :: l'') := by
  induction l generalizing s with
  | nil => exact ⟨h.1, h.2.1, h'⟩
  | cons y l ih =>
      refine ⟨h.1, h.2.1, ?_⟩
      rw [hl y (by simp)]
      exact ih h.tail (fun z hz => hl z (by simp [hz]))

theorem Chain.drop (h : Chain next s (l ++ x :: l')) : Chain next (next x) l' := by
  induction l generalizing s with
  | nil => exact h.tail
  | cons y l ih => exact ih h.tail

theorem Chain.range {m n : Nat} (hm : m ≠ 0) (h : ∀ i, i < n → next (m + i) = m + i + 1)
    (hl : next (m + n) = 0) : Chain next m (List.range' m (n + 1)) := by
  induction n generalizing m with
  | zero => exact ⟨rfl, hm, hl⟩
  | succ n ih =>
      rw [List.range'_succ]
      refine ⟨rfl, hm, ?_⟩
      have h0 : next m = m + 1 := h 0 (by omega)
      rw [h0]
      refine ih (by omega) (fun i hi => ?_) ?_
      · have := h (i + 1) (by omega)
        rwa [show m + 1 + i = m + (i + 1) by omega]
      · rwa [show m + 1 + n = m + (n + 1) by omega]

end Lib
