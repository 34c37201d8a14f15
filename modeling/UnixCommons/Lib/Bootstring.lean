import Mathlib.Tactic.Ring
import Mathlib.Data.List.Basic
import Mathlib.Algebra.Order.BigOperators.Group.List

/-!
# 可変長の整数の列

底 `base` の桁の列で、`i` 番目の桁の閾値は `t i` である。閾値より小さい桁が、一つの整数の終わりになる。
-/

namespace Lib.Bootstring

section Integer

variable (base : Nat) (t : Nat → Nat)

inductive Writes : Nat → Nat → List Nat → Prop
  | last {i q} : q < t i → Writes i q [q]
  | more {i q ds} : t i ≤ q → Writes (i + 1) ((q - t i) / (base - t i)) ds →
      Writes i q ((t i + (q - t i) % (base - t i)) :: ds)

/-- 重み `w` の `i` 番目の桁から、一つの整数を読む。`base` 以上の値は桁ではない。 -/
def readInteger : Nat → Nat → List Nat → Option (Nat × List Nat)
  | _, _, [] => none
  | i, w, d :: ds =>
      if base ≤ d then
        none
      else if d < t i then
        some (d * w, ds)
      else
        (readInteger (i + 1) (w * (base - t i)) ds).map fun r => (d * w + r.1, r.2)

def terms : Nat → Nat → List Nat → List Nat
  | _, _, [] => []
  | i, w, d :: ds =>
      if base ≤ d then
        []
      else if d < t i then
        [d * w]
      else
        d * w :: terms (i + 1) (w * (base - t i)) ds

variable {base t} {i q w v : Nat} {ds rest : List Nat}

attribute [local grind =] readInteger

theorem Writes.ne_nil (h : Writes base t i q ds) : ds ≠ [] := by
  cases h <;> exact List.cons_ne_nil _ _

theorem Writes.readInteger_append (ht : ∀ i, t i < base) (h : Writes base t i q ds) (w : Nat)
    (rest : List Nat) : readInteger base t i w (ds ++ rest) = some (q * w, rest) := by
  induction h generalizing w with
  | @last i q hq =>
      have := ht i
      rw [List.singleton_append, readInteger, if_neg (by omega), if_pos hq]
  | @more i q ds hq _ ih =>
      have hmod := Nat.mod_lt (q - t i) (Nat.sub_pos_of_lt (ht i))
      have hdiv := Nat.mod_add_div (q - t i) (base - t i)
      have := ht i
      rw [List.cons_append, readInteger, if_neg (by omega), if_neg (by omega), ih]
      have hsum : t i + (q - t i) % (base - t i) + (q - t i) / (base - t i) * (base - t i) = q := by
        rw [Nat.mul_comm ((q - t i) / _)]
        omega
      simp only [Option.map_some]
      congr 2
      calc (t i + (q - t i) % (base - t i)) * w + (q - t i) / (base - t i) * (w * (base - t i))
          = (t i + (q - t i) % (base - t i) + (q - t i) / (base - t i) * (base - t i)) * w := by ring
        _ = q * w := by rw [hsum]

theorem readInteger_eq_sum (h : readInteger base t i w ds = some (v, rest)) : v = (terms base t i w ds).sum := by
  induction ds generalizing i w v with
  | nil => cases h
  | cons d ds ih =>
      simp only [readInteger] at h
      simp only [terms]
      split_ifs at h ⊢ with hb hd
      · cases h
        simp
      · obtain ⟨r, hr, heq⟩ := Option.map_eq_some_iff.mp h
        cases heq
        rw [List.sum_cons, ← ih hr]

theorem le_of_readInteger (h : readInteger base t i w ds = some (v, rest)) : ∀ x ∈ terms base t i w ds, x ≤ v := by
  intro x hx
  rw [readInteger_eq_sum h]
  exact List.single_le_sum (fun _ _ => Nat.zero_le _) x hx

theorem length_of_readInteger (h : readInteger base t i w ds = some (v, rest)) : rest.length < ds.length := by
  induction ds generalizing i w v with
  | nil => cases h
  | cons d ds ih =>
      simp only [readInteger] at h
      split_ifs at h with hb hd
      · cases h
        exact Nat.lt_succ_self _
      · obtain ⟨r, hr, heq⟩ := Option.map_eq_some_iff.mp h
        cases heq
        exact (ih hr).trans (Nat.lt_succ_self _)

end Integer

/-! ## 整数の列 -/

section Text

variable (base : Nat) (threshold : Nat → Nat → Nat) (adapt : Nat → Nat → Bool → Nat)

/-- 桁の列の読み方。終わりまで読めた整数と、その整数が表す符号点、および、終わりまで読めなかった整数の桁の値である。 -/
structure Reading where
  deltas : List Nat
  points : List Nat
  pending : Option (List Nat)

/-- `n` と `i` が前の符号点とその次の位置、`len` が今までの文字の数である。 -/
def reading (ds : List Nat) (n bias i len : Nat) : Reading :=
  if ds = [] then
    ⟨[], [], none⟩
  else
    match h : readInteger base (threshold bias) 0 1 ds with
    | none => ⟨[], [], some (terms base (threshold bias) 0 1 ds)⟩
    | some (delta, rest) =>
        let point := n + (i + delta) / (len + 1)
        let r := reading rest point (adapt delta (len + 1) (i = 0)) ((i + delta) % (len + 1) + 1) (len + 1)
        ⟨delta :: r.deltas, point :: r.points, r.pending⟩
termination_by ds.length
decreasing_by exact length_of_readInteger h

variable {base threshold adapt} {n bias i len delta : Nat} {ds rest : List Nat}

theorem reading_nil : reading base threshold adapt [] n bias i len = ⟨[], [], none⟩ := by
  rw [reading, if_pos rfl]

theorem reading_of_none (h0 : ds ≠ []) (h : readInteger base (threshold bias) 0 1 ds = none) :
    reading base threshold adapt ds n bias i len = ⟨[], [], some (terms base (threshold bias) 0 1 ds)⟩ := by
  rw [reading, if_neg h0]
  split
  next => rfl
  next heq => rw [h] at heq; cases heq

theorem reading_of_some (h : readInteger base (threshold bias) 0 1 ds = some (delta, rest)) :
    reading base threshold adapt ds n bias i len =
      let point := n + (i + delta) / (len + 1)
      let r := reading base threshold adapt rest point (adapt delta (len + 1) (i = 0))
        ((i + delta) % (len + 1) + 1) (len + 1)
      ⟨delta :: r.deltas, point :: r.points, r.pending⟩ := by
  have h0 : ds ≠ [] := by
    rintro rfl
    cases h
  rw [reading, if_neg h0]
  split
  next heq => rw [h] at heq; cases heq
  next heq =>
    rw [h] at heq
    cases heq
    rfl

end Text

end Lib.Bootstring
