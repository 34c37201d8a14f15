import Mathlib.Data.List.Basic

/-!
# 記述子の表

番号から、開いている物への表。`dup` は空いている最も小さい番号を取り、`dup2` は番号を選んで上書きする。
-/

namespace Lib

structure Descriptors (φ : Type) where
  file : Nat → Option φ
  limit : Nat
  closed : ∀ fd, limit ≤ fd → file fd = none

namespace Descriptors

variable {φ : Type} {t : Descriptors φ} {fd fd' : Nat} {f : φ}

def set (t : Descriptors φ) (fd : Nat) (f : Option φ) : Descriptors φ where
  file n := if n = fd then f else t.file n
  limit := max t.limit (fd + 1)
  closed n hn := by
    rw [if_neg (by omega)]
    exact t.closed n (by omega)

def lowest (t : Descriptors φ) : Nat := ((List.range t.limit).find? fun fd => (t.file fd).isNone).getD t.limit

def dup (t : Descriptors φ) (fd : Nat) : Option (Descriptors φ × Nat) :=
  (t.file fd).map fun f => (t.set t.lowest (some f), t.lowest)

def dup2 (t : Descriptors φ) (fd fd' : Nat) : Option (Descriptors φ) :=
  (t.file fd).map fun f => if fd = fd' then t else t.set fd' (some f)

def close (t : Descriptors φ) (fd : Nat) : Option (Descriptors φ) := (t.file fd).map fun _ => t.set fd none

theorem file_lowest (t : Descriptors φ) : t.file t.lowest = none := by
  unfold lowest
  cases h : (List.range t.limit).find? fun fd => (t.file fd).isNone with
  | none => exact t.closed _ (Nat.le_refl _)
  | some fd =>
      have hfree : (t.file fd).isNone = true := @List.find?_some _ (fun fd => (t.file fd).isNone) _ _ h
      exact Option.isNone_iff_eq_none.mp hfree

theorem dup_spec (h : t.file fd = some f) :
    ∃ t' new, t.dup fd = some (t', new) ∧ t.file new = none ∧ ∀ n, t'.file n = if n = new then some f else t.file n :=
  ⟨t.set t.lowest (some f), t.lowest, by rw [dup, h]; rfl, t.file_lowest, fun _ => rfl⟩

theorem dup2_spec (h : t.file fd = some f) (fd' : Nat) : ∃ t', t.dup2 fd fd' = some t' ∧ ∀ n,
    t'.file n = if n = fd' then some f else t.file n := by
  refine ⟨if fd = fd' then t else t.set fd' (some f), by rw [dup2, h]; rfl, fun n => ?_⟩
  by_cases heq : fd = fd'
  · rw [if_pos heq]
    split
    · rename_i hn
      rw [hn, ← heq, h]
    · rfl
  · rw [if_neg heq]
    rfl

theorem close_spec (h : t.file fd = some f) : ∃ t', t.close fd = some t' ∧ ∀ n,
    t'.file n = if n = fd then none else t.file n :=
  ⟨t.set fd none, by rw [close, h]; rfl, fun _ => rfl⟩

theorem foldlM_close {fds : List Nat} (hnodup : fds.Nodup) (h : ∀ fd ∈ fds, t.file fd ≠ none) :
    ∃ t', fds.foldlM close t = some t' ∧ ∀ n, t'.file n = if n ∈ fds then none else t.file n := by
  induction fds generalizing t with
  | nil => exact ⟨t, rfl, fun n => (if_neg List.not_mem_nil).symm⟩
  | cons fd fds ih =>
      obtain ⟨hnew, hnodup⟩ := List.nodup_cons.mp hnodup
      obtain ⟨f, hf⟩ := Option.ne_none_iff_exists'.mp (h fd (List.mem_cons_self ..))
      obtain ⟨u, hu, hfile⟩ := close_spec hf
      have hopen : ∀ fd' ∈ fds, u.file fd' ≠ none := by
        intro fd' hmem
        have hne : fd' ≠ fd := fun heq => hnew (heq ▸ hmem)
        rw [hfile, if_neg hne]
        exact h fd' (List.mem_cons_of_mem _ hmem)
      obtain ⟨t', ht', hall⟩ := ih hnodup hopen
      refine ⟨t', by rw [List.foldlM_cons, hu]; exact ht', fun n => ?_⟩
      rw [hall, hfile]
      by_cases hn : n = fd <;> by_cases hmem : n ∈ fds <;> simp [hn, hmem]

theorem foldlM_dup2 {fds : List Nat} (h : t.file fd = some f) :
    ∃ t', fds.foldlM (fun t fd' => t.dup2 fd fd') t = some t' ∧ ∀ n, t'.file n = if n ∈ fds then some f else t.file n := by
  induction fds generalizing t with
  | nil => exact ⟨t, rfl, fun n => (if_neg List.not_mem_nil).symm⟩
  | cons fd' fds ih =>
      obtain ⟨u, hu, hfile⟩ := dup2_spec h fd'
      have hkept : u.file fd = some f := by
        rw [hfile, h, ite_self]
      obtain ⟨t', ht', hall⟩ := ih hkept
      refine ⟨t', by rw [List.foldlM_cons, hu]; exact ht', fun n => ?_⟩
      rw [hall, hfile]
      by_cases hn : n = fd' <;> by_cases hmem : n ∈ fds <;> simp [hn, hmem]

end Descriptors

end Lib
