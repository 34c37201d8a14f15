import Mathlib.Data.List.Perm.Basic
import Mathlib.Data.List.Nodup
import Mathlib.Algebra.BigOperators.Group.List.Basic

/-!
# 鍵と値の表

鍵と値の組の並びを表とみなす。
-/

namespace Lib

variable {α κ β : Type} [DecidableEq κ]

def lookup (key : κ) (l : List (κ × β)) : Option β := (l.find? fun e => e.1 = key).map Prod.snd

def eraseKey (key : κ) (l : List (κ × β)) : List (κ × β) := l.filter fun e => e.1 ≠ key

def setKey (key : κ) (value : β) (l : List (κ × β)) : List (κ × β) := l.map fun e => if e.1 = key then (key, value) else e

variable {key key' : κ} {value value' : β} {l : List (κ × β)}

theorem mem_of_lookup (h : lookup key l = some value) : (key, value) ∈ l := by
  unfold lookup at h
  obtain ⟨⟨k, v⟩, hf, hv⟩ := Option.map_eq_some_iff.mp h
  have hk : k = key := by simpa using List.find?_some hf
  have hmem := List.mem_of_find?_eq_some hf
  dsimp only at hv
  rw [hk, hv] at hmem
  exact hmem

theorem lookup_eq_none_iff : lookup key l = none ↔ key ∉ l.map Prod.fst := by
  unfold lookup
  rw [Option.map_eq_none_iff, List.find?_eq_none]
  simp only [decide_eq_true_eq, List.mem_map, not_exists, not_and]

theorem lookup_of_mem (hk : (l.map Prod.fst).Nodup) (h : (key, value) ∈ l) : lookup key l = some value := by
  induction l with
  | nil => cases h
  | cons e l ih =>
      obtain ⟨k, v⟩ := e
      rw [List.map_cons, List.nodup_cons] at hk
      unfold lookup
      rw [List.find?_cons]
      rcases List.mem_cons.mp h with heq | hmem
      · cases heq
        simp
      · have hne : k ≠ key := fun he => by
          subst he
          exact hk.1 (List.mem_map.mpr ⟨_, hmem, rfl⟩)
        rw [decide_eq_false hne]
        exact ih hk.2 hmem

theorem perm_cons_filter {f : α → κ} {a : α} {l : List α} (h : (l.map f).Nodup) (ha : a ∈ l) :
    l.Perm (a :: l.filter fun x => f x ≠ f a) := by
  induction l with
  | nil => cases ha
  | cons b l ih =>
      rw [List.map_cons, List.nodup_cons] at h
      rcases List.mem_cons.mp ha with rfl | hmem
      · have hall : l.filter (fun x => decide (f x ≠ f a)) = l := by
          rw [List.filter_eq_self]
          intro x hx
          refine decide_eq_true fun he => h.1 ?_
          rw [← he]
          exact List.mem_map_of_mem hx
        rw [List.filter_cons_of_neg (by simp), hall]
      · have hne : f b ≠ f a := fun he => h.1 (by
          rw [he]
          exact List.mem_map_of_mem hmem)
        rw [List.filter_cons_of_pos (by simpa using hne)]
        exact ((ih h.2 hmem).cons b).trans (List.Perm.swap a b _)

theorem perm_eraseKey (hk : (l.map Prod.fst).Nodup) (h : lookup key l = some value) :
    l.Perm ((key, value) :: eraseKey key l) := perm_cons_filter hk (mem_of_lookup h)

theorem lookup_eraseKey_of_ne (h : key' ≠ key) : lookup key' (eraseKey key l) = lookup key' l := by
  induction l with
  | nil => rfl
  | cons e l ih =>
      unfold lookup eraseKey at ih ⊢
      by_cases he : e.1 = key
      · have hne : e.1 ≠ key' := fun hc => h (hc.symm.trans he)
        rw [List.filter_cons_of_neg (by simpa using he), ih, List.find?_cons, decide_eq_false hne]
      · rw [List.filter_cons_of_pos (by simpa using he), List.find?_cons, List.find?_cons]
        split
        · rfl
        · exact ih

theorem perm_setKey (hk : (l.map Prod.fst).Nodup) (h : lookup key l = some value) :
    (setKey key value' l).Perm ((key, value') :: eraseKey key l) := by
  have hperm := (perm_eraseKey hk h).map fun e => if e.1 = key then (key, value') else e
  rw [List.map_cons, if_pos rfl] at hperm
  have hid : (eraseKey key l).map (fun e => if e.1 = key then (key, value') else e) = eraseKey key l := by
    conv_rhs => rw [← List.map_id (eraseKey key l)]
    refine List.map_congr_left fun e he => ?_
    exact if_neg (by simpa using (List.mem_filter.mp he).2)
  rw [hid] at hperm
  exact hperm

theorem lookup_setKey (h : lookup key l = some value) : lookup key (setKey key value' l) = some value' := by
  induction l with
  | nil => cases h
  | cons e l ih =>
      unfold lookup setKey at ih ⊢
      unfold lookup at h
      by_cases he : e.1 = key
      · simp [he]
      · rw [List.find?_cons, decide_eq_false he] at h
        rw [List.map_cons, if_neg he, List.find?_cons, decide_eq_false he]
        exact ih h

/-! ## 鍵を持つ項の並び -/

section

variable {k : α → κ} {new : Option α} {x y : α} {l l' : List α}

/-- 鍵 `key` の最初の項を、`new` に替えるか、除く。 -/
def alterFirst (k : α → κ) (key : κ) (new : Option α) : List α → Option (List α)
  | [] => none
  | y :: l => if k y = key then some (new.toList ++ l) else (alterFirst k key new l).map (y :: ·)

attribute [local grind =] alterFirst

theorem alterFirst_eq_none_iff : alterFirst k key new l = none ↔ key ∉ l.map k := by
  induction l with
  | nil => simp [alterFirst]
  | cons y l ih =>
      rw [alterFirst, List.map_cons, List.mem_cons]
      split_ifs with hy
      · exact iff_of_false (by simp) (by simp [hy])
      · rw [Option.map_eq_none_iff, ih, not_or]
        exact (and_iff_right (Ne.symm hy)).symm

theorem mem_alterFirst (hk : (l.map k).Nodup) (h : alterFirst k key new l = some l') :
    x ∈ l' ↔ x ∈ new ∨ (x ∈ l ∧ k x ≠ key) := by
  induction l generalizing l' with
  | nil => cases h
  | cons y l ih =>
      rw [List.map_cons, List.nodup_cons] at hk
      rw [alterFirst] at h
      split_ifs at h with hy
      · obtain rfl := Option.some.inj h
        have hne : ∀ x ∈ l, k x ≠ key := fun x hx he => hk.1 (List.mem_map.mpr ⟨x, hx, he.trans hy.symm⟩)
        rw [List.mem_append, Option.mem_toList, List.mem_cons]
        constructor
        · rintro (hx | hx)
          · exact .inl hx
          · exact .inr ⟨.inr hx, hne x hx⟩
        · rintro (hx | ⟨rfl | hx, hx'⟩)
          · exact .inl hx
          · exact absurd hy hx'
          · exact .inr hx
      · obtain ⟨l'', halter, rfl⟩ := Option.map_eq_some_iff.mp h
        rw [List.mem_cons, List.mem_cons, ih hk.2 halter]
        constructor
        · rintro (rfl | hx | ⟨hx, hx'⟩)
          · exact .inr ⟨.inl rfl, hy⟩
          · exact .inl hx
          · exact .inr ⟨.inr hx, hx'⟩
        · rintro (hx | ⟨rfl | hx, hx'⟩)
          · exact .inr (.inl hx)
          · exact .inl rfl
          · exact .inr (.inr ⟨hx, hx'⟩)

theorem nodup_alterFirst (hk : (l.map k).Nodup) (hnew : ∀ x ∈ new, k x = key)
    (h : alterFirst k key new l = some l') : (l'.map k).Nodup := by
  induction l generalizing l' with
  | nil => cases h
  | cons y l ih =>
      have hmem := @mem_alterFirst _ _ _ key k new
      rw [List.map_cons, List.nodup_cons] at hk
      rw [alterFirst] at h
      split_ifs at h with hy
      · obtain rfl := Option.some.inj h
        cases new with
        | none => exact hk.2
        | some x =>
            rw [Option.toList_some, List.cons_append, List.nil_append, List.map_cons, List.nodup_cons, hnew x rfl, ← hy]
            exact hk
      · obtain ⟨l'', halter, rfl⟩ := Option.map_eq_some_iff.mp h
        rw [List.map_cons, List.nodup_cons]
        refine ⟨fun hyl => ?_, ih hk.2 halter⟩
        obtain ⟨x, hx, hkey⟩ := List.mem_map.mp hyl
        rcases (hmem hk.2 halter).mp hx with hx | ⟨hx, -⟩
        · exact hy (hkey.symm.trans (hnew x hx))
        · exact hk.1 (List.mem_map.mpr ⟨x, hx, hkey⟩)

end

end Lib
