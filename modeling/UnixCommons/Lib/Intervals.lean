import Mathlib.Data.List.Sort
import Mathlib.Data.Set.Basic
import Mathlib.Order.Basic

/-!
# 離れた区間の並び

整数の閉区間の並びを、整数の集合の表現とみなす。隣り合う区間は、間に少なくとも一つの整数を置いて昇順に並ぶ。
-/

namespace Lib

def denoted (l : List (Int × Int)) : Set Int := fun v => ∃ e ∈ l, e.1 ≤ v ∧ v ≤ e.2

instance (l : List (Int × Int)) (v : Int) : Decidable (v ∈ denoted l) :=
  inferInstanceAs (Decidable (∃ e ∈ l, e.1 ≤ v ∧ v ≤ e.2))

structure Separated (l : List (Int × Int)) : Prop where
  apart : l.Pairwise fun a b => a.2 + 1 < b.1
  proper : ∀ e ∈ l, e.1 ≤ e.2

variable {l l₁ l₂ : List (Int × Int)} {e : Int × Int} {v : Int}

theorem mem_denoted : v ∈ denoted l ↔ ∃ e ∈ l, e.1 ≤ v ∧ v ≤ e.2 := Iff.rfl

@[simp] theorem mem_denoted_nil : v ∈ denoted [] ↔ False := by
  simp [mem_denoted]

@[simp] theorem mem_denoted_cons : v ∈ denoted (e :: l) ↔ (e.1 ≤ v ∧ v ≤ e.2) ∨ v ∈ denoted l := by
  simp [mem_denoted]

@[simp] theorem mem_denoted_append : v ∈ denoted (l₁ ++ l₂) ↔ v ∈ denoted l₁ ∨ v ∈ denoted l₂ := by
  simp [mem_denoted, or_and_right, exists_or]

theorem separated_nil : Separated [] := ⟨List.Pairwise.nil, by simp⟩

theorem separated_cons : Separated (e :: l) ↔ e.1 ≤ e.2 ∧ (∀ x ∈ l, e.2 + 1 < x.1) ∧ Separated l := by
  constructor
  · rintro ⟨hp, hle⟩
    obtain ⟨hx, hp⟩ := List.pairwise_cons.mp hp
    exact ⟨hle e List.mem_cons_self, hx, hp, fun x hm => hle x (List.mem_cons_of_mem e hm)⟩
  · rintro ⟨he, hx, hp, hle⟩
    refine ⟨List.pairwise_cons.mpr ⟨hx, hp⟩, ?_⟩
    intro x hm
    rcases List.mem_cons.mp hm with rfl | hm
    · exact he
    · exact hle x hm

theorem separated_append :
    Separated (l₁ ++ l₂) ↔ Separated l₁ ∧ Separated l₂ ∧ ∀ a ∈ l₁, ∀ b ∈ l₂, a.2 + 1 < b.1 := by
  constructor
  · rintro ⟨hp, hle⟩
    obtain ⟨h₁, h₂, h₃⟩ := List.pairwise_append.mp hp
    exact ⟨⟨h₁, fun x hx => hle x (List.mem_append_left _ hx)⟩, ⟨h₂, fun x hx => hle x (List.mem_append_right _ hx)⟩, h₃⟩
  · rintro ⟨⟨h₁, hl₁⟩, ⟨h₂, hl₂⟩, h₃⟩
    refine ⟨List.pairwise_append.mpr ⟨h₁, h₂, h₃⟩, ?_⟩
    intro x hx
    rcases List.mem_append.mp hx with hx | hx
    · exact hl₁ x hx
    · exact hl₂ x hx

/-- 鍵の前の部分を残りの並びと繋ぐ。 -/
theorem Separated.append_replace {l' : List (Int × Int)} (h : Separated (l ++ l₁))
    (h' : Separated l') (hge : ∀ b ∈ l', ∃ e ∈ l₁, e.1 ≤ b.1) : Separated (l ++ l') := by
  obtain ⟨hl, -, hx⟩ := separated_append.mp h
  refine separated_append.mpr ⟨hl, h', ?_⟩
  intro a ha b hb
  obtain ⟨e, he, hle⟩ := hge b hb
  have := hx a ha e he
  omega

theorem Separated.eq_or_apart (h : Separated l) {a b : Int × Int} (ha : a ∈ l) (hb : b ∈ l) :
    a = b ∨ a.2 + 1 < b.1 ∨ b.2 + 1 < a.1 := by
  induction l with
  | nil => cases ha
  | cons e l ih =>
      obtain ⟨-, hx, hs⟩ := separated_cons.mp h
      rcases List.mem_cons.mp ha with rfl | hal
      · rcases List.mem_cons.mp hb with rfl | hbl
        · exact .inl rfl
        · exact .inr (.inl (hx b hbl))
      · rcases List.mem_cons.mp hb with rfl | hbl
        · exact .inr (.inr (hx a hal))
        · exact ih hs hal hbl

theorem Separated.succ_not_mem (h : Separated l) (he : e ∈ l) : e.2 + 1 ∉ denoted l := by
  rintro ⟨x, hx, h₁, h₂⟩
  have := h.proper e he
  rcases h.eq_or_apart he hx with rfl | hx | hx <;> omega

theorem Separated.pred_not_mem (h : Separated l) (he : e ∈ l) : e.1 - 1 ∉ denoted l := by
  rintro ⟨x, hx, h₁, h₂⟩
  have := h.proper e he
  rcases h.eq_or_apart he hx with rfl | hx | hx <;> omega

theorem Separated.mem_iff (h : Separated l) :
    e ∈ l ↔ e.1 ≤ e.2 ∧ (∀ v, e.1 ≤ v → v ≤ e.2 → v ∈ denoted l) ∧ e.1 - 1 ∉ denoted l ∧ e.2 + 1 ∉ denoted l := by
  constructor
  · intro he
    exact ⟨h.proper e he, fun v h₁ h₂ => ⟨e, he, h₁, h₂⟩, h.pred_not_mem he, h.succ_not_mem he⟩
  · rintro ⟨hle, hall, hpred, hsucc⟩
    obtain ⟨x, hx, h₁, h₂⟩ := hall e.1 (Int.le_refl _) hle
    have hfirst : x.1 = e.1 := by
      by_contra hne
      exact hpred ⟨x, hx, by omega, by omega⟩
    have hnot : x.2 + 1 ∉ denoted l := h.succ_not_mem hx
    have hsecond : x.2 = e.2 := by
      rcases Int.lt_trichotomy x.2 e.2 with hlt | heq | hgt
      · exact absurd (hall (x.2 + 1) (by omega) (by omega)) hnot
      · exact heq
      · exact absurd ⟨x, hx, by omega, by omega⟩ hsucc
    rw [← Prod.ext hfirst hsecond]
    exact hx

theorem Separated.unique (h : Separated l) (h' : Separated l₁) (heq : denoted l = denoted l₁) : l = l₁ := by
  have hlt : ∀ {l : List (Int × Int)}, Separated l → l.Pairwise fun a b => a.1 < b.1 := fun hl =>
    hl.apart.imp_of_mem fun {a b} ha _ hab => by
      have hle := hl.proper a ha
      omega
  refine (hlt h).eq_of_mem_iff (hlt h') fun e => ?_
  rw [h.mem_iff, h'.mem_iff, heq]

theorem Separated.keys_nodup (h : Separated l) : (l.map Prod.fst).Nodup := by
  induction l with
  | nil => exact List.nodup_nil
  | cons e l ih =>
      obtain ⟨he, hx, hs⟩ := separated_cons.mp h
      rw [List.map_cons, List.nodup_cons]
      refine ⟨?_, ih hs⟩
      intro hm
      obtain ⟨x, hmem, heq⟩ := List.mem_map.mp hm
      have := hx x hmem
      omega

end Lib
