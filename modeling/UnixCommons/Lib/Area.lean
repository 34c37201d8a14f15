import Mathlib.Data.List.Infix

/-!
# 伸びる領域

文字を後ろに書き足す領域。確保した大きさを超えて書き足すと、領域は別の場所に移り、それまでに取った位置は無効になる。
-/

namespace Lib

variable {α : Type}

/-- `place` は移った回数、`lengths` は、空にした後の、書き足す度の長さである。 -/
structure Area (α : Type) where
  text : List α
  capacity : Nat
  place : Nat
  lengths : List Nat
  deriving DecidableEq, Repr

structure Mark where
  place : Nat
  offset : Nat
  size : Nat
  deriving DecidableEq, Repr

namespace Area

def append (a : Area α) (t : List α) : Area α :=
  let text := a.text ++ t
  if text.length ≤ a.capacity then { a with text, lengths := a.lengths ++ [text.length] }
  else { text, capacity := max text.length (2 * a.capacity), place := a.place + 1, lengths := a.lengths ++ [text.length] }

def clear (a : Area α) : Area α := { a with text := [], lengths := [] }

def reserve (a : Area α) (n : Nat) : Area α :=
  if n ≤ a.capacity then a else { a with capacity := n, place := a.place + 1 }

/-- 今の終わりから始まる、長さ `size` の位置。 -/
def mark (a : Area α) (size : Nat) : Mark := ⟨a.place, a.text.length, size⟩

def read (a : Area α) (m : Mark) : Option (List α) :=
  if m.place = a.place ∧ m.offset + m.size ≤ a.text.length then some ((a.text.drop m.offset).take m.size) else none

variable {a a' a'' : Area α} {m : Mark} {t : List α}

@[simp] theorem append_text (a : Area α) (t : List α) : (a.append t).text = a.text ++ t := by
  unfold append
  dsimp only
  split <;> rfl

@[simp] theorem append_lengths (a : Area α) (t : List α) : (a.append t).lengths = a.lengths ++ [(a.text ++ t).length] := by
  unfold append
  dsimp only
  split <;> rfl

@[simp] theorem clear_text (a : Area α) : a.clear.text = [] := rfl

@[simp] theorem clear_lengths (a : Area α) : a.clear.lengths = [] := rfl

@[simp] theorem reserve_text (a : Area α) (n : Nat) : (a.reserve n).text = a.text := by
  unfold reserve
  split <;> rfl

@[simp] theorem reserve_lengths (a : Area α) (n : Nat) : (a.reserve n).lengths = a.lengths := by
  unfold reserve
  split <;> rfl

theorem le_reserve_capacity (a : Area α) (n : Nat) : n ≤ (a.reserve n).capacity := by
  unfold reserve
  split
  next h => exact h
  · exact le_rfl

/-! ## 書き足した領域 -/

/-- `a` に書き足した領域が `a'` である。`a` で確保した大きさに収まる限り、場所は変わらない。 -/
structure Extends (a a' : Area α) : Prop where
  text : a.text <+: a'.text
  stays : a'.text.length ≤ a.capacity → a'.place = a.place ∧ a'.capacity = a.capacity
  lengths : ∀ n ∈ a'.lengths, n ∈ a.lengths ∨ n ≤ a'.text.length

theorem Extends.refl (a : Area α) : Extends a a := ⟨List.prefix_rfl, fun _ => ⟨rfl, rfl⟩, fun _ h => .inl h⟩

theorem Extends.trans (h : Extends a a') (h' : Extends a' a'') : Extends a a'' := by
  refine ⟨h.text.trans h'.text, fun hfit => ?_, fun n hn => ?_⟩
  · have hle := h'.text.length_le
    obtain ⟨hplace, hcapacity⟩ := h.stays (hle.trans hfit)
    obtain ⟨hplace', hcapacity'⟩ := h'.stays (hcapacity ▸ hfit)
    exact ⟨hplace'.trans hplace, hcapacity'.trans hcapacity⟩
  · rcases h'.lengths n hn with hn | hn
    · exact (h.lengths n hn).imp_right fun hle => hle.trans h'.text.length_le
    · exact .inr hn

theorem Extends.fits (h : Extends a a') (h' : Extends a' a'')
    (hfit : a''.text.length ≤ a.capacity) : a''.text.length ≤ a'.capacity := by
  rw [(h.stays (h'.text.length_le.trans hfit)).2]
  exact hfit

theorem extends_append (a : Area α) (t : List α) : Extends a (a.append t) := by
  refine ⟨by rw [append_text]; exact List.prefix_append _ _, fun hfit => ?_, fun n hn => ?_⟩
  · rw [append_text] at hfit
    unfold append
    dsimp only
    rw [if_pos hfit]
    exact ⟨rfl, rfl⟩
  · rw [append_lengths] at hn
    rw [append_text]
    exact (List.mem_append.mp hn).imp_right fun h => (List.mem_singleton.mp h).le

theorem read_append (hfit : (a.append t).text.length ≤ a.capacity) : (a.append t).read (a.mark t.length) = some t := by
  have hplace := ((extends_append a t).stays hfit).1
  rw [read, if_pos ⟨hplace.symm, by simp [mark]⟩]
  simp [mark]

theorem Extends.read (h : Extends a a') (hfit : a'.text.length ≤ a.capacity)
    (hread : a.read m = some t) : a'.read m = some t := by
  obtain ⟨rest, hrest⟩ := h.text
  rw [Area.read] at hread
  split at hread
  next hvalid =>
      have hlen : a.text.length ≤ a'.text.length := h.text.length_le
      rw [Area.read, if_pos ⟨hvalid.1.trans (h.stays hfit).1.symm, hvalid.2.trans hlen⟩, ← hread, ← hrest]
      have hoffset : m.offset ≤ a.text.length := by omega
      have hsize : m.size ≤ (a.text.drop m.offset).length := by
        rw [List.length_drop]
        omega
      rw [List.drop_append_of_le_length hoffset, List.take_append_of_le_length hsize]
  · cases hread

end Area

end Lib
