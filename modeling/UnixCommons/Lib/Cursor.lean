import UnixCommons.Lib.Spec

/-!
# 終わりを確かめる読み書き

文字の並びを、位置を進めながら読む計算。終わりまたはその後の読み書きと、与えた回数で終わらないループを、失敗として区別する。
-/

namespace Lib

inductive Stop (ε : Type) where
  | outside
  | endless
  | thrown (e : ε)
  deriving DecidableEq, Repr

namespace Cursor

variable {α ε : Type} {str text rest : List α} {cur : Nat} {c : α}

def read (str : List α) (cur : Nat) : Except (Stop ε) α :=
  match str[cur]? with
  | some c => return c
  | none => throw .outside

def write (str : List α) (out : Nat) (c : α) : Except (Stop ε) (List α) :=
  if out < str.length then return str.set out c else throw .outside

def between (str : List α) (first last : Nat) : List α := (str.drop first).take (last - first)

theorem between_append {first mid last : Nat} (h : first ≤ mid) (h' : mid ≤ last) :
    between str first mid ++ between str mid last = between str first last := by
  have hlen : last - first = (mid - first) + (last - mid) := by omega
  rw [between, between, between, hlen, List.take_add, List.drop_drop, Nat.add_sub_cancel' h]

theorem length_between {first last : Nat} (h : last ≤ str.length) : (between str first last).length = last - first := by
  rw [between, List.length_take, List.length_drop]
  omega

def overwrite (str : List α) (pos : Nat) (text : List α) : List α := str.take pos ++ text ++ str.drop (pos + text.length)

theorem length_overwrite {pos : Nat} (h : pos + text.length ≤ str.length) :
    (overwrite str pos text).length = str.length := by
  rw [overwrite, List.length_append, List.length_append, List.length_take, List.length_drop]
  omega

theorem getElem?_overwrite {pos : Nat} (h : pos + text.length ≤ str.length) (i : Nat) :
    (overwrite str pos text)[i]? = if pos ≤ i ∧ i < pos + text.length then text[i - pos]? else str[i]? := by
  have htake : (str.take pos).length = pos := List.length_take_of_le (by omega)
  rw [overwrite, List.append_assoc]
  rcases Nat.lt_or_ge i pos with hlt | hge
  · rw [List.getElem?_append_left (by omega), List.getElem?_take_of_lt hlt, if_neg (by omega)]
  · rw [List.getElem?_append_right (by omega), htake]
    rcases Nat.lt_or_ge i (pos + text.length) with hin | hout
    · rw [List.getElem?_append_left (by omega), if_pos ⟨hge, hin⟩]
    · rw [List.getElem?_append_right (by omega), List.getElem?_drop, if_neg (by omega)]
      congr 1
      omega

theorem take_overwrite {pos : Nat} (h : pos + text.length ≤ str.length) :
    (overwrite str pos text).take (pos + text.length) = str.take pos ++ text := by
  have hlen : (str.take pos ++ text).length = pos + text.length := by
    rw [List.length_append, List.length_take_of_le (by omega)]
  rw [overwrite, ← hlen, List.take_left]

/-- 位置 `cur` から終わりまでが `rest` である。 -/
structure At (str : List α) (cur : Nat) (rest : List α) : Prop where
  length : cur + rest.length = str.length
  drop : str.drop cur = rest

theorem At.start (str : List α) : At str 0 str := ⟨Nat.zero_add _, rfl⟩

theorem At.append (h : At str cur (text ++ rest)) : At str (cur + text.length) rest := by
  refine ⟨?_, ?_⟩
  · rw [← h.length, List.length_append, Nat.add_assoc]
  · rw [← List.drop_drop, h.drop, List.drop_left]

theorem At.tail (h : At str cur (c :: rest)) : At str (cur + 1) rest := @At.append _ _ [c] _ _ h

theorem At.read (h : At str cur (c :: rest)) : (read str cur : Except (Stop ε) α) = .ok c := by
  have hget : str[cur]? = some c := by rw [← List.head?_drop, h.drop, List.head?_cons]
  rw [Cursor.read, hget]
  rfl

theorem At.eq_end_iff (h : At str cur rest) : cur = str.length ↔ rest = [] := by
  rw [← h.length, ← List.length_eq_zero_iff]
  omega

theorem At.ne_end (h : At str cur (c :: rest)) : cur ≠ str.length := fun he => nomatch h.eq_end_iff.mp he

theorem At.between (h : At str cur (text ++ rest)) : between str cur (cur + text.length) = text := by
  rw [Cursor.between, h.drop, Nat.add_sub_cancel_left, List.take_left]

theorem At.write {out : Nat} (h : At str cur rest) (hout : out < cur) (c : α) :
    ∃ str', (write str out c : Except (Stop ε) (List α)) = .ok str' ∧ str'.take
      (out + 1) = str.take out ++ [c] ∧ At str' cur rest := by
  have hlt : out < str.length := by
    rw [← h.length]
    omega
  refine ⟨str.set out c, ?_, ?_, ?_, ?_⟩
  · rw [Cursor.write, if_pos hlt]
    rfl
  · have hset : str.set out c = str.take out ++ c :: str.drop (out + 1) :=
      List.set_eq_take_append_cons_drop.trans (if_pos hlt)
    have hlen : (str.take out).length = out := List.length_take_of_le (Nat.le_of_lt hlt)
    rw [hset, List.take_append, hlen, Nat.add_sub_cancel_left, List.take_of_length_le (by omega)]
    rfl
  · rw [List.length_set, h.length]
  · rw [List.drop_set, if_pos hout, h.drop]

end Cursor

end Lib
