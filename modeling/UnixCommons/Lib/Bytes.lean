import Mathlib.Data.List.Range
import Mathlib.Tactic.Ring

/-!
# バイトの並びとしてのメモリ

メモリは、番地からバイトへの写像である。バイトの並びの読み書きと、下位のバイトから順に並ぶ 32 ビットの項目の読み書きを定める。
-/

namespace Lib

abbrev Bytes := List UInt8

def readBytes (c : Nat → UInt8) (off n : Nat) : Bytes := (List.range n).map fun k => c (off + k)

/-- 番地 `off` からバイトの並び `bs` を書く。 -/
def writeBytes (c : Nat → UInt8) (off : Nat) (bs : Bytes) : Nat → UInt8 := fun i =>
  if off ≤ i ∧ i < off + bs.length then bs.getD (i - off) 0 else c i

def encodeField (v : Nat) : Bytes :=
  [UInt8.ofNat v, UInt8.ofNat (v / 256), UInt8.ofNat (v / 65536), UInt8.ofNat (v / 16777216)]

def getField (c : Nat → UInt8) (off : Nat) : Nat :=
  (c off).toNat + 256 * (c (off + 1)).toNat + 65536 * (c (off + 2)).toNat +
    16777216 * (c (off + 3)).toNat

/-- 番地 `off` の 32 ビットの項目に値を書く。 -/
def setField (c : Nat → UInt8) (off v : Nat) : Nat → UInt8 := writeBytes c off (encodeField v)

variable {c c' : Nat → UInt8} {off off' n v : Nat} {bs : Bytes}

theorem forall_byte {P : Nat → Prop} (h : ∀ n < 256, P n) (b : UInt8) : P b.toNat := h _ b.toNat_lt

theorem forall_uint8 {P : UInt8 → Prop} (h : ∀ n < 256, P (UInt8.ofNat n)) (b : UInt8) : P b := by
  have := h b.toNat b.toNat_lt
  rwa [UInt8.ofNat_toNat] at this

theorem forall_mem_bytes {P : UInt8 → Prop} [DecidablePred P] {l : Bytes}
    (h : l.all (fun b => decide (P b)) = true) : ∀ b ∈ l, P b :=
  fun b hb => of_decide_eq_true (List.all_eq_true.mp h b hb)

theorem ofNat_eq_of_mod {m n : Nat} (h : m % 256 = n) : UInt8.ofNat m = UInt8.ofNat n := by
  apply UInt8.toNat_inj.mp
  rw [UInt8.toNat_ofNat', UInt8.toNat_ofNat', ← h, Nat.mod_mod]

/-! ## バイトの並び -/

@[simp] theorem length_readBytes : (readBytes c off n).length = n := by simp [readBytes]

@[simp] theorem readBytes_zero : readBytes c off 0 = [] := rfl

theorem readBytes_congr (h : ∀ i, off ≤ i → i < off + n → c i = c' i) :
    readBytes c off n = readBytes c' off n := by
  apply List.map_congr_left
  intro k hk
  exact h _ (by omega) (by have := List.mem_range.mp hk; omega)

theorem readBytes_succ (c : Nat → UInt8) (off n : Nat) : readBytes c off (n + 1) = c off :: readBytes c (off + 1) n := by
  simp only [readBytes, List.range_succ_eq_map, List.map_cons, List.map_map, Nat.add_zero]
  congr 1
  refine List.map_congr_left fun k _ => ?_
  rw [Function.comp_apply, Nat.succ_eq_add_one]
  congr 1
  omega

theorem readBytes_add (c : Nat → UInt8) (off m n : Nat) : readBytes c off
    (m + n) = readBytes c off m ++ readBytes c (off + m) n := by
  induction m generalizing off with
  | zero => simp
  | succ m ih =>
      have hsum : m + 1 + n = m + n + 1 := by omega
      have hoff : off + (m + 1) = off + 1 + m := by omega
      rw [hsum, readBytes_succ, readBytes_succ, ih, hoff]
      rfl

theorem readBytes_pred (hn : 0 < n) (h : readBytes c off n = bs) : readBytes c off (n - 1) = bs.dropLast := by
  have hsplit : n = n - 1 + 1 := by omega
  rw [hsplit, readBytes_add] at h
  rw [← h, readBytes_succ, readBytes_zero, List.dropLast_concat]

theorem readBytes_reverse (h : ∀ k < n, c' (off + k) = c (off + (n - 1 - k))) :
    readBytes c' off n = (readBytes c off n).reverse := by
  apply List.ext_getElem (by simp)
  intro k hk _
  rw [length_readBytes] at hk
  simp only [readBytes, List.getElem_reverse, List.getElem_map, List.getElem_range, List.length_map, List.length_range]
  exact h k hk

theorem readBytes_update_of_ge {i : Nat} (h : off + n ≤ i) (b : UInt8) :
    readBytes (Function.update c i b) off n = readBytes c off n :=
  readBytes_congr fun _ _ hj => Function.update_of_ne (by omega) _ _

theorem writeBytes_of_lt {i : Nat} (h : i < off) : writeBytes c off bs i = c i := by
  unfold writeBytes
  rw [if_neg (by omega)]

theorem writeBytes_of_ge {i : Nat} (h : off + bs.length ≤ i) : writeBytes c off bs i = c i := by
  unfold writeBytes
  rw [if_neg (by omega)]

theorem readBytes_writeBytes : readBytes (writeBytes c off bs) off bs.length = bs := by
  apply List.ext_getElem (by simp)
  intro i h _
  have hi : i < bs.length := by simpa using h
  simp only [readBytes, writeBytes, List.getElem_map, List.getElem_range]
  rw [if_pos (by omega)]
  simp [hi]

theorem readBytes_writeBytes_after (h : off' + bs.length ≤ off) :
    readBytes (writeBytes c off' bs) off n = readBytes c off n :=
  readBytes_congr fun _ hi _ => writeBytes_of_ge (by omega)

/-! ## 32 ビットの項目 -/

@[simp] theorem length_encodeField : (encodeField v).length = 4 := rfl

theorem getField_congr (h : ∀ i, off ≤ i → i < off + 4 → c i = c' i) :
    getField c off = getField c' off := by
  unfold getField
  rw [h off (by omega) (by omega), h (off + 1) (by omega) (by omega),
    h (off + 2) (by omega) (by omega), h (off + 3) (by omega) (by omega)]

theorem getField_setField (h : v < 2 ^ 32) : getField (setField c off v) off = v := by
  have hb : ∀ k, k < 4 → writeBytes c off (encodeField v) (off + k) = (encodeField v).getD k 0 := by
    intro k hk
    unfold writeBytes
    rw [if_pos ⟨by omega, by rw [length_encodeField]; omega⟩, Nat.add_sub_cancel_left]
  have h0 := hb 0 (by omega)
  rw [Nat.add_zero] at h0
  unfold getField setField
  rw [h0, hb 1 (by omega), hb 2 (by omega), hb 3 (by omega)]
  simp only [encodeField, List.getD_cons_zero, List.getD_cons_succ, UInt8.toNat_ofNat']
  omega

theorem getField_writeBytes_before (h : off + 4 ≤ off') :
    getField (writeBytes c off' bs) off = getField c off :=
  getField_congr fun _ _ hi => writeBytes_of_lt (by omega)

theorem getField_writeBytes_after (h : off' + bs.length ≤ off) :
    getField (writeBytes c off' bs) off = getField c off :=
  getField_congr fun _ hi _ => writeBytes_of_ge (by omega)

theorem getField_setField_before (h : off + 4 ≤ off') :
    getField (setField c off' v) off = getField c off := getField_writeBytes_before h

theorem getField_setField_after (h : off' + 4 ≤ off) :
    getField (setField c off' v) off = getField c off := getField_writeBytes_after h

theorem readBytes_setField_after (h : off' + 4 ≤ off) :
    readBytes (setField c off' v) off n = readBytes c off n := readBytes_writeBytes_after h

end Lib
