import UnixCommons.PlainStorage.SyncIndex

/-!
# キーの記録の並び

一つのブロックの使っている部分は、キーの記録の並びである。
-/

namespace UnixCommons.PlainStorage

open Lib

structure Record (κ : Type) where
  key : κ
  dataBlock : Nat
  deleted : Bool

structure Call (κ : Type) where
  key : κ
  dataBlock : Nat
  addition : KeyAddition
  deriving DecidableEq

variable {κ : Type} (acc : KeyAccessor κ)

def recordSize (r : Record κ) : Nat := keyHeaderSize + acc.size r.key

def recordsEnd (off : Nat) : List (Record κ) → Nat
  | [] => off
  | r :: rs => recordsEnd (off + recordSize acc r) rs

structure RecordAt (c : Nat → UInt8) (off : Nat) (r : Record κ) : Prop where
  keySize : getField c (off + khKeySize) = recordSize acc r
  dataBlock : getField c (off + khDataBlock) = r.dataBlock
  mark : getField c (off + khMark) = if r.deleted then markDeleted else markValid
  key : readBytes c (off + keyHeaderSize) (acc.size r.key) = acc.save r.key

def Records (c : Nat → UInt8) : Nat → List (Record κ) → Prop
  | _, [] => True
  | off, r :: rs => RecordAt acc c off r ∧ Records c (off + recordSize acc r) rs

/-- ブロック `b` の番地 `off` から並ぶ記録のうち、消されていないもの。 -/
def blockCalls (b : Nat) : Nat → List (Record κ) → List (Call κ)
  | _, [] => []
  | off, r :: rs =>
      (if r.deleted then [] else [⟨r.key, r.dataBlock, ⟨b, off⟩⟩]) ++ blockCalls b (off + recordSize acc r) rs

def indexCalls (kbs : List (Nat × List (Record κ))) : List (Call κ) :=
  kbs.flatMap fun p => blockCalls acc p.1 0 p.2

variable {acc} {c c' : Nat → UInt8} {b off d : Nat} {r : Record κ} {l₁ l₂ : List (Record κ)} {k : κ}

/-! ## 終わりの番地 -/

theorem recordsEnd_ge : off ≤ recordsEnd acc off l₁ := by
  induction l₁ generalizing off with
  | nil => exact Nat.le_refl _
  | cons r l ih => exact Nat.le_trans (Nat.le_add_right _ _) ih

theorem recordsEnd_append : recordsEnd acc off (l₁ ++ l₂) = recordsEnd acc (recordsEnd acc off l₁) l₂ := by
  induction l₁ generalizing off with
  | nil => rfl
  | cons r l ih => exact ih

theorem recordSize_pos : 12 ≤ recordSize acc r := Nat.le_add_right _ _

/-! ## 並びの読み書き -/

theorem RecordAt.congr (h : RecordAt acc c off r)
    (he : ∀ i, off ≤ i → i < off + recordSize acc r → c' i = c i) : RecordAt acc c' off r := by
  simp only [recordSize, keyHeaderSize] at he
  refine ⟨?_, ?_, ?_, ?_⟩
  · rw [← h.keySize]
    exact getField_congr fun i h1 h2 => he i (by simp only [khKeySize] at h1; omega)
      (by simp only [khKeySize] at h2; omega)
  · rw [← h.dataBlock]
    exact getField_congr fun i h1 h2 => he i (by simp only [khDataBlock] at h1; omega)
      (by simp only [khDataBlock] at h2; omega)
  · rw [← h.mark]
    exact getField_congr fun i h1 h2 => he i (by simp only [khMark] at h1; omega)
      (by simp only [khMark] at h2; omega)
  · rw [← h.key]
    exact readBytes_congr fun i h1 h2 => he i (by simp only [keyHeaderSize] at h1; omega)
      (by simp only [keyHeaderSize] at h2; omega)

theorem Records.congr (h : Records acc c off l₁)
    (he : ∀ i, off ≤ i → i < recordsEnd acc off l₁ → c' i = c i) : Records acc c' off l₁ := by
  induction l₁ generalizing off with
  | nil => trivial
  | cons r l ih =>
      have hend : off + recordSize acc r ≤ recordsEnd acc (off + recordSize acc r) l := recordsEnd_ge
      refine ⟨h.1.congr fun i h1 h2 => he i h1 (by simp only [recordsEnd]; omega), ih h.2 fun i h1 h2 => ?_⟩
      exact he i (by omega) h2

theorem Records.append :
    Records acc c off (l₁ ++ l₂) ↔ Records acc c off l₁ ∧ Records acc c (recordsEnd acc off l₁) l₂ := by
  induction l₁ generalizing off with
  | nil => simp [Records, recordsEnd]
  | cons r l ih => simp [Records, recordsEnd, ih, and_assoc]

theorem recordAt_putRecord (hs : recordSize acc ⟨k, d, false⟩ < 2 ^ 32) (hd : d < 2 ^ 32) :
    RecordAt acc (putRecord acc c off k d) off ⟨k, d, false⟩ := by
  have hlen := acc.length_save k
  refine ⟨?_, ?_, ?_, ?_⟩
  · unfold putRecord
    rw [getField_writeBytes_before (by simp only [khKeySize, keyHeaderSize]; omega),
      getField_setField_before (by simp only [khKeySize, khMark]; omega),
      getField_setField_before (by simp only [khKeySize, khDataBlock]; omega)]
    exact getField_setField hs
  · unfold putRecord
    rw [getField_writeBytes_before (by simp only [khDataBlock, keyHeaderSize]; omega),
      getField_setField_before (by simp only [khDataBlock, khMark]; omega)]
    exact getField_setField hd
  · unfold putRecord
    rw [getField_writeBytes_before (by simp only [khMark, keyHeaderSize]; omega)]
    exact getField_setField (by decide)
  · unfold putRecord
    rw [← hlen]
    exact readBytes_writeBytes

theorem putRecord_of_lt {i : Nat} (h : i < off) : putRecord acc c off k d i = c i := by
  unfold putRecord setField
  simp only [khKeySize, khDataBlock, khMark, keyHeaderSize]
  rw [writeBytes_of_lt (by omega), writeBytes_of_lt (by omega), writeBytes_of_lt (by omega),
    writeBytes_of_lt (by omega)]

theorem Records.push (h : Records acc c 0 l₁) (hs : recordSize acc ⟨k, d, false⟩ < 2 ^ 32) (hd : d < 2 ^ 32) :
    Records acc (putRecord acc c (recordsEnd acc 0 l₁) k d) 0 (l₁ ++ [⟨k, d, false⟩]) := by
  refine Records.append.mpr ⟨h.congr fun i _ hi => putRecord_of_lt hi, ?_, trivial⟩
  exact recordAt_putRecord hs hd

theorem Records.replace {r' : Record κ} (h : Records acc c 0 (l₁ ++ r :: l₂))
    (hr : RecordAt acc c' (recordsEnd acc 0 l₁) r') (hs : recordSize acc r' = recordSize acc r)
    (he : ∀ i, i < recordsEnd acc 0 l₁ ∨ recordsEnd acc 0 l₁ + recordSize acc r ≤ i → c' i = c i) :
    Records acc c' 0 (l₁ ++ r' :: l₂) := by
  obtain ⟨h1, -, h2⟩ := Records.append.mp h
  refine Records.append.mpr ⟨h1.congr fun i _ hi => he i (Or.inl hi), hr, ?_⟩
  rw [hs]
  exact h2.congr fun i hi _ => he i (Or.inr hi)

theorem setField_outside {v i : Nat} (h : i < off ∨ off + 4 ≤ i) : setField c off v i = c i := by
  unfold setField
  rcases h with h | h
  · exact writeBytes_of_lt h
  · exact writeBytes_of_ge (by rw [length_encodeField]; exact h)

theorem Records.setDataBlock (h : Records acc c 0 (l₁ ++ r :: l₂)) (hd : d < 2 ^ 32) :
    Records acc (setField c (recordsEnd acc 0 l₁ + khDataBlock) d) 0
      (l₁ ++ { r with dataBlock := d } :: l₂) := by
  have hr := (Records.append.mp h).2.1
  have hp := @recordSize_pos κ acc r
  refine h.replace ⟨?_, getField_setField hd, ?_, ?_⟩ rfl fun i hi => setField_outside ?_
  · rw [getField_setField_before (by simp only [khKeySize, khDataBlock]; omega)]
    exact hr.keySize
  · rw [getField_setField_after (by simp only [khMark, khDataBlock]; omega)]
    exact hr.mark
  · rw [readBytes_setField_after (by simp only [khDataBlock, keyHeaderSize]; omega)]
    exact hr.key
  · simp only [khDataBlock]
    omega

theorem Records.setMark (h : Records acc c 0 (l₁ ++ r :: l₂)) :
    Records acc (setField c (recordsEnd acc 0 l₁ + khMark) markDeleted) 0
      (l₁ ++ { r with deleted := true } :: l₂) := by
  have hr := (Records.append.mp h).2.1
  have hp := @recordSize_pos κ acc r
  refine h.replace ⟨?_, ?_, getField_setField (by decide), ?_⟩ rfl fun i hi => setField_outside ?_
  · rw [getField_setField_before (by simp only [khKeySize, khMark]; omega)]
    exact hr.keySize
  · rw [getField_setField_before (by simp only [khMark, khDataBlock]; omega)]
    exact hr.dataBlock
  · rw [readBytes_setField_after (by simp only [khMark, keyHeaderSize]; omega)]
    exact hr.key
  · simp only [khMark]
    omega

/-! ## 消されていない記録 -/

theorem blockCalls_append :
    blockCalls acc b off (l₁ ++ l₂) = blockCalls acc b off l₁ ++ blockCalls acc b (recordsEnd acc off l₁) l₂ := by
  induction l₁ generalizing off with
  | nil => rfl
  | cons r l ih => simp only [List.cons_append, blockCalls, recordsEnd, ih, List.append_assoc]

theorem mem_blockCalls {x : Call κ} {l : List (Record κ)} (h : x ∈ blockCalls acc b off l) :
    ∃ l₁ r l₂, l = l₁ ++ r :: l₂ ∧ r.deleted = false ∧
      x = ⟨r.key, r.dataBlock, ⟨b, recordsEnd acc off l₁⟩⟩ := by
  induction l generalizing off with
  | nil => simp [blockCalls] at h
  | cons r l ih =>
      rcases List.mem_append.mp h with h | h
      · cases hd : r.deleted with
        | true => simp [hd] at h
        | false =>
            simp only [hd, Bool.false_eq_true, if_false, List.mem_singleton] at h
            exact ⟨[], r, l, rfl, hd, h⟩
      · obtain ⟨l₁, r', l₂, rfl, hd, hx⟩ := ih h
        exact ⟨r :: l₁, r', l₂, rfl, hd, hx⟩

theorem mem_indexCalls {x : Call κ} {kbs : List (Nat × List (Record κ))} (h : x ∈ indexCalls acc kbs) :
    ∃ K₁ b l₁ r l₂ K₂, kbs = K₁ ++ (b, l₁ ++ r :: l₂) :: K₂ ∧ r.deleted = false ∧
      x = ⟨r.key, r.dataBlock, ⟨b, recordsEnd acc 0 l₁⟩⟩ := by
  obtain ⟨⟨b, l⟩, hp, hx⟩ := List.mem_flatMap.mp h
  obtain ⟨K₁, K₂, rfl⟩ := List.append_of_mem hp
  obtain ⟨l₁, r, l₂, rfl, hd, rfl⟩ := mem_blockCalls hx
  exact ⟨K₁, b, l₁, r, l₂, K₂, rfl, hd, rfl⟩

theorem indexCalls_append {K₁ K₂ : List (Nat × List (Record κ))} :
    indexCalls acc (K₁ ++ K₂) = indexCalls acc K₁ ++ indexCalls acc K₂ := by
  simp [indexCalls]

theorem indexCalls_cons {p : Nat × List (Record κ)} {K : List (Nat × List (Record κ))} :
    indexCalls acc (p :: K) = blockCalls acc p.1 0 p.2 ++ indexCalls acc K := by
  simp [indexCalls]

theorem indexCalls_split {K₁ K₂ : List (Nat × List (Record κ))} :
    indexCalls acc (K₁ ++ (b, l₁ ++ r :: l₂) :: K₂) =
      (indexCalls acc K₁ ++ blockCalls acc b 0 l₁) ++
        ((if r.deleted then [] else [⟨r.key, r.dataBlock, ⟨b, recordsEnd acc 0 l₁⟩⟩]) ++
        (blockCalls acc b (recordsEnd acc 0 l₁ + recordSize acc r) l₂ ++ indexCalls acc K₂)) := by
  simp only [indexCalls_append, indexCalls_cons, blockCalls_append, blockCalls, List.append_assoc]

theorem indexCalls_live {K₁ K₂ : List (Nat × List (Record κ))} (h : r.deleted = false) :
    indexCalls acc (K₁ ++ (b, l₁ ++ r :: l₂) :: K₂) =
      (indexCalls acc K₁ ++ blockCalls acc b 0 l₁) ++ ⟨r.key, r.dataBlock, ⟨b, recordsEnd acc 0 l₁⟩⟩ ::
        (blockCalls acc b (recordsEnd acc 0 l₁ + recordSize acc r) l₂ ++ indexCalls acc K₂) := by
  rw [indexCalls_split, h]
  rfl

theorem indexCalls_deleted {K₁ K₂ : List (Nat × List (Record κ))} (h : r.deleted = true) :
    indexCalls acc (K₁ ++ (b, l₁ ++ r :: l₂) :: K₂) =
      (indexCalls acc K₁ ++ blockCalls acc b 0 l₁) ++
        (blockCalls acc b (recordsEnd acc 0 l₁ + recordSize acc r) l₂ ++ indexCalls acc K₂) := by
  rw [indexCalls_split, h]
  rfl

end UnixCommons.PlainStorage
