import UnixCommons.Lib.Bytes
import Mathlib.Tactic.IntervalCases

/-!
# UTF-8

Unicode の表 3-7 の、正しいバイトの並び。一つの並びは一つのスカラー値を表し、長さは先頭のバイトで決まる。
-/

namespace Lib.Utf8

def table : List (List (Nat × Nat)) := [
  [(0x00, 0x7F)],
  [(0xC2, 0xDF), (0x80, 0xBF)],
  [(0xE0, 0xE0), (0xA0, 0xBF), (0x80, 0xBF)],
  [(0xE1, 0xEC), (0x80, 0xBF), (0x80, 0xBF)],
  [(0xED, 0xED), (0x80, 0x9F), (0x80, 0xBF)],
  [(0xEE, 0xEF), (0x80, 0xBF), (0x80, 0xBF)],
  [(0xF0, 0xF0), (0x90, 0xBF), (0x80, 0xBF), (0x80, 0xBF)],
  [(0xF1, 0xF3), (0x80, 0xBF), (0x80, 0xBF), (0x80, 0xBF)],
  [(0xF4, 0xF4), (0x80, 0x8F), (0x80, 0xBF), (0x80, 0xBF)]]

def InRow : List (Nat × Nat) → Bytes → Prop
  | [], [] => True
  | r :: row, b :: s => (r.1 ≤ b.toNat ∧ b.toNat ≤ r.2) ∧ InRow row s
  | _, _ => False

def IsSequence (s : Bytes) : Prop := ∃ row ∈ table, InRow row s

inductive WellFormed : Bytes → Prop
  | nil : WellFormed []
  | cons {s rest : Bytes} (h : IsSequence s) (hrest : WellFormed rest) : WellFormed (s ++ rest)

/-! ## 先頭のバイトによる場合分け -/

def IsTail (b : UInt8) : Prop := 0x80 ≤ b.toNat ∧ b.toNat ≤ 0xBF

def IsSecond (a b : UInt8) : Prop :=
  (if a.toNat = 0xE0 then 0xA0 else if a.toNat = 0xF0 then 0x90 else 0x80) ≤ b.toNat ∧
    b.toNat ≤ if a.toNat = 0xED then 0x9F else if a.toNat = 0xF4 then 0x8F else 0xBF

instance (b : UInt8) : Decidable (IsTail b) := inferInstanceAs (Decidable (_ ∧ _))

instance (a b : UInt8) : Decidable (IsSecond a b) := inferInstanceAs (Decidable (_ ∧ _))

variable {a b c d : UInt8} {s rest : Bytes}

attribute [local grind =] InRow IsSequence IsTail IsSecond

theorem isSequence_nil : ¬ IsSequence [] := by
  simp [IsSequence, table, InRow]

theorem isSequence_one : IsSequence [a] ↔ a.toNat ≤ 0x7F := by
  simp [IsSequence, table, InRow]

theorem isSequence_two : IsSequence [a, b] ↔ (0xC2 ≤ a.toNat ∧ a.toNat ≤ 0xDF) ∧ IsTail b := by
  simp [IsSequence, table, InRow, IsTail]

theorem isSequence_three : IsSequence [a, b, c] ↔ (0xE0 ≤ a.toNat ∧ a.toNat ≤ 0xEF) ∧ IsSecond a b ∧ IsTail c := by
  simp only [IsSequence, table, InRow, IsTail, IsSecond, List.mem_cons, List.not_mem_nil, or_false,
    exists_eq_or_imp, exists_eq_left, and_true, and_false, false_or]
  split_ifs <;> omega

theorem isSequence_four : IsSequence [a, b, c, d] ↔ (0xF0 ≤ a.toNat ∧ a.toNat ≤ 0xF4) ∧
    IsSecond a b ∧ IsTail c ∧ IsTail d := by
  simp only [IsSequence, table, InRow, IsTail, IsSecond, List.mem_cons, List.not_mem_nil, or_false,
    exists_eq_or_imp, exists_eq_left, and_true, and_false, false_or]
  split_ifs <;> omega

theorem IsSequence.cases (h : IsSequence s) :
    (∃ a, s = [a] ∧ a.toNat ≤ 0x7F) ∨ (∃ a b, s = [a, b] ∧ (0xC2 ≤ a.toNat ∧ a.toNat ≤ 0xDF) ∧ IsTail b) ∨
      (∃ a b c, s = [a, b, c] ∧ (0xE0 ≤ a.toNat ∧ a.toNat ≤ 0xEF) ∧ IsSecond a b ∧ IsTail c) ∨
      ∃ a b c d, s = [a, b, c, d] ∧ (0xF0 ≤ a.toNat ∧ a.toNat ≤ 0xF4) ∧ IsSecond a b ∧ IsTail c ∧ IsTail d := by
  match s, h with
  | [], h => exact absurd h isSequence_nil
  | [a], h => exact .inl ⟨a, rfl, isSequence_one.mp h⟩
  | [a, b], h => exact .inr (.inl ⟨a, b, rfl, isSequence_two.mp h⟩)
  | [a, b, c], h => exact .inr (.inr (.inl ⟨a, b, c, rfl, isSequence_three.mp h⟩))
  | [a, b, c, d], h => exact .inr (.inr (.inr ⟨a, b, c, d, rfl, isSequence_four.mp h⟩))
  | _ :: _ :: _ :: _ :: _ :: _, h => simp [IsSequence, table, InRow] at h

def sequenceLength (a : UInt8) : Nat := if a.toNat ≤ 0x7F then 1 else if a.toNat ≤ 0xDF then 2
    else if a.toNat ≤ 0xEF then 3 else 4

theorem IsSequence.length_eq (h : IsSequence (a :: s)) : (a :: s).length = sequenceLength a := by
  unfold sequenceLength
  rcases h.cases with ⟨x, he, hx⟩ | ⟨x, b, he, hx, -⟩ | ⟨x, b, c, he, hx, -⟩ | ⟨x, b, c, d, he, hx, -⟩ <;>
  · obtain ⟨rfl, rfl⟩ := List.cons.inj he
    split_ifs <;> first | rfl | omega

theorem IsSequence.ne_nil (h : IsSequence s) : s ≠ [] := by
  rintro rfl
  exact isSequence_nil h

theorem IsSequence.append_inj {s' rest' : Bytes} (h : IsSequence s) (h' : IsSequence s')
    (he : s ++ rest = s' ++ rest') : s = s' ∧ rest = rest' := by
  refine List.append_inj he ?_
  match s, s', h, h' with
  | [], _, h, _ => exact absurd h isSequence_nil
  | _ :: _, [], _, h' => exact absurd h' isSequence_nil
  | a :: s, a' :: s', h, h' =>
      obtain ⟨rfl, -⟩ := List.cons.inj he
      rw [h.length_eq, h'.length_eq]

theorem WellFormed.of_append {w : Bytes} (hw : WellFormed w) (h : WellFormed (w ++ rest)) : WellFormed rest := by
  induction hw with
  | nil => exact h
  | @cons s w hs hw ih =>
      rw [List.append_assoc] at h
      generalize hl : s ++ (w ++ rest) = l at h
      cases h with
      | nil =>
          have hnil : s = [] := (List.append_eq_nil_iff.mp hl).1
          exact absurd hnil hs.ne_nil
      | cons hs' hrest' =>
          obtain ⟨-, rfl⟩ := hs.append_inj hs' hl
          exact ih hrest'

def StartsBad (s : Bytes) : Prop := s ≠ [] ∧ ∀ n, ¬ IsSequence (s.take n)

theorem StartsBad.not_wellFormed (h : StartsBad s) : ∀ n, WellFormed (s.take n) → s.take n = [] := by
  intro n hw
  generalize ht : s.take n = t at hw
  cases hw with
  | nil => rfl
  | @cons q rest hq hrest =>
      refine absurd hq ?_
      have hle : q.length ≤ n := by
        have := congrArg List.length ht
        simp only [List.length_take, List.length_append] at this
        omega
      have hpre : s.take q.length = q := by
        have := congrArg (List.take q.length) ht
        rwa [List.take_take, Nat.min_eq_left hle, List.take_left] at this
      rw [← hpre]
      exact h.2 q.length

theorem startsBad_cons (h₁ : ¬ a.toNat ≤ 0x7F)
    (h₂ : ∀ b rest, s = b :: rest → 0xC2 ≤ a.toNat ∧ a.toNat ≤ 0xDF → ¬ IsTail b)
    (h₃ : ∀ b c rest, s = b :: c :: rest → 0xE0 ≤ a.toNat ∧ a.toNat ≤ 0xEF → IsSecond a b → ¬ IsTail c)
    (h₄ : ∀ b c d rest, s = b :: c :: d :: rest → 0xF0 ≤ a.toNat ∧ a.toNat ≤ 0xF4 → IsSecond a b →
    IsTail c → ¬ IsTail d) : StartsBad (a :: s) := by
  refine ⟨List.cons_ne_nil _ _, ?_⟩
  intro n hs
  have hsplit := (List.take_append_drop n (a :: s)).symm
  generalize (a :: s).take n = q at hs hsplit
  generalize (a :: s).drop n = rest at hsplit
  rcases hs.cases with ⟨x, rfl, hx⟩ | ⟨x, b, rfl, hx, hb⟩ | ⟨x, b, c, rfl, hx, hb, hc⟩ |
    ⟨x, b, c, d, rfl, hx, hb, hc, hd⟩ <;>
  obtain ⟨rfl, hrest⟩ := List.cons.inj hsplit
  · exact h₁ hx
  · exact h₂ b rest hrest hx hb
  · exact h₃ b c rest hrest hx hb hc
  · exact h₄ b c d rest hrest hx hb hc hd

def FirstBad (s : Bytes) (k : Nat) : Prop := WellFormed (s.take k) ∧ StartsBad (s.drop k)

theorem FirstBad.le_of_wellFormed {k n : Nat} (h : FirstBad s k) (hn : WellFormed (s.take n))
    (hle : n ≤ s.length) : n ≤ k := by
  by_contra hlt
  have hsplit : s.take n = s.take k ++ (s.drop k).take (n - k) := by
    have hn' : n = k + (n - k) := by omega
    conv_lhs => rw [hn', List.take_add]
  have hrest := h.1.of_append (hsplit ▸ hn)
  have hnil := h.2.not_wellFormed _ hrest
  have := congrArg List.length hnil
  simp only [List.length_take, List.length_drop, List.length_nil] at this
  omega

theorem FirstBad.not_wellFormed {k : Nat} (h : FirstBad s k) : ¬ WellFormed s := by
  intro hw
  have hle := h.le_of_wellFormed (n := s.length) (by rwa [List.take_length]) (Nat.le_refl _)
  exact h.2.1 (List.drop_eq_nil_of_le hle)

/-! ## スカラー値 -/

def IsScalar (n : Nat) : Prop := n < 0xD800 ∨ (0xE000 ≤ n ∧ n < 0x110000)

instance (n : Nat) : Decidable (IsScalar n) := inferInstanceAs (Decidable (_ ∨ _))

def encode (n : Nat) : Bytes :=
  if n < 0x80 then [UInt8.ofNat n]
  else if n < 0x800 then [UInt8.ofNat (0xC0 + n / 64), UInt8.ofNat (0x80 + n % 64)]
  else if n < 0x10000 then [UInt8.ofNat (0xE0 + n / 4096), UInt8.ofNat (0x80 + n / 64 % 64), UInt8.ofNat (0x80 + n % 64)]
  else
    [UInt8.ofNat (0xF0 + n / 262144), UInt8.ofNat (0x80 + n / 4096 % 64),
      UInt8.ofNat (0x80 + n / 64 % 64), UInt8.ofNat (0x80 + n % 64)]

theorem toNat_ofNat {n : Nat} (h : n < 256) : (UInt8.ofNat n).toNat = n := by
  rw [UInt8.toNat_ofNat', Nat.mod_eq_of_lt h]

theorem isTail_ofNat {n : Nat} (h : n < 64) : IsTail (UInt8.ofNat (0x80 + n)) := by
  unfold IsTail
  rw [toNat_ofNat (by omega)]
  omega

theorem isSequence_encode {n : Nat} (h : IsScalar n) : IsSequence (encode n) := by
  unfold IsScalar at h
  unfold encode
  split_ifs with h₁ h₂ h₃
  · rw [isSequence_one, toNat_ofNat (by omega)]
    omega
  · rw [isSequence_two, toNat_ofNat (by omega)]
    exact ⟨by omega, isTail_ofNat (by omega)⟩
  · rw [isSequence_three]
    refine ⟨?_, ?_, isTail_ofNat (by omega)⟩
    · rw [toNat_ofNat (by omega)]
      omega
    · unfold IsSecond
      rw [toNat_ofNat (by omega), toNat_ofNat (by omega)]
      split_ifs <;> omega
  · rw [isSequence_four]
    refine ⟨?_, ?_, isTail_ofNat (by omega), isTail_ofNat (by omega)⟩
    · rw [toNat_ofNat (by omega)]
      omega
    · unfold IsSecond
      rw [toNat_ofNat (by omega), toNat_ofNat (by omega)]
      split_ifs <;> omega

def decode : Bytes → Nat
  | [a] => a.toNat
  | [a, b] => a.toNat % 32 * 64 + b.toNat % 64
  | [a, b, c] => (a.toNat % 16 * 64 + b.toNat % 64) * 64 + c.toNat % 64
  | [a, b, c, d] => ((a.toNat % 8 * 64 + b.toNat % 64) * 64 + c.toNat % 64) * 64 + d.toNat % 64
  | _ => 0

theorem ofNat_eq_self {n : Nat} (h : n = a.toNat) : UInt8.ofNat n = a := by
  rw [h, UInt8.ofNat_toNat]

theorem IsSequence.decode_spec (h : IsSequence s) : IsScalar (decode s) ∧ encode (decode s) = s := by
  unfold IsScalar
  rcases h.cases with ⟨a, rfl, ha⟩ | ⟨a, b, rfl, ha, hb⟩ | ⟨a, b, c, rfl, ha, hb, hc⟩ | ⟨a, b, c, d, rfl, ha, hb, hc, hd⟩
  · simp only [decode]
    refine ⟨by omega, ?_⟩
    rw [encode, if_pos (by omega), UInt8.ofNat_toNat]
  · unfold IsTail at hb
    simp only [decode]
    refine ⟨by omega, ?_⟩
    rw [encode, if_neg (by omega), if_pos (by omega), ofNat_eq_self (a := a) (by omega), ofNat_eq_self (a := b) (by omega)]
  · unfold IsTail at hc
    have hb' : (0x80 ≤ b.toNat ∧ b.toNat ≤ 0xBF) ∧ (a.toNat = 0xE0 → 0xA0 ≤ b.toNat) ∧
        (a.toNat = 0xED → b.toNat ≤ 0x9F) := by
      unfold IsSecond at hb
      split_ifs at hb <;> omega
    simp only [decode]
    refine ⟨by omega, ?_⟩
    rw [encode, if_neg (by omega), if_neg (by omega), if_pos (by omega), ofNat_eq_self (a := a) (by omega),
      ofNat_eq_self (a := b) (by omega), ofNat_eq_self (a := c) (by omega)]
  · unfold IsTail at hc hd
    have hb' : (0x80 ≤ b.toNat ∧ b.toNat ≤ 0xBF) ∧ (a.toNat = 0xF0 → 0x90 ≤ b.toNat) ∧
        (a.toNat = 0xF4 → b.toNat ≤ 0x8F) := by
      unfold IsSecond at hb
      split_ifs at hb <;> omega
    simp only [decode]
    refine ⟨by omega, ?_⟩
    rw [encode, if_neg (by omega), if_neg (by omega), if_neg (by omega), ofNat_eq_self (a := a) (by omega),
      ofNat_eq_self (a := b) (by omega), ofNat_eq_self (a := c) (by omega), ofNat_eq_self (a := d) (by omega)]

theorem decode_encode {n : Nat} (h : n < 0x110000) : decode (encode n) = n := by
  unfold encode
  split_ifs with h₁ h₂ h₃ <;> simp only [decode]
  · rw [toNat_ofNat (by omega)]
  · rw [toNat_ofNat (by omega), toNat_ofNat (by omega)]
    omega
  · rw [toNat_ofNat (by omega), toNat_ofNat (by omega), toNat_ofNat (by omega)]
    omega
  · rw [toNat_ofNat (by omega), toNat_ofNat (by omega), toNat_ofNat (by omega), toNat_ofNat (by omega)]
    omega

theorem IsScalar.lt {n : Nat} (h : IsScalar n) : n < 0x110000 := by
  unfold IsScalar at h
  omega

theorem WellFormed.exists_scalars (h : WellFormed s) : ∃ cs : List Nat, (∀ c ∈ cs, IsScalar c) ∧ s = cs.flatMap encode := by
  induction h with
  | nil => exact ⟨[], by simp, rfl⟩
  | @cons q rest hq _ ih =>
      obtain ⟨cs, hcs, rfl⟩ := ih
      obtain ⟨hd, he⟩ := hq.decode_spec
      refine ⟨decode q :: cs, ?_, by rw [List.flatMap_cons, he]⟩
      intro c hc
      rcases List.mem_cons.mp hc with rfl | hc
      · exact hd
      · exact hcs c hc

end Lib.Utf8
