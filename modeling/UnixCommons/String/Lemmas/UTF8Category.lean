import UnixCommons.String.UTF8Category
import UnixCommons.String.Lemmas.UTF8Handler
import UnixCommons.Generics.Lemmas.CompressedSet
import Mathlib.Data.Nat.Bitwise

/-!
# UTF-8 の文字の集合の補題

文字のバイトを上位から詰めた値の順は、文字の値の順である。
-/

namespace UnixCommons.String.UTF8Category

open Lib Lib.Utf8 Generics.CompressedSet UTF8Handler

variable {wide : Nat → Nat → Nat} {a b : UInt8} {s t rest tail : Bytes} {pre d n : Nat}

/-! ## 詰めた値 -/

def pack (pre : Nat) (tail : Bytes) : Nat := tail.foldl (fun p b => p * 256 + b.toNat) pre

structure Fits (pre n : Nat) : Prop where
  pos : 0 < pre
  le : (pre + 1) * 256 ^ n ≤ 2 ^ 32

theorem pack_cons : pack pre (b :: tail) = pack (pre * 256 + b.toNat) tail := rfl

theorem pack_bounds (pre : Nat) (tail : Bytes) :
    pre * 256 ^ tail.length ≤ pack pre tail ∧ pack pre tail < (pre + 1) * 256 ^ tail.length := by
  induction tail generalizing pre with
  | nil => exact ⟨by simp [pack], by simp [pack]⟩
  | cons b tail ih =>
      have hb := b.toNat_lt
      obtain ⟨h₁, h₂⟩ := ih (pre * 256 + b.toNat)
      have hlow : pre * 256 * 256 ^ tail.length ≤ (pre * 256 + b.toNat) * 256 ^ tail.length :=
        Nat.mul_le_mul_right _ (by omega)
      have hhigh : (pre * 256 + b.toNat + 1) * 256 ^ tail.length ≤ ((pre + 1) * 256) * 256 ^ tail.length :=
        Nat.mul_le_mul_right _ (by omega)
      rw [pack_cons, List.length_cons, Nat.pow_succ', ← Nat.mul_assoc, ← Nat.mul_assoc]
      exact ⟨Nat.le_trans hlow h₁, Nat.lt_of_lt_of_le h₂ hhigh⟩

theorem Fits.le_three (h : Fits pre n) : n ≤ 3 := by
  by_contra hn
  have h₁ : 256 ^ 4 ≤ 256 ^ n := Nat.pow_le_pow_right (by decide) (by omega)
  have h₂ : 2 * 256 ^ 4 ≤ (pre + 1) * 256 ^ n := Nat.mul_le_mul (by have := h.pos; omega) h₁
  have h₃ : 2 * 256 ^ 4 ≤ 2 ^ 32 := Nat.le_trans h₂ h.le
  exact absurd h₃ (by decide)

theorem Fits.extend (h : Fits pre (n + 1)) {x : Nat} (hx : x < 256) : Fits (pre * 256 + x) n := by
  refine ⟨by have := h.pos; omega, Nat.le_trans ?_ h.le⟩
  rw [Nat.pow_succ', ← Nat.mul_assoc]
  exact Nat.mul_le_mul_right _ (by omega)

theorem Fits.lt (h : Fits pre (n + 1)) : pre * 256 + 255 < 2 ^ 32 := by
  have h₁ : 256 ≤ 256 ^ (n + 1) := Nat.le_self_pow (Nat.succ_ne_zero n) 256
  have h₂ : (pre + 1) * 256 ≤ (pre + 1) * 256 ^ (n + 1) := Nat.mul_le_mul_left _ h₁
  have := h.le
  omega

theorem shiftLeft_or_octet (h : pre * 256 < 2 ^ 32) (b : UInt8) :
    (pre <<< 8) % 2 ^ 32 ||| b.toNat = pre * 256 + b.toNat := by
  have hb : b.toNat < 2 ^ 8 := b.toNat_lt
  have hs : pre <<< 8 = pre * 256 := Nat.shiftLeft_eq _ _
  rw [hs, Nat.mod_eq_of_lt h, ← hs, ← Nat.shiftLeft_add_eq_or_of_lt hb]

theorem getCharLoop_eq (h : (pre + 1) * 256 ^ s.length ≤ 2 ^ 32) : getCharLoop s.length
    (s ++ rest) pre = .ok (pack pre s) := by
  induction s generalizing pre with
  | nil => rfl
  | cons b s ih =>
      have hb := b.toNat_lt
      have hpow : 1 ≤ 256 ^ s.length := Nat.one_le_pow _ _ (by decide)
      rw [List.length_cons, Nat.pow_succ', ← Nat.mul_assoc] at h
      have hle : (pre + 1) * 256 ≤ 2 ^ 32 := Nat.le_trans (Nat.le_mul_of_pos_right _ hpow) h
      have hnext : (pre * 256 + b.toNat + 1) * 256 ^ s.length ≤ 2 ^ 32 :=
        Nat.le_trans (Nat.mul_le_mul_right _ (by omega)) h
      rw [List.length_cons, getCharLoop]
      simp only [List.cons_append, octetAt, pure, Except.pure, ok_bind, List.tail_cons]
      rw [shiftLeft_or_octet (by omega) b, ih hnext, pack_cons]

/-! ## 文字 -/

def Symbol.codePoint (c : Symbol) : Nat := decode c.octets

def Symbol.char (c : Symbol) : Nat := pack 0 c.octets

def IsTails (tail : Bytes) : Prop := ∀ b ∈ tail, IsTail b

theorem isTail_of_isSecond (h : IsSecond a b) : IsTail b := by
  unfold IsSecond at h
  unfold IsTail
  split_ifs at h <;> omega

theorem Symbol.cases (c : Symbol) :
    ∃ (a : UInt8) (tail : Bytes), c.octets = a :: tail ∧ getOctetCount a.toNat = tail.length + 1 ∧
      tail.length ≤ 3 ∧ IsTails tail ∧ a.toNat &&& 0xC0 ≠ 0x80 ∧ (a = 0 → tail = []) := by
  obtain ⟨s, hs⟩ := c
  cases s with
  | nil => exact absurd hs isSequence_nil
  | cons a tail =>
      have hlead := lead_of_isSequence hs
      have hcount : getOctetCount a.toNat = tail.length + 1 := by
        rw [getOctetCount_eq hlead, ← hs.length_eq, List.length_cons]
      have hmask : a.toNat &&& 0xC0 ≠ 0x80 := by
        rw [Ne, isTail_iff]
        unfold IsTail
        omega
      refine ⟨a, tail, rfl, hcount, ?_, ?_, hmask, ?_⟩
      · rcases hs.cases with ⟨_, he, -⟩ | ⟨_, _, he, -⟩ | ⟨_, _, _, he, -⟩ | ⟨_, _, _, _, he, -⟩ <;> cases he <;> simp
      · rcases hs.cases with ⟨_, he, -⟩ | ⟨_, _, he, -, hb⟩ | ⟨_, _, _, he, -, hb, hc⟩ |
          ⟨_, _, _, _, he, -, hb, hc, hd⟩ <;> cases he
        · simp [IsTails]
        · simp [IsTails, hb]
        · simp [IsTails, isTail_of_isSecond hb, hc]
        · simp [IsTails, isTail_of_isSecond hb, hc, hd]
      · rintro rfl
        have : tail.length + 1 = 1 := by rw [← hcount]; decide
        exact List.eq_nil_of_length_eq_zero (by omega)

theorem getChar_symbol (c : Symbol) (rest : Bytes) : getChar (c.octets ++ rest) = .ok (c.char, c.octets.length) := by
  obtain ⟨a, tail, hc, hcount, hlen, -⟩ := c.cases
  have hpow : 256 ^ (tail.length + 1) ≤ 256 ^ 4 := Nat.pow_le_pow_right (by decide) (by omega)
  have hloop : getCharLoop (tail.length + 1) (a :: tail ++ rest) 0 = .ok (pack 0 (a :: tail)) :=
    getCharLoop_eq (s := a :: tail) (by rw [List.length_cons, Nat.zero_add, Nat.one_mul]; exact hpow)
  unfold getChar Symbol.char
  rw [hc, List.length_cons]
  simp only [List.cons_append, octetAt, pure, Except.pure, ok_bind] at hloop ⊢
  rw [hcount, if_neg (by omega), hloop, ok_bind]

theorem Symbol.char_lt (c : Symbol) : c.char < 2 ^ 32 := by
  obtain ⟨a, tail, hc, -, hlen, -⟩ := c.cases
  have hpow : 256 ^ (a :: tail).length ≤ 256 ^ 4 := Nat.pow_le_pow_right (by decide) (by rw [List.length_cons]; omega)
  have hb := (pack_bounds 0 (a :: tail)).2
  unfold Symbol.char
  rw [hc]
  rw [Nat.zero_add, Nat.one_mul] at hb
  exact Nat.lt_of_lt_of_le hb hpow

/-! ## 詰めた値の順 -/

/-- `x` と `y` の順は、`x'` と `y'` の順である。 -/
def SameOrder (x y x' y' : Nat) : Prop := (x < y ↔ x' < y') ∧ (x = y ↔ x' = y')

theorem SameOrder.le_iff {x y x' y' : Nat} (h : SameOrder x y x' y') : x ≤ y ↔ x' ≤ y' := by
  rw [Nat.le_iff_lt_or_eq, Nat.le_iff_lt_or_eq, h.1, h.2]

theorem SameOrder.extend {x y x' y' : Nat} (h : SameOrder x y x' y') (ha : IsTail a) (hb : IsTail b) :
    SameOrder (x * 256 + a.toNat) (y * 256 + b.toNat) (x' * 64 + a.toNat % 64) (y' * 64 + b.toNat % 64) := by
  unfold IsTail at ha hb
  obtain ⟨hlt, heq⟩ := h
  refine ⟨?_, ?_⟩ <;> omega

theorem Symbol.class (c : Symbol) :
    (∃ a, c.octets = [a] ∧ c.char < 0x80 ∧ c.codePoint < 0x80) ∨
      (∃ a b, c.octets = [a, b] ∧ (0xC2 ≤ a.toNat ∧ a.toNat ≤ 0xDF) ∧ IsTail b ∧ (0x80 ≤ c.char ∧ c.char < 0x10000) ∧
        0x80 ≤ c.codePoint ∧ c.codePoint < 0x800) ∨
      (∃ a b d, c.octets = [a, b, d] ∧ (0xE0 ≤ a.toNat ∧ a.toNat ≤ 0xEF) ∧ IsTail b ∧ IsTail d ∧
        (0x10000 ≤ c.char ∧ c.char < 0x1000000) ∧ 0x800 ≤ c.codePoint ∧ c.codePoint < 0x10000) ∨
      ∃ a b d e, c.octets = [a, b, d, e] ∧ (0xF0 ≤ a.toNat ∧ a.toNat ≤ 0xF4) ∧ IsTail b ∧ IsTail d ∧ IsTail e ∧
        0x1000000 ≤ c.char ∧ 0x10000 ≤ c.codePoint := by
  obtain ⟨s, hs⟩ := c
  unfold Symbol.char Symbol.codePoint
  rcases hs.cases with ⟨a, rfl, ha⟩ | ⟨a, b, rfl, ha, hb⟩ | ⟨a, b, d, rfl, ha, hb, hd⟩ | ⟨a, b, d, e, rfl, ha, hb, hd, he⟩
  · refine .inl ⟨a, rfl, ?_, ?_⟩
    · simp only [pack, List.foldl]
      omega
    · simp only [decode]
      omega
  · refine .inr (.inl ⟨a, b, rfl, ha, hb, ?_⟩)
    unfold IsTail at hb
    simp only [pack, List.foldl, decode]
    omega
  · have hb' := isTail_of_isSecond hb
    refine .inr (.inr (.inl ⟨a, b, d, rfl, ha, hb', hd, ?_⟩))
    unfold IsTail at hb' hd
    unfold IsSecond at hb
    simp only [pack, List.foldl, decode]
    split_ifs at hb <;> omega
  · have hb' := isTail_of_isSecond hb
    refine .inr (.inr (.inr ⟨a, b, d, e, rfl, ha, hb', hd, he, ?_⟩))
    unfold IsTail at hb' hd he
    unfold IsSecond at hb
    simp only [pack, List.foldl, decode]
    split_ifs at hb <;> omega

theorem Symbol.sameOrder (c d : Symbol) : SameOrder c.char d.char c.codePoint d.codePoint := by
  rcases c.class with ⟨a, hc, hc₁, hc₂⟩ | ⟨a, b, hc, ha, hb, hc₁, hc₂⟩ |
    ⟨a, b, x, hc, ha, hb, hx, hc₁, hc₂⟩ | ⟨a, b, x, y, hc, ha, hb, hx, hy, hc₁, hc₂⟩ <;>
  rcases d.class with ⟨a', hd, hd₁, hd₂⟩ | ⟨a', b', hd, ha', hb', hd₁, hd₂⟩ | ⟨a', b', x', hd, ha', hb', hx', hd₁, hd₂⟩ |
    ⟨a', b', x', y', hd, ha', hb', hx', hy', hd₁, hd₂⟩ <;>
  -- 長さが異なれば、範囲が重ならない。
  first
  | exact ⟨by omega, by omega⟩
  | unfold Symbol.char Symbol.codePoint
    rw [hc, hd]
    simp only [pack, List.foldl, decode]
  · exact ⟨by omega, by omega⟩
  · refine SameOrder.extend ?_ hb hb'
    exact ⟨by omega, by omega⟩
  · refine SameOrder.extend (SameOrder.extend ?_ hb hb') hx hx'
    exact ⟨by omega, by omega⟩
  · refine SameOrder.extend (SameOrder.extend (SameOrder.extend ?_ hb hb') hx hx') hy hy'
    exact ⟨by omega, by omega⟩

/-! ## 区間の検査 -/

theorem lengthen_eq (h : Fits pre (n + 1)) : lengthen pre = pre * 256 + 0x80 := by
  have hlt := h.lt
  have h₁ : pre * 256 % 2 ^ 32 = pre * 256 := Nat.mod_eq_of_lt (Nat.lt_of_add_right_lt hlt)
  have h₂ : (pre * 256 + 0x80) % 2 ^ 32 = pre * 256 + 0x80 :=
    Nat.mod_eq_of_lt (Nat.lt_trans (Nat.add_lt_add_left (by decide) _) hlt)
  rw [lengthen, Nat.shiftLeft_eq, h₁, h₂]

theorem sixtyFour_eq (h : Fits pre (n + 1)) : sixtyFour (lengthen pre) = List.range' (pre * 256 + 0x80) 64 := by
  have hlt := h.lt
  have hcount : (pre * 256 + 0x80 + 64) % 2 ^ 32 - (pre * 256 + 0x80) = 64 := by omega
  rw [sixtyFour, lengthen_eq h, hcount]

theorem mem_sixtyFour (h : Fits pre (n + 1)) (hb : IsTail b) : pre * 256 + b.toNat ∈ sixtyFour (lengthen pre) := by
  unfold IsTail at hb
  rw [sixtyFour_eq h, List.mem_range'_1]
  omega

theorem shiftLeft_eq {value shift : Nat} (h : shift < 32) : shiftLeft wide value shift = value * 2 ^ shift % 2 ^ 32 := by
  rw [shiftLeft, if_pos h, Nat.shiftLeft_eq]

theorem shiftLeft_bounds (h : Fits pre (d + 2)) (wide : Nat → Nat → Nat) :
    shiftLeft wide pre ((d + 2) * 8) = pre * 256 ^ (d + 2) ∧
      (shiftLeft wide ((pre + 1) % 2 ^ 32) ((d + 2) * 8) + (2 ^ 32 - 1)) % 2 ^ 32 = (pre + 1) * 256 ^ (d + 2) - 1 := by
  have hd := h.le_three
  have hlt := h.lt
  have hle := h.le
  have hpow : 2 ^ ((d + 2) * 8) = 256 ^ (d + 2) := by
    rw [Nat.mul_comm, Nat.pow_mul]
  have hpos : 0 < 256 ^ (d + 2) := Nat.pow_pos (by decide)
  have hsucc : (pre + 1) * 256 ^ (d + 2) = pre * 256 ^ (d + 2) + 256 ^ (d + 2) := Nat.succ_mul _ _
  rw [shiftLeft_eq (by omega), shiftLeft_eq (by omega), hpow, Nat.mod_eq_of_lt (a := pre + 1) (by omega)]
  generalize pre * 256 ^ (d + 2) = low at *
  generalize (pre + 1) * 256 ^ (d + 2) = high at *
  omega

theorem statusLoop_ne_all (check : Nat → CheckStatus) (l : List Nat) : statusLoop check l false true ≠ .all := by
  induction l with
  | nil => simp [statusLoop]
  | cons pre l ih =>
      rw [statusLoop]
      cases check pre with
      | none => simpa using ih
      | all => simp
      | some => simp

theorem statusLoop_all {check : Nat → CheckStatus} {l : List Nat} {isAll isNone : Bool}
    (h : statusLoop check l isAll isNone = .all) : ∀ p ∈ l, check p = .all := by
  induction l generalizing isAll isNone with
  | nil => simp
  | cons pre l ih =>
      rw [statusLoop] at h
      cases hc : check pre with
      | none =>
          rw [hc] at h
          cases isNone with
          | false => simp at h
          | true => exact absurd h (statusLoop_ne_all check l)
      | some =>
          rw [hc] at h
          cases h
      | all =>
          rw [hc] at h
          cases isAll with
          | false => simp at h
          | true =>
              intro p hp
              rcases List.mem_cons.mp hp with rfl | hp
              · exact hc
              · exact ih h p hp

theorem statusLoop_none {check : Nat → CheckStatus} {l : List Nat} {isAll isNone : Bool}
    (h : statusLoop check l isAll isNone = .none) : isNone = true ∧ ∀ p ∈ l, check p = .none := by
  induction l generalizing isAll isNone with
  | nil =>
      cases isNone with
      | false => simp [statusLoop] at h
      | true => simp
  | cons pre l ih =>
      rw [statusLoop] at h
      cases hc : check pre with
      | none =>
          rw [hc] at h
          cases isNone with
          | false => simp at h
          | true =>
              refine ⟨rfl, ?_⟩
              intro p hp
              rcases List.mem_cons.mp hp with rfl | hp
              · exact hc
              · exact (ih h).2 p hp
      | some =>
          rw [hc] at h
          cases h
      | all =>
          rw [hc] at h
          cases isAll with
          | false => simp at h
          | true => exact absurd (ih h).1 (by decide)

def Uniform (S : Set Int) (d pre : Nat) : CheckStatus → Prop
  | .none => ∀ tail, tail.length = d + 1 → IsTails tail → (pack pre tail : Int) ∉ S
  | .all => ∀ tail, tail.length = d + 1 → IsTails tail → (pack pre tail : Int) ∈ S
  | .some => True

theorem Uniform.of_presence {S : Set Int} {low high : Int} {status : CheckStatus}
    (h : Presence S low high status) (hin : ∀ tail, tail.length = d + 1 → IsTails tail →
    low ≤ (pack pre tail : Int) ∧ (pack pre tail : Int) ≤ high) : Uniform S d pre status := by
  cases status with
  | none => exact fun tail hlen ht => h _ (hin tail hlen ht).1 (hin tail hlen ht).2
  | all => exact fun tail hlen ht => h _ (hin tail hlen ht).1 (hin tail hlen ht).2
  | some => trivial

theorem Uniform.of_statusLoop {S : Set Int} {check : Nat → CheckStatus} (h : Fits pre (d + 2))
    (hcheck : ∀ x < 256, Uniform S d (pre * 256 + x) (check (pre * 256 + x))) :
    Uniform S (d + 1) pre (statusLoop check (sixtyFour (lengthen pre)) true true) := by
  have hmem : ∀ {b : UInt8}, IsTail b → pre * 256 + b.toNat ∈ sixtyFour (lengthen pre) := mem_sixtyFour (n := d + 1) h
  cases hs : statusLoop check (sixtyFour (lengthen pre)) true true with
  | none =>
      intro tail hlen ht
      match tail, hlen with
      | b :: tail, hlen =>
          have hb := hcheck b.toNat b.toNat_lt
          rw [(statusLoop_none hs).2 _ (hmem (ht b List.mem_cons_self))] at hb
          exact hb tail (by simpa using hlen) fun x hx => ht x (List.mem_cons_of_mem _ hx)
  | all =>
      intro tail hlen ht
      match tail, hlen with
      | b :: tail, hlen =>
          have hb := hcheck b.toNat b.toNat_lt
          rw [statusLoop_all hs _ (hmem (ht b List.mem_cons_self))] at hb
          exact hb tail (by simpa using hlen) fun x hx => ht x (List.mem_cons_of_mem _ hx)
  | some => trivial

theorem pack_last (h : Fits pre 1) (hlen : tail.length = 1) (ht : IsTails tail) :
    lengthen pre ≤ pack pre tail ∧ pack pre tail ≤ (lengthen pre + 63) % 2 ^ 32 := by
  have hlt := Fits.lt (n := 0) h
  match tail, hlen with
  | [b], _ =>
      have hb : IsTail b := ht b List.mem_cons_self
      unfold IsTail at hb
      rw [lengthen_eq (n := 0) h]
      simp only [pack, List.foldl]
      omega

theorem checkPresence_last {chars : State} (hinv : HolderInv utf8Char chars.holder) (h : Fits pre 1) :
    Uniform (denoted chars.holder) 0 pre (chars.checkPresence (lengthen pre) ((lengthen pre + 63) % 2 ^ 32 : Nat)) := by
  have hlt := Fits.lt (n := 0) h
  have hle : (lengthen pre : Int) ≤ ((lengthen pre + 63) % 2 ^ 32 : Nat) := by
    rw [lengthen_eq (n := 0) h]
    omega
  refine Uniform.of_presence (State.checkPresence_spec hinv hle) ?_
  intro tail hlen ht
  obtain ⟨h₁, h₂⟩ := pack_last h hlen ht
  exact ⟨Int.ofNat_le.mpr h₁, Int.ofNat_le.mpr h₂⟩

theorem checkInterval_spec {chars : State} (hinv : HolderInv utf8Char chars.holder) (h : Fits pre (d + 1)) :
    Uniform (denoted chars.holder) d pre (checkInterval wide chars d pre) := by
  induction d generalizing pre with
  | zero => exact checkPresence_last hinv h
  | succ d ih =>
      obtain ⟨hlow, hhigh⟩ := shiftLeft_bounds h wide
      have hpos : 0 < 256 ^ (d + 2) := Nat.pow_pos (by decide)
      have hsucc : (pre + 1) * 256 ^ (d + 2) = pre * 256 ^ (d + 2) + 256 ^ (d + 2) := Nat.succ_mul _ _
      rw [checkInterval]
      split
      · rw [hlow, hhigh]
        refine Uniform.of_presence (State.checkPresence_spec hinv (Int.ofNat_le.mpr (by omega))) ?_
        intro tail hlen _
        obtain ⟨h₁, h₂⟩ := pack_bounds pre tail
        rw [show tail.length = d + 2 from hlen] at h₁ h₂
        exact ⟨Int.ofNat_le.mpr h₁, Int.ofNat_le.mpr (Nat.le_sub_one_of_lt h₂)⟩
      · exact Uniform.of_statusLoop h fun x hx => ih (h.extend hx)

/-! ## 木を作る -/

variable {H : Holder} {chars : State}

def Keeps (H : Holder) (chars : State) : Prop := chars.Inv utf8Char ∧ chars.holder = H

theorem belongs_spec (h : Keeps H chars) (value : Nat) :
    Spec (belongs value) chars (fun b s => Keeps H s ∧ b = decide ((value : Int) ∈ denoted H)) fun _ _ => False := by
  obtain ⟨hinv, rfl⟩ := h
  obtain ⟨s', b, hb, hinv', hholder, hmem⟩ := State.belongs_spec (value : Int) hinv
  refine Spec.bind (Spec.get ?_)
  rw [hb]
  refine Spec.bind (Spec.set (Spec.pure ⟨⟨hinv', hholder⟩, ?_⟩))
  rw [Bool.eq_iff_iff, hmem, decide_eq_true_iff]

theorem leafLoop_spec (h : Keeps H chars) (l : List Nat) (flag leaf : Nat) :
    Spec (leafLoop l flag leaf) chars (fun bits s => Keeps H s ∧ ∀ k, (0 < l.length → flag = 2 ^ k) → k + l.length ≤ 64 →
      leaf < 2 ^ k → (∀ i < k, bits.testBit i = leaf.testBit i) ∧
        ∀ i (hi : i < l.length), bits.testBit (k + i) = decide ((l[i] : Int) ∈ denoted H)) fun _ _ => False := by
  induction l generalizing chars flag leaf with
  | nil => exact Spec.pure ⟨h, fun k _ _ _ => ⟨fun i _ => rfl, fun i hi => absurd hi (Nat.not_lt_zero i)⟩⟩
  | cons p l ih =>
      rw [leafLoop]
      refine Spec.bind ((belongs_spec h p).mono ?_ fun _ _ he => he)
      rintro b s₁ ⟨hs₁, rfl⟩
      refine (ih hs₁ _ _).mono ?_ fun _ _ he => he
      rintro bits s₂ ⟨hs₂, hbits⟩
      refine ⟨hs₂, ?_⟩
      intro k hflag hk hleaf
      obtain rfl := hflag (Nat.succ_pos _)
      rw [List.length_cons] at hk
      have hnext : 0 < l.length → (2 ^ k <<< 1) % 2 ^ 64 = 2 ^ (k + 1) := by
        intro hl
        rw [Nat.shiftLeft_eq, ← Nat.pow_add]
        exact Nat.mod_eq_of_lt (Nat.pow_lt_pow_right (by decide) (by omega))
      have hle : (2 : Nat) ^ k ≤ 2 ^ (k + 1) := Nat.pow_le_pow_right (by decide) (Nat.le_succ k)
      have hlt : (if decide ((p : Int) ∈ denoted H) = true then leaf ||| 2 ^ k else leaf) < 2 ^ (k + 1) := by
        split
        · exact Nat.or_lt_two_pow (Nat.lt_of_lt_of_le hleaf hle) (Nat.pow_lt_pow_right (by decide) (Nat.lt_succ_self k))
        · exact Nat.lt_of_lt_of_le hleaf hle
      have hbit : leaf.testBit k = false := Nat.testBit_lt_two_pow hleaf
      obtain ⟨hold, hnew⟩ := hbits (k + 1) hnext (by omega) hlt
      refine ⟨?_, ?_⟩
      · intro i hi
        rw [hold i (by omega)]
        split
        · rw [Nat.testBit_or, Nat.testBit_two_pow_of_ne (by omega), Bool.or_false]
        · rfl
      · intro i hi
        cases i with
        | zero =>
            rw [Nat.add_zero, hold k (Nat.lt_succ_self k), List.getElem_cons_zero]
            by_cases hp : (p : Int) ∈ denoted H
            · rw [if_pos (decide_eq_true hp), Nat.testBit_or, Nat.testBit_two_pow_self, Bool.or_true, decide_eq_true hp]
            · rw [if_neg (by simpa using hp), hbit, decide_eq_false hp]
        | succ i =>
            rw [List.getElem_cons_succ, ← hnew i (by simpa using hi)]
            congr 1
            omega

def Represents (H : Holder) (d pre : Nat) (node : Node) : Prop :=
  ∀ tail, tail.length = d + 1 → IsTails tail → ∀ rest,
    belongLoop (d + 2) node (tail ++ rest) = .ok (decide ((pack pre tail : Int) ∈ denoted H))

theorem and_octet (b : UInt8) : b.toNat &&& 0x3F = b.toNat % 64 := Nat.and_two_pow_sub_one_eq_mod b.toNat 6

theorem tail_mod (hb : IsTail b) : b.toNat % 64 = b.toNat - 0x80 ∧ b.toNat - 0x80 < 64 := by
  unfold IsTail at hb
  omega

theorem decrement_succ (h : n < 64) : decrement (n + 1) = n := by
  unfold decrement
  omega

theorem belongLoop_leaf (bits : Nat) (b : UInt8) (rest : Bytes) :
    belongLoop 2 (.leaf bits) (b :: rest) = .ok (bits.testBit (b.toNat % 64)) := by
  have hlt : 1 <<< (b.toNat % 64) % 2 ^ 64 = 2 ^ (b.toNat % 64) := by
    rw [Nat.one_shiftLeft]
    exact Nat.mod_eq_of_lt (Nat.pow_lt_pow_right (by decide) (Nat.mod_lt _ (by decide)))
  rw [belongLoop, if_pos rfl]
  simp only [and_octet, hlt, Nat.and_two_pow, pure, Except.pure]
  cases bits.testBit (b.toNat % 64) <;> simp

theorem Represents.leaf {bits : Nat}
    (h : ∀ i < 64, bits.testBit i = decide (((pre * 256 + 0x80 + i : Nat) : Int) ∈ denoted H)) :
    Represents H 0 pre (.leaf bits) := by
  intro tail hlen ht rest
  match tail, hlen with
  | [b], _ =>
      have hb : IsTail b := ht b List.mem_cons_self
      obtain ⟨hmod, hlt⟩ := tail_mod hb
      have hval : pre * 256 + 0x80 + (b.toNat - 0x80) = pack pre [b] := by
        unfold IsTail at hb
        simp only [pack, List.foldl]
        omega
      rw [List.singleton_append, belongLoop_leaf, hmod, h _ hlt, hval]

theorem initLeaf_spec (h : Keeps H chars) (pre : Nat) :
    Spec (initLeaf pre) chars (fun node s => Keeps H s ∧ (Fits pre 1 → Represents H 0 pre node)) fun _ _ => False := by
  have hstatus : Fits pre 1 → Uniform (denoted H) 0 pre
      (chars.checkPresence (lengthen pre) ((lengthen pre + 63) % 2 ^ 32 : Nat)) := by
    intro hf
    rw [← h.2]
    exact checkPresence_last h.1.holder hf
  refine Spec.bind (Spec.get ?_)
  cases hs : chars.checkPresence (lengthen pre) ((lengthen pre + 63) % 2 ^ 32 : Nat) with
  | none =>
      refine Spec.pure ⟨h, ?_⟩
      intro hf tail hlen ht rest
      rw [hs] at hstatus
      match tail, hlen with
      | [b], hlen =>
          rw [List.singleton_append, belongLoop_leaf, Nat.zero_testBit, decide_eq_false (hstatus hf [b] hlen ht)]
  | all =>
      refine Spec.pure ⟨h, ?_⟩
      intro hf tail hlen ht rest
      rw [hs] at hstatus
      match tail, hlen with
      | [b], hlen =>
          have hbit : allBits.testBit (b.toNat % 64) = true := by
            rw [allBits, Nat.testBit_two_pow_sub_one]
            exact decide_eq_true (Nat.mod_lt _ (by decide))
          rw [List.singleton_append, belongLoop_leaf, hbit, decide_eq_true (hstatus hf [b] hlen ht)]
  | some =>
      refine Spec.bind ((leafLoop_spec h _ 1 0).mono ?_ fun _ _ he => he)
      rintro bits s₁ ⟨hs₁, hbits⟩
      refine Spec.pure ⟨hs₁, ?_⟩
      intro hf
      rw [sixtyFour_eq (n := 0) hf] at hbits
      obtain ⟨-, hnew⟩ := hbits 0 (fun _ => rfl) (by rw [List.length_range']) (by decide)
      refine Represents.leaf fun i hi => ?_
      have := hnew i (by rwa [List.length_range'])
      rwa [Nat.zero_add, List.getElem_range', Nat.one_mul] at this

theorem belongLoop_middle {nodes : List Node} {node : Node} (hn : n + 1 < 64) (hne : n + 2 ≠ 2)
    (hget : nodes[b.toNat % 64]? = some node) :
    belongLoop (n + 2) (.middle nodes) (b :: rest) = belongLoop (n + 1) node rest := by
  rw [belongLoop, if_neg hne]
  simp only [and_octet, hget, decrement_succ hn]

theorem Represents.middle {nodes : List Node} (hf : Fits pre (d + 2))
    (h : List.Forall₂ (fun p node => Fits p (d + 1) → Represents H d p node)
    (sixtyFour (lengthen pre)) nodes) : Represents H (d + 1) pre (.middle nodes) := by
  intro tail hlen ht rest
  rw [sixtyFour_eq (n := d + 1) hf] at h
  match tail, hlen with
  | b :: tail, hlen =>
      have hb : IsTail b := ht b List.mem_cons_self
      obtain ⟨hmod, hlt⟩ := tail_mod hb
      have hl : nodes.length = 64 := by rw [← h.length_eq, List.length_range']
      have hget := h.get (i := b.toNat - 0x80) (by rwa [List.length_range']) (by omega)
      simp only [List.get_eq_getElem, List.getElem_range', Nat.one_mul] at hget
      have hval : pre * 256 + 0x80 + (b.toNat - 0x80) = pre * 256 + b.toNat := by
        unfold IsTail at hb
        omega
      have hnode : nodes[b.toNat % 64]? = some (nodes.get ⟨b.toNat - 0x80, by omega⟩) := by
        rw [hmod, List.getElem?_eq_getElem (by omega), List.get_eq_getElem]
      have hd := hf.le_three
      rw [hval] at hget
      rw [List.cons_append, belongLoop_middle (n := d + 1) (by omega) (by omega) hnode]
      exact hget (hf.extend b.toNat_lt) tail (by simpa using hlen) (fun x hx => ht x (List.mem_cons_of_mem _ hx)) rest

theorem Represents.null (h : Uniform (denoted H) (d + 1) pre .none) : Represents H (d + 1) pre .null := by
  intro tail hlen ht rest
  rw [belongLoop, if_neg (by omega), decide_eq_false (h tail hlen ht)]
  rfl

theorem Represents.stop (h : Uniform (denoted H) (d + 1) pre .all) : Represents H (d + 1) pre .stop := by
  intro tail hlen ht rest
  rw [belongLoop, if_neg (by omega), decide_eq_true (h tail hlen ht)]
  rfl

theorem initMiddle_spec {status : State → CheckStatus} {sub : Nat → Scan Node} (h : Keeps H chars)
    (hstatus : Fits pre (d + 2) → Uniform (denoted H) (d + 1) pre (status chars))
    (hsub : ∀ p s, Keeps H s → Spec (sub p) s (fun node s => Keeps H s ∧
    (Fits p (d + 1) → Represents H d p node)) fun _ _ => False) :
    Spec (initMiddle status sub pre) chars (fun node s => Keeps H s ∧ (Fits pre (d + 2) → Represents H (d + 1) pre node))
      fun _ _ => False := by
  refine Spec.bind (Spec.get ?_)
  cases hs : status chars with
  | none =>
      rw [hs] at hstatus
      exact Spec.pure ⟨h, fun hf => Represents.null (hstatus hf)⟩
  | all =>
      rw [hs] at hstatus
      exact Spec.pure ⟨h, fun hf => Represents.stop (hstatus hf)⟩
  | some =>
      refine Spec.bind ((Spec.mapM h fun p _ s hs => hsub p s hs).mono ?_ fun _ _ he => he)
      rintro nodes s₁ ⟨hs₁, hnodes⟩
      exact Spec.pure ⟨hs₁, fun hf => Represents.middle hf hnodes⟩

theorem initInterval_spec (h : Keeps H chars) (wide : Nat → Nat → Nat) (d pre : Nat) :
    Spec (initInterval wide d pre) chars (fun node s => Keeps H s ∧
      (Fits pre (d + 1) → Represents H d pre node)) fun _ _ => False := by
  induction d generalizing pre chars with
  | zero => exact initLeaf_spec h pre
  | succ d ih =>
      rw [initInterval]
      refine initMiddle_spec h ?_ fun p s hs => ih hs p
      intro hf
      rw [← h.2]
      exact checkInterval_spec h.1.holder hf

def Rooted (H : Holder) (i : Nat) (node : Node) : Prop :=
  ∀ tail, getOctetCount i = tail.length + 1 → tail.length ≤ 3 → IsTails tail → ∀ rest,
    belongLoop (getOctetCount i) node (tail ++ rest) = .ok (decide ((pack i tail : Int) ∈ denoted H))

theorem initNode_spec (h : Keeps H chars) (wide : Nat → Nat → Nat) {i : Nat} (hi : i < 256) :
    Spec (initNode wide i) chars (fun node s => Keeps H s ∧ Rooted H i node) fun _ _ => False := by
  unfold initNode
  split
  next hc =>
      refine Spec.pure ⟨h, ?_⟩
      intro tail hcount
      rw [hc] at hcount
      cases hcount
  next hc =>
      refine Spec.bind ((belongs_spec h i).mono ?_ fun _ _ he => he)
      rintro b s ⟨hs, rfl⟩
      refine Spec.pure ⟨hs, ?_⟩
      intro tail hcount _ _ rest
      rw [hc] at hcount ⊢
      obtain rfl : tail = [] := List.eq_nil_of_length_eq_zero (by omega)
      have hpack : pack i [] = i := rfl
      rw [hpack]
      by_cases hm : (i : Int) ∈ denoted H
      · rw [if_pos (decide_eq_true hm), decide_eq_true hm]
        rw [belongLoop, if_neg (by decide)]
        rfl
      · rw [if_neg (by simpa using hm), decide_eq_false hm]
        rw [belongLoop, if_neg (by decide)]
        rfl
  next depth hc =>
      refine (initInterval_spec h wide depth i).mono ?_ fun _ _ he => he
      rintro node s ⟨hs, hnode⟩
      refine ⟨hs, ?_⟩
      intro tail hcount hlen ht rest
      have hpos : 0 < i := by
        by_contra hz
        obtain rfl : i = 0 := by omega
        cases hc
      have hpow : 256 ^ (depth + 1) ≤ 256 ^ 3 := Nat.pow_le_pow_right (by decide) (by omega)
      have hle : (i + 1) * 256 ^ (depth + 1) ≤ 256 * 256 ^ 3 := Nat.mul_le_mul (by omega) hpow
      have hfits : Fits i (depth + 1) := ⟨hpos, Nat.le_trans hle (by decide)⟩
      rw [hc]
      exact hnode hfits tail (by omega) ht rest

theorem init_spec (h : chars.Inv utf8Char) (wide : Nat → Nat → Nat) :
    ∃ nodes chars', (init wide).run chars = .ok nodes chars' ∧ List.Forall₂ (Rooted chars.holder)
      (List.range 256) nodes := by
  have hspec : Spec (init wide) chars
      (fun nodes s => Keeps chars.holder s ∧ List.Forall₂ (Rooted chars.holder) (List.range 256) nodes) fun _ _ => False :=
    Spec.mapM ⟨h, rfl⟩ fun i hi s hs => initNode_spec hs wide (List.mem_range.mp hi)
  obtain ⟨nodes, chars', hrun, -, hnodes⟩ := hspec.exists_ok
  exact ⟨nodes, chars', hrun, hnodes⟩

theorem isOwned_symbol {nodes : List Node} (h : List.Forall₂ (Rooted H) (List.range 256) nodes) (c : Symbol) (rest : Bytes) :
    isOwned nodes (c.octets ++ rest) = .ok (decide ((c.char : Int) ∈ denoted H)) := by
  obtain ⟨a, tail, hc, hcount, hlen, htails, -⟩ := c.cases
  have ha := a.toNat_lt
  have hl : nodes.length = 256 := by rw [← h.length_eq, List.length_range]
  have hget := h.get (i := a.toNat) (by simpa using ha) (by omega)
  simp only [List.get_eq_getElem, List.getElem_range] at hget
  have hchar : c.char = pack a.toNat tail := by
    rw [Symbol.char, hc, pack_cons, Nat.zero_mul, Nat.zero_add]
  rw [isOwned, hc, List.cons_append, belong, List.getElem?_eq_getElem (by omega), hchar]
  exact hget tail hcount hlen htails rest

/-! ## 追加 -/

def Addition.ends : Addition → Symbol × Symbol
  | .symbol c => (c, c)
  | .symbols first last => (first, last)

theorem Addition.apply_eq (x : Addition) (chars : State) :
    x.apply chars = .ok (chars.add utf8Char x.ends.1.char x.ends.2.char) := by
  have hget : ∀ c : Symbol, getChar c.octets = .ok (c.char, c.octets.length) := by
    intro c
    have := getChar_symbol c []
    rwa [List.append_nil] at this
  cases x with
  | symbol c =>
      rw [Addition.apply, addSymbol, hget, ok_bind]
      rfl
  | symbols first last =>
      rw [Addition.apply, addSymbols, hget, ok_bind]
      dsimp only
      rw [hget, ok_bind]
      rfl

theorem foldlM_apply (additions : List Addition) (h : chars.Inv utf8Char) :
    ∃ chars', additions.foldlM Addition.apply chars = .ok chars' ∧ chars'.Inv utf8Char ∧
      ∀ v, v ∈ denoted chars'.holder ↔ v ∈ denoted chars.holder ∨ ∃ x ∈ additions,
      (x.ends.1.char : Int) ≤ v ∧ v ≤ x.ends.2.char := by
  induction additions generalizing chars with
  | nil => exact ⟨chars, rfl, h, by simp⟩
  | cons x additions ih =>
      have hlow : utf8Char.min ≤ (x.ends.1.char : Int) := Int.natCast_nonneg _
      have hhigh : (x.ends.2.char : Int) ≤ utf8Char.max := by
        have := x.ends.2.char_lt
        simp only [utf8Char]
        omega
      obtain ⟨chars', hfold, hinv, hmem⟩ := ih (h.add hlow hhigh)
      refine ⟨chars', ?_, hinv, ?_⟩
      · rw [List.foldlM_cons, Addition.apply_eq, ok_bind, hfold]
      · intro v
        rw [hmem, (State.add_spec h.holder hlow hhigh).2 v, List.exists_mem_cons_iff, or_assoc]

/-! ## 探す -/

def text (syms : List Symbol) : Bytes := syms.flatMap Symbol.octets

def Symbol.nul : Symbol := ⟨[0], isSequence_one.mpr (by decide)⟩

theorem text_nil : text [] = [] := rfl

theorem text_cons (c : Symbol) (syms : List Symbol) : text (c :: syms) = c.octets ++ text syms := rfl

theorem text_append (before after : List Symbol) : text (before ++ after) = text before ++ text after := List.flatMap_append

theorem text_concat (before : List Symbol) (c : Symbol) : text (before ++ [c]) = text before ++ c.octets := by
  rw [text_append, text_cons, text_nil, List.append_nil]

theorem Symbol.length_pos (c : Symbol) : 0 < c.octets.length := List.length_pos_of_ne_nil c.isSequence.ne_nil

theorem length_le_text (syms : List Symbol) : syms.length ≤ (text syms).length := by
  induction syms with
  | nil => exact Nat.le_refl _
  | cons c syms ih =>
      have := c.length_pos
      rw [text_cons, List.length_cons, List.length_append]
      omega

theorem available_tails (ht : IsTails tail) (rest : Bytes) : available tail.length (tail ++ rest) = .ok true := by
  induction tail with
  | nil => rfl
  | cons b tail ih =>
      have hb : IsTail b := ht b List.mem_cons_self
      unfold IsTail at hb
      rw [List.length_cons, List.cons_append, available]
      simp only [octetAt, pure, Except.pure, ok_bind, List.tail_cons]
      rw [if_neg (by omega)]
      exact ih fun x hx => ht x (List.mem_cons_of_mem _ hx)

theorem rfindLoop_tails {nodes : List Node} {owned : Bool} {str : Bytes} {lastReview : Nat}
    (ht : ∀ i, n ≤ i → i < n + d → ∃ b, str[i]? = some b ∧ IsTail b) :
    rfindLoop nodes owned str (n + d) lastReview = rfindLoop nodes owned str n lastReview := by
  induction d with
  | zero => rfl
  | succ d ih =>
      obtain ⟨b, hget, hb⟩ := ht (n + d) (by omega) (by omega)
      have hhead : octetAt (str.drop (n + d)) = .ok b.toNat := by
        rw [List.drop_eq_getElem?_toList_append, hget]
        rfl
      rw [← Nat.add_assoc, rfindLoop, hhead, ok_bind, if_neg (by rw [not_not]; exact (isTail_iff b).mpr hb)]
      exact ih fun i h₁ h₂ => ht i h₁ (by omega)

section
variable {nodes : List Node} {own : Symbol → Bool}
    (hown : ∀ c rest, isOwned nodes (c.octets ++ rest) = .ok (own c)) {owned : Bool}
  {fuel pos : Nat} {before after syms : List Symbol} {c : Symbol}
include hown

theorem findRangeLoop_step (c : Symbol) (rest : Bytes) :
    findRangeLoop nodes owned (fuel + 1) pos (c.octets ++ rest) =
      if own c = owned then .ok ⟨some pos, some c.octets.length⟩
      else findRangeLoop nodes owned fuel (pos + c.octets.length) rest := by
  obtain ⟨a, tail, hc, hcount, -⟩ := c.cases
  have hlen : c.octets.length = tail.length + 1 := by rw [hc, List.length_cons]
  have hhead : octetAt (c.octets ++ rest) = .ok a.toNat := by
    rw [hc]
    rfl
  have hne : c.octets ++ rest ≠ [] := by simp [hc]
  rw [findRangeLoop, if_neg hne, hhead, ok_bind, hcount, ← hlen, if_neg (by have := c.length_pos; omega),
    if_neg (by rw [List.length_append]; omega), hown, ok_bind, List.drop_left]
  rfl

theorem findRangeLoop_found (hfuel : before.length < fuel) (hb : ∀ x ∈ before, own x ≠ owned)
    (hc : own c = owned) : findRangeLoop nodes owned fuel pos (text (before ++ c :: after)) = .ok
      ⟨some (pos + (text before).length), some c.octets.length⟩ := by
  induction before generalizing fuel pos with
  | nil =>
      obtain ⟨fuel, rfl⟩ := Nat.exists_eq_add_one_of_ne_zero (Nat.ne_of_gt hfuel)
      rw [List.nil_append, text_cons, findRangeLoop_step hown, if_pos hc]
      rfl
  | cons x before ih =>
      obtain ⟨fuel, rfl⟩ := Nat.exists_eq_add_one_of_ne_zero (Nat.ne_zero_of_lt hfuel)
      rw [List.cons_append, text_cons, findRangeLoop_step hown, if_neg (hb x List.mem_cons_self),
        ih (Nat.lt_of_succ_lt_succ hfuel) fun y hy => hb y (List.mem_cons_of_mem _ hy), text_cons,
        List.length_append, Nat.add_assoc]

theorem findRangeLoop_missing (hfuel : syms.length < fuel) (h : ∀ x ∈ syms, own x ≠ owned) :
    findRangeLoop nodes owned fuel pos (text syms) = .ok ⟨some (pos + (text syms).length), none⟩ := by
  induction syms generalizing fuel pos with
  | nil =>
      obtain ⟨fuel, rfl⟩ := Nat.exists_eq_add_one_of_ne_zero (Nat.ne_of_gt hfuel)
      rw [text_nil, findRangeLoop, if_pos rfl]
      rfl
  | cons x syms ih =>
      obtain ⟨fuel, rfl⟩ := Nat.exists_eq_add_one_of_ne_zero (Nat.ne_zero_of_lt hfuel)
      rw [text_cons, findRangeLoop_step hown, if_neg (h x List.mem_cons_self),
        ih (Nat.lt_of_succ_lt_succ hfuel) fun y hy => h y (List.mem_cons_of_mem _ hy), List.length_append, Nat.add_assoc]

theorem findLoop_step (c : Symbol) (rest : Bytes) :
    findLoop nodes owned (fuel + 1) pos (c.octets ++ rest) =
      if own c = owned then .ok ⟨some pos, some c.octets.length⟩
      else if c.octets = [0] then .ok ⟨none, none⟩
      else findLoop nodes owned fuel (pos + c.octets.length) rest := by
  obtain ⟨a, tail, hc, hcount, -, ht, -, hzero⟩ := c.cases
  have hlen : c.octets.length = tail.length + 1 := by rw [hc, List.length_cons]
  have hhead : octetAt (c.octets ++ rest) = .ok a.toNat := by
    rw [hc]
    rfl
  have htail : (c.octets ++ rest).tail = tail ++ rest := by
    rw [hc]
    rfl
  have hnul : a.toNat = 0 ↔ c.octets = [0] := by
    rw [hc]
    constructor
    · intro ha
      have ha' : a = 0 := UInt8.toNat_inj.mp ha
      rw [hzero ha', ha']
    · intro he
      rw [(List.cons.inj he).1]
      rfl
  rw [findLoop, hhead, ok_bind, hcount, if_neg (Nat.succ_ne_zero _), htail, Nat.add_sub_cancel,
    available_tails ht, ok_bind, if_neg (by decide), hown, ok_bind, ← hlen, List.drop_left]
  by_cases ho : own c = owned
  · rw [if_pos ho, if_pos ho]
    rfl
  · rw [if_neg ho, if_neg ho]
    by_cases hz : a.toNat = 0
    · rw [if_pos hz, if_pos (hnul.mp hz)]
      rfl
    · rw [if_neg hz, if_neg fun he => hz (hnul.mpr he)]

theorem findLoop_found (hfuel : before.length < fuel) (hnul : ∀ x ∈ before, x.octets ≠ [0])
    (hb : ∀ x ∈ before, own x ≠ owned) (hc : own c = owned) (rest : Bytes) :
    findLoop nodes owned fuel pos (text before ++ (c.octets ++ rest)) = .ok
      ⟨some (pos + (text before).length), some c.octets.length⟩ := by
  induction before generalizing fuel pos with
  | nil =>
      obtain ⟨fuel, rfl⟩ := Nat.exists_eq_add_one_of_ne_zero (Nat.ne_of_gt hfuel)
      show findLoop nodes owned (fuel + 1) pos (c.octets ++ rest) = _
      rw [findLoop_step hown, if_pos hc]
      rfl
  | cons x before ih =>
      obtain ⟨fuel, rfl⟩ := Nat.exists_eq_add_one_of_ne_zero (Nat.ne_zero_of_lt hfuel)
      rw [text_cons, List.append_assoc, findLoop_step hown, if_neg (hb x List.mem_cons_self),
        if_neg (hnul x List.mem_cons_self),
        ih (Nat.lt_of_succ_lt_succ hfuel) (fun y hy => hnul y (List.mem_cons_of_mem _ hy))
        fun y hy => hb y (List.mem_cons_of_mem _ hy), List.length_append, Nat.add_assoc]

theorem findLoop_missing (hfuel : syms.length < fuel) (hnul : ∀ x ∈ syms, x.octets ≠ [0]) (h : ∀ x ∈ syms, own x ≠ owned)
    (hn : own Symbol.nul ≠ owned) : findLoop nodes owned fuel pos (text syms ++ [0]) = .ok ⟨none, none⟩ := by
  induction syms generalizing fuel pos with
  | nil =>
      obtain ⟨fuel, rfl⟩ := Nat.exists_eq_add_one_of_ne_zero (Nat.ne_of_gt hfuel)
      have hend : text [] ++ [0] = Symbol.nul.octets ++ [] := rfl
      have hzero : Symbol.nul.octets = [0] := rfl
      rw [hend, findLoop_step hown, if_neg hn, if_pos hzero]
  | cons x syms ih =>
      obtain ⟨fuel, rfl⟩ := Nat.exists_eq_add_one_of_ne_zero (Nat.ne_zero_of_lt hfuel)
      rw [text_cons, List.append_assoc, findLoop_step hown, if_neg (h x List.mem_cons_self),
        if_neg (hnul x List.mem_cons_self)]
      exact ih (Nat.lt_of_succ_lt_succ hfuel) (fun y hy => hnul y (List.mem_cons_of_mem _ hy))
        fun y hy => h y (List.mem_cons_of_mem _ hy)

theorem rfindLoop_step (before : List Symbol) (c : Symbol) (rest : Bytes) :
    rfindLoop nodes owned (text before ++ (c.octets ++ rest)) ((text before).length + c.octets.length)
        ((text before).length + c.octets.length) =
      if own c = owned then .ok ⟨some (text before).length, some c.octets.length⟩
      else rfindLoop nodes owned (text before ++ (c.octets ++ rest)) (text before).length (text before).length := by
  obtain ⟨a, tail, hc, hcount, -, ht, hlead, -⟩ := c.cases
  have hlen : c.octets.length = tail.length + 1 := by rw [hc, List.length_cons]
  have hskip : ∀ i, (text before).length + 1 ≤ i → i < (text before).length + 1 + tail.length →
      ∃ b, (text before ++ (c.octets ++ rest))[i]? = some b ∧ IsTail b := by
    intro i h₁ h₂
    obtain ⟨j, rfl⟩ := Nat.exists_eq_add_of_le h₁
    have hj : j < tail.length := by omega
    refine ⟨tail.get ⟨j, hj⟩, ?_, ht _ (List.get_mem _ _)⟩
    rw [List.getElem?_append_right (by omega), hc, List.cons_append]
    have hsub : (text before).length + 1 + j - (text before).length = j + 1 := by omega
    rw [hsub, List.getElem?_cons_succ, List.getElem?_append_left hj, List.getElem?_eq_getElem hj, List.get_eq_getElem]
  have hhead : octetAt ((text before ++ (c.octets ++ rest)).drop (text before).length) = .ok a.toNat := by
    rw [List.drop_left, hc]
    rfl
  have hsum : (text before).length + c.octets.length = (text before).length + 1 + tail.length := by omega
  have hrange : (text before).length + 1 + tail.length - (text before).length = c.octets.length := by omega
  rw [hsum, rfindLoop_tails hskip, rfindLoop, hhead, ok_bind, if_pos hlead]
  dsimp only
  rw [hrange, hcount, ← hlen, if_neg (fun h => h rfl), List.drop_left, hown, ok_bind]
  rfl

theorem rfindLoop_missing (before : List Symbol) (rest : Bytes) (h : ∀ x ∈ before, own x ≠ owned) :
    rfindLoop nodes owned (text before ++ rest) (text before).length (text before).length =
      .ok ⟨some (text before ++ rest).length, none⟩ := by
  induction before using List.reverseRecOn generalizing rest with
  | nil => rfl
  | append_singleton before c ih =>
      rw [text_concat, List.append_assoc, List.length_append, rfindLoop_step hown, if_neg (h c (by simp))]
      exact ih _ fun x hx => h x (List.mem_append_left _ hx)

theorem rfindLoop_found (before after : List Symbol) (rest : Bytes) (ha : ∀ x ∈ after, own x ≠ owned) (hc : own c = owned) :
    rfindLoop nodes owned (text (before ++ c :: after) ++ rest) (text (before ++ c :: after)).length
      (text (before ++ c :: after)).length =
      .ok ⟨some (text before).length, some c.octets.length⟩ := by
  induction after using List.reverseRecOn generalizing rest with
  | nil =>
      rw [text_concat, List.append_assoc, List.length_append, rfindLoop_step hown, if_pos hc]
  | append_singleton after x ih =>
      have htext : text (before ++ c :: (after ++ [x])) = text (before ++ c :: after) ++ x.octets := by
        rw [← List.cons_append, ← List.append_assoc, text_concat]
      rw [htext, List.append_assoc, List.length_append, rfindLoop_step hown, if_neg (ha x (by simp))]
      exact ih _ fun y hy => ha y (List.mem_append_left _ hy)

end

end UnixCommons.String.UTF8Category
