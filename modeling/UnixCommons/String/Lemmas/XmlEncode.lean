import UnixCommons.String.XmlEncode
import UnixCommons.String.Lemmas.UTF8Handler
import Mathlib.Data.List.TakeWhile
import Mathlib.Tactic.Positivity
import Mathlib.Tactic.Ring

/-! # XML の符号化の補題 -/

namespace UnixCommons.String.XmlEncode

open Lib Lib.Utf8 AsciiStringManip UTF8Handler

variable {c n i units fuel : Nat} {b : UInt8} {src dst dest rest tag : Bytes}

attribute [local grind =] hexLoop hexValueLoop

/-! ## 十六進の参照 -/

theorem hexDigit_spec : ∀ d < 16, hexToInt (hexDigits.getD d 0) = d ∧ isOwned hexNumber (hexDigits.getD d 0) = true ∧
    hexDigits.getD d 0 ∈ hexDigits ∧ (hexDigits.getD d 0 = ascii '0' ↔ d = 0) := by
  decide

theorem nibble_eq (n i : Nat) : (n &&& (0xF <<< (4 * i))) >>> (4 * i) = n / 16 ^ i % 16 := by
  have hpow : 2 ^ (4 * i) = 16 ^ i := by rw [Nat.pow_mul]
  rw [Nat.shiftRight_and_distrib, Nat.shiftLeft_shiftRight, Nat.shiftRight_eq_div_pow, hpow]
  exact and_mask _ 4

theorem nibble_zero_iff (n i : Nat) : n &&& (0xF <<< (4 * i)) = 0 ↔ n / 16 ^ i % 16 = 0 := by
  rw [← nibble_eq]
  constructor
  · intro h
    rw [h, Nat.zero_shiftRight]
  · intro h
    refine Nat.eq_of_testBit_eq fun j => ?_
    rw [Nat.zero_testBit]
    by_cases hj : 4 * i ≤ j
    · have hbit := congrArg (fun m => m.testBit (j - 4 * i)) h
      simp only [Nat.testBit_shiftRight, Nat.zero_testBit] at hbit
      rwa [Nat.add_sub_cancel' hj] at hbit
    · simp [Nat.testBit_and, Nat.testBit_shiftLeft, hj]

theorem skipLoop_spec (h : n < 16 ^ (i + 1)) (h0 : 0 < n) :
    n < 16 ^ (skipLoop n i + 1) ∧ n / 16 ^ skipLoop n i % 16 ≠ 0 := by
  induction i with
  | zero =>
      rw [skipLoop]
      refine ⟨h, ?_⟩
      simp only [Nat.zero_add, pow_one] at h
      rw [pow_zero, Nat.div_one, Nat.mod_eq_of_lt h]
      omega
  | succ i ih =>
      rw [skipLoop]
      by_cases hz : n &&& (0xF <<< (4 * (i + 1))) = 0
      · rw [if_pos hz]
        have hdiv : n / 16 ^ (i + 1) % 16 = 0 := (nibble_zero_iff n (i + 1)).mp hz
        have hlt : n / 16 ^ (i + 1) < 16 := by
          rw [Nat.div_lt_iff_lt_mul (by positivity), Nat.mul_comm, ← pow_succ]
          exact h
        rw [Nat.mod_eq_of_lt hlt] at hdiv
        refine ih ?_
        rcases (Nat.div_eq_zero_iff).mp hdiv with hpow | hlt
        · exact absurd hpow (by positivity)
        · exact hlt
      · rw [if_neg hz]
        exact ⟨h, mt (nibble_zero_iff n (i + 1)).mpr hz⟩

theorem skipLoop_le (h : n < 0x110000) (h0 : 0 < n) : skipLoop n 7 ≤ 5 := by
  obtain ⟨-, hne⟩ := skipLoop_spec (i := 7) (by omega : n < 16 ^ 8) h0
  by_contra hgt
  refine hne ?_
  have hpow : 16 ^ 6 ≤ 16 ^ skipLoop n 7 := Nat.pow_le_pow_right (by decide) (by omega)
  rw [Nat.div_eq_of_lt (by omega)]

theorem length_hexLoop : (hexLoop n i).length = i + 1 := by
  induction i with
  | zero => rfl
  | succ i ih => rw [hexLoop, List.length_cons, ih]

theorem hexLoop_eq (n i : Nat) : ∃ rest, hexLoop n i = hexDigits.getD (n / 16 ^ i % 16) 0 :: rest := by
  cases i with
  | zero =>
      have hmod : n &&& 0xF = n % 16 := and_mask n 4
      exact ⟨[], by rw [hexLoop, hmod, pow_zero, Nat.div_one]⟩
  | succ i => exact ⟨hexLoop n i, by rw [hexLoop, nibble_eq]⟩

theorem hexLoop_mem (n i : Nat) : ∀ d ∈ hexLoop n i, d ∈ hexDigits := by
  have hdigit : ∀ m, hexDigits.getD (m % 16) 0 ∈ hexDigits := fun m => (hexDigit_spec _ (Nat.mod_lt _ (by decide))).2.2.1
  induction i with
  | zero =>
      have hmod : n &&& 0xF = n % 16 := and_mask n 4
      intro d hd
      rw [hexLoop, hmod, List.mem_singleton] at hd
      exact hd ▸ hdigit n
  | succ i ih =>
      intro d hd
      rw [hexLoop, nibble_eq] at hd
      rcases List.mem_cons.mp hd with rfl | hd
      · exact hdigit _
      · exact ih d hd

theorem hexValueLoop_cons {d : Nat} (h : d < 16) (digits : Bytes) (value : Nat) :
    hexValueLoop (hexDigits.getD d 0 :: digits) value = hexValueLoop digits (value * 16 + d) := by
  obtain ⟨hint, hown, -⟩ := hexDigit_spec d h
  rw [hexValueLoop, hown, hint, if_neg (by simp), Nat.shiftLeft_eq, Nat.mul_comm]
  congr 1
  exact ((Nat.two_pow_add_eq_or_of_lt (h : d < 2 ^ 4) value)).symm.trans (by rw [Nat.mul_comm])

theorem hexValueLoop_hexLoop (n i value : Nat) : hexValueLoop (hexLoop n i) value = .ok
    (value * 16 ^ (i + 1) + n % 16 ^ (i + 1)) := by
  induction i generalizing value with
  | zero =>
      have hmod : n &&& 0xF = n % 16 := and_mask n 4
      rw [hexLoop, hmod, hexValueLoop_cons (Nat.mod_lt _ (by decide)), hexValueLoop, Nat.zero_add, pow_one]
      rfl
  | succ i ih =>
      rw [hexLoop, nibble_eq, hexValueLoop_cons (Nat.mod_lt _ (by decide)), ih]
      congr 1
      have hsplit : n % 16 ^ (i + 1 + 1) = n % 16 ^ (i + 1) + 16 ^ (i + 1) * (n / 16 ^ (i + 1) % 16) := by
        rw [pow_succ 16 (i + 1), Nat.mod_mul]
      rw [hsplit, Nat.add_mul, pow_succ 16 (i + 1)]
      ring

def hexRef (n : Nat) : Bytes := hexLoop n (skipLoop n 7)

theorem decodeHex_hexRef (h : n < 0x110000) (h0 : 0 < n) : decodeHex (hexRef n) = .ok (encode n) := by
  obtain ⟨hlt, hne⟩ := skipLoop_spec (i := 7) (by omega : n < 16 ^ 8) h0
  have hle := skipLoop_le h h0
  obtain ⟨rest, hrest⟩ := hexLoop_eq n (skipLoop n 7)
  have hfirst : hexDigits.getD (n / 16 ^ skipLoop n 7 % 16) 0 ≠ ascii '0' :=
    mt (hexDigit_spec _ (Nat.mod_lt _ (by decide))).2.2.2.mp hne
  have hdrop : (hexRef n).dropWhile (· = ascii '0') = hexRef n := by
    rw [hexRef, hrest, List.dropWhile_cons_of_neg (by simpa using hfirst)]
  have hnil : hexRef n ≠ [] := by
    rw [hexRef, hrest]
    exact List.cons_ne_nil _ _
  have hlen : (hexRef n).length ≤ 6 := by
    rw [hexRef, length_hexLoop]
    omega
  have hvalue : hexValueLoop (hexRef n) 0 = .ok n := by
    rw [hexRef, hexValueLoop_hexLoop, Nat.zero_mul, Nat.zero_add, Nat.mod_eq_of_lt hlt]
  unfold decodeHex
  simp only [hdrop]
  rw [if_neg hnil, if_neg hnil, if_neg (by omega), hvalue, ok_bind, wcharToUtf8Char_eq h]
  rfl

theorem wcharToHex_eq (h : n < 0x110000) (h0 : 0 < n) : wcharToHex n = .ok
    (['&', '#', 'x'].map ascii ++ hexRef n ++ [ascii ';']) := by
  have hle := skipLoop_le h h0
  unfold wcharToHex
  rw [if_neg (by omega)]
  dsimp only
  rw [length_hexLoop, if_neg (by omega)]
  rfl

/-! ## 断片 -/

def piece (units c : Nat) : Bytes :=
  if 0x20 ≤ c ∧ c ≤ 0x7E then special (UInt8.ofNat c) units
  else if units &&& xuPreserveUtf8 ≠ 0 then encode c
  else ['&', '#', 'x'].map ascii ++ hexRef c ++ [ascii ';']

def EmittedTag (tag : Bytes) : Prop :=
  tag ∈ [['l', 't'], ['g', 't'], ['a', 'm', 'p'], ['a', 'p', 'o', 's'], ['q', 'u', 'o', 't']].map (List.map ascii) ∨
    ∃ digits, digits ≠ [] ∧ (∀ d ∈ digits, d ∈ hexDigits) ∧ tag = ['#', 'x'].map ascii ++ digits

inductive IsPiece (units : Nat) (q : Bytes) : Bytes → Prop
  | plain (hmark : ∀ b ∈ q, b ≠ ascii '<' ∧ b ≠ ascii '>' ∧ b ≠ ascii '&')
      (hquote : units &&& xuAttribute ≠ 0 → ∀ b ∈ q, b ≠ ascii '\'' ∧ b ≠ ascii '"') : IsPiece units q q
  | reference {tag : Bytes} (htag : EmittedTag tag) (hdecode : decodeTag tag = .ok q) : IsPiece
      units q (ascii '&' :: (tag ++ [ascii ';']))

theorem EmittedTag.chars (h : EmittedTag tag) :
    tag ≠ [] ∧ ∀ b ∈ tag, b ≠ ascii '&' ∧ b ≠ ascii ';' ∧ b ≠ ascii '<' ∧ b ≠ ascii '>' ∧
      b ≠ ascii '\'' ∧ b ≠ ascii '"' := by
  have hdigits : ∀ b ∈ hexDigits, b ≠ ascii '&' ∧ b ≠ ascii ';' ∧ b ≠ ascii '<' ∧ b ≠ ascii '>' ∧
      b ≠ ascii '\'' ∧ b ≠ ascii '"' :=
    forall_mem_bytes (by decide)
  rcases h with h | ⟨digits, -, hd, rfl⟩
  · refine ⟨?_, ?_⟩
    · rintro rfl
      exact absurd h (by decide)
    · simp only [List.map_cons, List.map_nil, List.mem_cons, List.not_mem_nil, or_false] at h
      rcases h with rfl | rfl | rfl | rfl | rfl <;> exact forall_mem_bytes (by decide)
  · refine ⟨by simp, ?_⟩
    intro b hb
    rcases List.mem_append.mp hb with hb | hb
    · have hmarks : ∀ b ∈ ['#', 'x'].map ascii, b ≠ ascii '&' ∧ b ≠ ascii ';' ∧ b ≠ ascii '<' ∧
          b ≠ ascii '>' ∧ b ≠ ascii '\'' ∧ b ≠ ascii '"' := forall_mem_bytes (by decide)
      exact hmarks b hb
    · exact hdigits b (hd b hb)

theorem special_isPiece (b : UInt8) (units : Nat) : IsPiece units [b] (special b units) := by
  have href : ∀ tag : List Char, EmittedTag (tag.map ascii) → decodeTag (tag.map ascii) = .ok [b] →
      IsPiece units [b] (ascii '&' :: (tag.map ascii ++ [ascii ';'])) := fun _ => .reference
  unfold special
  split_ifs with h₁ h₂ h₃ h₄ h₅
  · exact href ['l', 't'] (.inl (by decide)) (by rw [h₁]; decide)
  · exact href ['g', 't'] (.inl (by decide)) (by rw [h₂]; decide)
  · exact href ['a', 'm', 'p'] (.inl (by decide)) (by rw [h₃]; decide)
  · exact href ['a', 'p', 'o', 's'] (.inl (by decide)) (by rw [h₄.2]; decide)
  · exact href ['q', 'u', 'o', 't'] (.inl (by decide)) (by rw [h₅.2]; decide)
  · refine .plain ?_ ?_
    · intro x hx
      rw [List.mem_singleton.mp hx]
      exact ⟨h₁, h₂, h₃⟩
    · intro hunits x hx
      rw [List.mem_singleton.mp hx]
      exact ⟨fun h => h₄ ⟨hunits, h⟩, fun h => h₅ ⟨hunits, h⟩⟩

theorem encode_not_special (h : ¬ (0x20 ≤ c ∧ c ≤ 0x7E)) (hc : c < 0x110000) :
    ∀ b ∈ encode c, b.toNat < 0x20 ∨ 0x7F ≤ b.toNat := by
  have hge : ∀ m, 0x80 ≤ m → m < 0x100 → ∀ b, b = UInt8.ofNat m → 0x7F ≤ b.toNat := by
    rintro m hm hlt b rfl
    rw [toNat_ofNat hlt]
    omega
  unfold encode
  split_ifs with h₁ h₂ h₃
  · intro b hb
    rw [List.mem_singleton.mp hb, toNat_ofNat (by omega)]
    omega
  all_goals
    intro b hb
    right
    simp only [List.mem_cons, List.not_mem_nil, or_false] at hb
  · rcases hb with hb | hb
    · exact hge _ (by omega) (by omega) b hb
    · exact hge _ (by omega) (by omega) b hb
  · rcases hb with hb | hb | hb
    · exact hge _ (by omega) (by omega) b hb
    · exact hge _ (by omega) (by omega) b hb
    · exact hge _ (by omega) (by omega) b hb
  · rcases hb with hb | hb | hb | hb
    · exact hge _ (by omega) (by omega) b hb
    · exact hge _ (by omega) (by omega) b hb
    · exact hge _ (by omega) (by omega) b hb
    · exact hge _ (by omega) (by omega) b hb

theorem piece_isPiece (units : Nat) (hc : c < 0x110000) (h0 : 0 < c) : IsPiece units (encode c) (piece units c) := by
  unfold piece
  split_ifs with h₁ h₂
  · have hone : encode c = [UInt8.ofNat c] := by
      rw [encode, if_pos (by omega)]
    rw [hone]
    exact special_isPiece _ units
  · have hchars := encode_not_special h₁ hc
    have hne : ∀ b ∈ encode c, ∀ x : UInt8, 0x20 ≤ x.toNat ∧ x.toNat < 0x7F → b ≠ x := by
      rintro b hb x hx rfl
      have := hchars b hb
      omega
    refine .plain ?_ ?_
    · intro b hb
      exact ⟨hne b hb _ (by decide), hne b hb _ (by decide), hne b hb _ (by decide)⟩
    · intro _ b hb
      exact ⟨hne b hb _ (by decide), hne b hb _ (by decide)⟩
  · have hdigits : hexRef c ≠ [] := by
      obtain ⟨rest, hrest⟩ := hexLoop_eq c (skipLoop c 7)
      rw [hexRef, hrest]
      exact List.cons_ne_nil _ _
    have htag : EmittedTag (['#', 'x'].map ascii ++ hexRef c) := .inr ⟨hexRef c, hdigits, hexLoop_mem c _, rfl⟩
    have hdecode : decodeTag (['#', 'x'].map ascii ++ hexRef c) = .ok (encode c) := by
      rw [← decodeHex_hexRef hc h0]
      rfl
    exact IsPiece.reference htag hdecode

/-! ## 符号化 -/

theorem charValue_iff (b : UInt8) : (charValue b ≥ 0x20 ∧ charValue b ≤ 0x7E) ↔ 0x20 ≤ b.toNat ∧ b.toNat ≤ 0x7E := by
  have := b.toNat_lt
  unfold charValue
  split_ifs <;> omega

theorem encode_ne_zero (hc : c < 0x110000) (h0 : 0 < c) : ∃ a s, encode c = a :: s ∧ a ≠ 0 ∧
    (s = [] ↔ c < 0x80) ∧ (c < 0x80 → a.toNat = c) := by
  have hne : ∀ m, 0 < m → m < 0x100 → UInt8.ofNat m ≠ 0 := by
    intro m hm hlt heq
    have := congrArg UInt8.toNat heq
    rw [toNat_ofNat hlt] at this
    change m = 0 at this
    omega
  unfold encode
  split_ifs with h₁ h₂ h₃
  · exact ⟨_, _, rfl, hne _ h0 (by omega), by simp [h₁], fun _ => toNat_ofNat (by omega)⟩
  · exact ⟨_, _, rfl, hne _ (by omega) (by omega), by simp [h₁], fun h => absurd h h₁⟩
  · exact ⟨_, _, rfl, hne _ (by omega) (by omega), by simp [h₁], fun h => absurd h h₁⟩
  · exact ⟨_, _, rfl, hne _ (by omega) (by omega), by simp [h₁], fun h => absurd h h₁⟩

theorem encodeLoop_encode (hc : IsScalar c) (h0 : 0 < c) (rest dest : Bytes) :
    encodeLoop units (fuel + 1) (encode c ++ rest) dest = encodeLoop units fuel rest (dest ++ piece units c) := by
  have hseq := isSequence_encode hc
  obtain ⟨a, s, hs, ha, hnil, hval⟩ := encode_ne_zero hc.lt h0
  have hhead : (encode c ++ rest).headD 0 = a := by rw [hs]; rfl
  have hcond : ((encode c).length = 1 ∧ charValue a ≥ 0x20 ∧ charValue a ≤ 0x7E) ↔ 0x20 ≤ c ∧ c ≤ 0x7E := by
    rw [charValue_iff, hs, List.length_cons, Nat.add_eq_right, List.length_eq_zero_iff, hnil]
    constructor
    · rintro ⟨h₁, h₂⟩
      rwa [hval h₁] at h₂
    · intro h
      exact ⟨by omega, by rwa [hval (by omega)]⟩
  rw [encodeLoop]
  dsimp only
  rw [hhead, if_neg ha, isCorrectUtf8Sequence_of_isSequence hseq, Except.mapError, ok_bind]
  dsimp only
  rw [if_neg (by simp), List.drop_left, List.take_left, utf8CharToWchar_of_isSequence hseq,
    decode_encode hc.lt, wcharToHex_eq hc.lt h0]
  unfold piece
  by_cases h₁ : 0x20 ≤ c ∧ c ≤ 0x7E
  · rw [if_pos (hcond.mpr h₁), if_pos h₁, ofNat_eq_self (hval (by omega)).symm]
  · rw [if_neg (mt hcond.mp h₁), if_neg h₁]
    by_cases h₂ : units &&& xuPreserveUtf8 ≠ 0
    · rw [if_pos h₂, if_pos h₂]
    · rw [if_neg h₂, if_neg h₂, ok_bind]

theorem wcharToUtf8_eq (h : c < 0x110000) : wcharToUtf8 c = encode c := by
  have hchar := wcharToUtf8Char_eq h
  have hsame : wcharToUtf8Char c = some (wcharToUtf8 c) := by
    unfold wcharToUtf8Char wcharToUtf8
    split_ifs <;> first | rfl | omega
  rw [hsame] at hchar
  exact Option.some.inj hchar

theorem encodeWideLoop_cons (hc : c < 0x110000) (h0 : 0 < c) (src : List Nat) (dest : Bytes) :
    encodeWideLoop units (c :: src) dest = encodeWideLoop units src (dest ++ piece units c) := by
  have hcond : (c >>> 8 = 0 ∧ charValue (convert c) ≥ 0x20 ∧ charValue (convert c) ≤ 0x7E) ↔ 0x20 ≤ c ∧ c ≤ 0x7E := by
    rw [charValue_iff, Nat.shiftRight_eq_div_pow, convert, UInt8.toNat_ofNat']
    omega
  rw [encodeWideLoop, if_neg (by omega)]
  dsimp only
  unfold piece
  by_cases h₁ : 0x20 ≤ c ∧ c ≤ 0x7E
  · rw [if_pos (hcond.mpr h₁), if_pos h₁]
    rfl
  · rw [if_neg (mt hcond.mp h₁), if_neg h₁, wcharToUtf8_eq hc, wcharToHex_eq hc h0]
    by_cases h₂ : units &&& xuPreserveUtf8 ≠ 0
    · rw [if_pos h₂, if_pos h₂]
    · rw [if_neg h₂, if_neg h₂, ok_bind]

variable {cs : List Nat}

def Scalars (cs : List Nat) : Prop := ∀ c ∈ cs, IsScalar c ∧ 0 < c

theorem scalars_of_nonzero (hcs : ∀ c ∈ cs, IsScalar c) (h0 : 0 ∉ cs.flatMap encode) : Scalars cs := by
  intro c hc
  refine ⟨hcs c hc, Nat.pos_of_ne_zero ?_⟩
  rintro rfl
  exact h0 (List.mem_flatMap.mpr ⟨0, hc, by decide⟩)

theorem Scalars.tail (h : Scalars (c :: cs)) : Scalars cs := fun x hx => h x (List.mem_cons_of_mem c hx)

theorem encodeLoop_scalars (h : Scalars cs) (hfuel : cs.length < fuel) (dest : Bytes) :
    encodeLoop units fuel (cs.flatMap encode) dest = .ok (dest ++ cs.flatMap (piece units)) := by
  induction cs generalizing fuel dest with
  | nil =>
      obtain ⟨fuel, rfl⟩ : ∃ m, fuel = m + 1 := ⟨fuel - 1, by omega⟩
      rw [List.flatMap_nil, List.flatMap_nil, List.append_nil]
      rfl
  | cons c cs ih =>
      obtain ⟨fuel, rfl⟩ : ∃ m, fuel = m + 1 := ⟨fuel - 1, by omega⟩
      obtain ⟨hc, h0⟩ := h c List.mem_cons_self
      rw [List.flatMap_cons, List.flatMap_cons, encodeLoop_encode hc h0, ih h.tail (by simpa using hfuel), List.append_assoc]

theorem encodeWideLoop_scalars (h : Scalars cs) (dest : Bytes) :
    encodeWideLoop units cs dest = .ok (dest ++ cs.flatMap (piece units)) := by
  induction cs generalizing dest with
  | nil =>
      rw [List.flatMap_nil, List.append_nil]
      rfl
  | cons c cs ih =>
      obtain ⟨hc, h0⟩ := h c List.mem_cons_self
      rw [encodeWideLoop_cons hc.lt h0, ih h.tail, List.flatMap_cons, List.append_assoc]

/-! ## 復号 -/

theorem decodeLoop_plain {q : Bytes} (h : ∀ b ∈ q, b ≠ ascii '&') (rest dst : Bytes) :
    decodeLoop (fuel + 1) (q ++ rest) dst = decodeLoop (fuel + 1) rest (dst ++ q) := by
  have hq : ∀ b ∈ q, decide (b ≠ ascii '&') = true := fun b hb => decide_eq_true (h b hb)
  rw [decodeLoop, decodeLoop, List.dropWhile_append_of_pos hq, List.takeWhile_append_of_pos hq]
  cases rest.dropWhile fun b => decide (b ≠ ascii '&') <;> simp only [List.append_assoc]

theorem decodeLoop_reference {q : Bytes} (htag : EmittedTag tag) (hdecode : decodeTag tag = .ok q) (rest dst : Bytes) :
    decodeLoop (fuel + 1) (ascii '&' :: (tag ++ [ascii ';']) ++ rest) dst = decodeLoop fuel rest (dst ++ q) := by
  obtain ⟨hne, hchars⟩ := htag.chars
  have htag : ∀ b ∈ tag, decide (b ≠ ascii ';') = true := fun b hb => decide_eq_true (hchars b hb).2.1
  have hfound : tag ++ [ascii ';'] ++ rest = tag ++ ascii ';' :: rest := by simp
  have hdrop : (ascii ';' :: rest).dropWhile (fun b => decide (b ≠ ascii ';')) = ascii ';' :: rest :=
    List.dropWhile_cons_of_neg (by simp)
  have htake : (ascii ';' :: rest).takeWhile (fun b => decide (b ≠ ascii ';')) = [] := List.takeWhile_cons_of_neg (by simp)
  rw [List.cons_append, hfound, decodeLoop, List.dropWhile_cons_of_neg (by simp), List.takeWhile_cons_of_neg (by simp)]
  dsimp only
  rw [List.dropWhile_append_of_pos htag, List.takeWhile_append_of_pos htag, hdrop, htake, List.append_nil, List.append_nil]
  dsimp only
  rw [if_neg hne, hdecode, ok_bind]

theorem decodeLoop_pieces (h : Scalars cs) (hfuel : cs.length < fuel) (dst : Bytes) :
    decodeLoop fuel (cs.flatMap (piece units)) dst = .ok (dst ++ cs.flatMap encode) := by
  induction cs generalizing fuel dst with
  | nil =>
      obtain ⟨fuel, rfl⟩ : ∃ m, fuel = m + 1 := ⟨fuel - 1, by omega⟩
      rfl
  | cons c cs ih =>
      obtain ⟨fuel, rfl⟩ : ∃ m, fuel = m + 1 := ⟨fuel - 1, by omega⟩
      obtain ⟨hc, h0⟩ := h c List.mem_cons_self
      rw [List.length_cons] at hfuel
      have hpiece := piece_isPiece units hc.lt h0
      rw [List.flatMap_cons, List.flatMap_cons, ← List.append_assoc dst]
      generalize piece units c = p at hpiece
      cases hpiece with
      | plain hmark _ =>
          rw [decodeLoop_plain fun b hb => (hmark b hb).2.2]
          exact ih h.tail (by omega) _
      | reference htag hdecode =>
          rw [decodeLoop_reference htag hdecode]
          exact ih h.tail (by omega) _

/-! ## 文字列の全体 -/

theorem length_le_flatMap {f : Nat → Bytes} (h : ∀ c ∈ cs, f c ≠ []) : cs.length ≤ (cs.flatMap f).length := by
  induction cs with
  | nil => exact Nat.zero_le _
  | cons c cs ih =>
      have hpos := List.length_pos_iff.mpr (h c List.mem_cons_self)
      have hle := ih fun x hx => h x (List.mem_cons_of_mem c hx)
      rw [List.flatMap_cons, List.length_append, List.length_cons]
      omega

theorem encode_ne_nil (c : Nat) : encode c ≠ [] := by
  unfold encode
  split_ifs <;> exact List.cons_ne_nil _ _

theorem piece_ne_nil (units : Nat) (hc : c < 0x110000) (h0 : 0 < c) : piece units c ≠ [] := by
  have hpiece := piece_isPiece units hc h0
  generalize piece units c = p at hpiece
  cases hpiece with
  | plain => exact encode_ne_nil c
  | reference => exact List.cons_ne_nil _ _

theorem xmlEncode_scalars (h : Scalars cs) (units : Nat) : xmlEncode (cs.flatMap encode) units = .ok
    (cs.flatMap (piece (initUnits units))) := by
  have hlen : cs.length ≤ (cs.flatMap encode).length := length_le_flatMap fun c _ => encode_ne_nil c
  exact encodeLoop_scalars h (Nat.lt_succ_of_le hlen) []

theorem xmlEncodeWide_scalars (h : Scalars cs) (units : Nat) : xmlEncodeWide cs units = .ok
    (cs.flatMap (piece (initUnits units))) :=
  encodeWideLoop_scalars h []

theorem xmlDecode_pieces (h : Scalars cs) (units : Nat) : xmlDecode (cs.flatMap (piece units)) = .ok
    (cs.flatMap encode) := by
  have hlen : cs.length ≤ (cs.flatMap (piece units)).length :=
    length_le_flatMap fun c hc => piece_ne_nil units (h c hc).1.lt (h c hc).2
  exact decodeLoop_pieces h (Nat.lt_succ_of_le hlen) []

/-! ## 符号化した文字列の文字 -/

theorem IsPiece.chars {q p : Bytes} (h : IsPiece units q p) :
    ∀ b ∈ p, b ≠ ascii '<' ∧ b ≠ ascii '>' ∧ (units &&& xuAttribute ≠ 0 → b ≠ ascii '\'' ∧ b ≠ ascii '"') := by
  intro b hb
  cases h with
  | plain hmark hquote => exact ⟨(hmark b hb).1, (hmark b hb).2.1, fun hunits => hquote hunits b hb⟩
  | reference htag _ =>
      rcases List.mem_cons.mp hb with rfl | hb
      · exact ⟨by decide, by decide, fun _ => by decide⟩
      · rcases List.mem_append.mp hb with hb | hb
        · obtain ⟨-, -, h₁, h₂, h₃⟩ := htag.chars.2 b hb
          exact ⟨h₁, h₂, fun _ => h₃⟩
        · rw [List.mem_singleton.mp hb]
          exact ⟨by decide, by decide, fun _ => by decide⟩

theorem IsPiece.reference_of_amp {q p pre post : Bytes} (h : IsPiece units q p)
    (heq : p = pre ++ ascii '&' :: post) : ∃ tag, EmittedTag tag ∧ post = tag ++ [ascii ';'] := by
  cases h with
  | plain hmark _ => exact absurd rfl (hmark (ascii '&') (by rw [heq]; simp)).2.2
  | @reference tag htag _ =>
      cases pre with
      | nil => exact ⟨tag, htag, (List.cons.inj heq).2.symm⟩
      | cons x pre =>
          -- 参照の中に、もう一つの `&` は現れない。
          have hmem : ascii '&' ∈ tag ++ [ascii ';'] := by
            rw [(List.cons.inj heq).2]
            simp
          rcases List.mem_append.mp hmem with hmem | hmem
          · exact absurd rfl (htag.chars.2 _ hmem).1
          · exact absurd (List.mem_singleton.mp hmem) (by decide)

theorem reference_of_amp {pre post : Bytes} (h : Scalars cs) (heq : cs.flatMap (piece units) = pre ++ ascii '&' :: post) :
    ∃ tag rest, EmittedTag tag ∧ post = tag ++ ascii ';' :: rest := by
  induction cs generalizing pre with
  | nil => simp at heq
  | cons c cs ih =>
      obtain ⟨hc, h0⟩ := h c List.mem_cons_self
      have hpiece := piece_isPiece units hc.lt h0
      rw [List.flatMap_cons] at heq
      rcases List.append_eq_append_iff.mp heq with ⟨mid, hmid, hrest⟩ | ⟨mid, hp, hrest⟩
      · exact ih h.tail hrest
      · cases mid with
        | nil =>
            have hnil : cs.flatMap (piece units) = [] ++ ascii '&' :: post := hrest.symm
            exact ih h.tail hnil
        | cons x mid =>
            obtain ⟨rfl, hpost⟩ := List.cons.inj hrest
            obtain ⟨tag, htag, rfl⟩ := hpiece.reference_of_amp hp
            refine ⟨tag, cs.flatMap (piece units), htag, ?_⟩
            rw [hpost]
            exact (List.append_assoc _ _ _).trans rfl

end UnixCommons.String.XmlEncode
