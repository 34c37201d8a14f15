import UnixCommons.String.StringManip
import UnixCommons.String.Lemmas.XmlEncode
import UnixCommons.Lib.Escape

/-! # JavaScript の文字の表し方の補題 -/

namespace UnixCommons.String.JsUnicode

open Lib AsciiStringManip UTF8Handler Utf8 XmlEncode

variable {c d n fuel : Nat} {cs : List Nat} {a : UInt8} {src rest dest : Bytes}

theorem hexValue_digits (h : n < 0x10000) :
    hexValue [hexDigits.getD ((n >>> 12) &&& 0x0F) 0, hexDigits.getD ((n >>> 8) &&& 0x0F) 0,
      hexDigits.getD ((n >>> 4) &&& 0x0F) 0, hexDigits.getD (n &&& 0x0F) 0] = n := by
  have hdigit : ∀ m, hexToInt (hexDigits.getD (m &&& 0x0F) 0) = m % 16 := by
    intro m
    rw [show m &&& 0x0F = m % 16 from and_mask m 4]
    exact (hexDigit_spec (m % 16) (Nat.mod_lt m (by decide))).1
  have hstep : ∀ m k, (m <<< 4) ||| (k % 16) = m * 16 + k % 16 := by
    intro m k
    rw [Nat.shiftLeft_eq, Nat.mul_comm m, ← Nat.two_pow_add_eq_or_of_lt (Nat.mod_lt k (by decide) : k % 16 < 2 ^ 4)]
  simp only [hexValue, List.foldl_cons, List.foldl_nil, hdigit, hstep, Nat.shiftRight_eq_div_pow]
  omega

theorem length_addUnicodeSymbol : (addUnicodeSymbol n).length = 6 := rfl

/-! ## 符号化 -/

def piece (c : Nat) : Bytes := if c < 0x80 ∧ isOwned alphaNum (UInt8.ofNat c) = true then [UInt8.ofNat c] else addSymbol c

theorem alphaNum_lt : ∀ b : UInt8, isOwned alphaNum b = true → b.toNat < 0x80 ∧ b ≠ ascii '\\' := by
  have hall : ∀ b ∈ alphaNum, b.toNat < 0x80 ∧ b ≠ ascii '\\' := forall_mem_bytes (by decide)
  intro b hb
  exact hall b (by simpa [isOwned] using hb)

theorem encodeLoop_owned (h : isOwned alphaNum a = true) (src dst : Bytes) :
    encodeLoop (fuel + 1) (a :: src) dst = encodeLoop (fuel + 1) src (dst ++ [a]) := by
  simp only [encodeLoop, List.takeWhile_cons_of_pos h, List.dropWhile_cons_of_pos h,
    List.append_assoc, List.singleton_append]

theorem encodeLoop_encode (hc : IsScalar c) (h0 : 0 < c) (rest dst : Bytes)
    (hfuel : rest.length < fuel) : ∃ fuel', rest.length < fuel' ∧ encodeLoop (fuel + 1)
      (encode c ++ rest) dst = encodeLoop fuel' rest (dst ++ piece c) := by
  obtain ⟨a, s, hs, -, hnil, hval⟩ := encode_ne_zero hc.lt h0
  have hseq := isSequence_encode hc
  unfold piece
  by_cases howned : isOwned alphaNum a = true
  · have hlt : c < 0x80 := by
      by_contra hge
      have hle := alphaNum_lt a howned
      have hlead := hseq
      rw [hs] at hlead
      have hlen := hlead.length_eq
      have hone : sequenceLength a = 1 := if_pos (by omega)
      rw [hone, List.length_cons, Nat.add_eq_right, List.length_eq_zero_iff] at hlen
      exact hge (hnil.mp hlen)
    have ha : UInt8.ofNat c = a := ofNat_eq_self (hval hlt).symm
    rw [ha, if_pos ⟨hlt, howned⟩, hs, hnil.mpr hlt]
    exact ⟨fuel + 1, by omega, encodeLoop_owned howned rest dst⟩
  · have hnot : ¬ (c < 0x80 ∧ isOwned alphaNum (UInt8.ofNat c) = true) := by
      rintro ⟨hlt, h⟩
      rw [ofNat_eq_self (hval hlt).symm] at h
      exact howned h
    have hcount : getOctetCount a.toNat = (encode c).length := by
      rw [hs, getOctetCount_eq (lead_of_isSequence (hs ▸ hseq)), ← (hs ▸ hseq : IsSequence (a :: s)).length_eq]
    have hchar : (utf8CharToWchar (a :: (s ++ rest)) (encode c).length).2 = c := by
      have hfull := utf8CharToWchar_of_isSequence hseq rest
      rw [decode_encode hc.lt, hs] at hfull
      rw [hs]
      exact congrArg Prod.snd hfull
    have hdrop : (a :: (s ++ rest)).drop (encode c).length = rest := by
      rw [← List.cons_append, ← hs]
      exact List.drop_left
    have hpos : (encode c).length ≠ 0 := by simp [hs]
    refine ⟨fuel, hfuel, ?_⟩
    rw [if_neg hnot, hs, List.cons_append, encodeLoop, List.takeWhile_cons_of_neg howned, List.dropWhile_cons_of_neg howned]
    dsimp only
    rw [hcount, if_neg hpos, if_pos (by rw [hs]; simp), hchar, hdrop, List.append_nil]

theorem encodeLoop_scalars (h : Scalars cs) (dst : Bytes) (hfuel : (cs.flatMap encode).length < fuel) :
    encodeLoop fuel (cs.flatMap encode) dst = .ok (dst ++ cs.flatMap piece) := by
  induction cs generalizing fuel dst with
  | nil =>
      obtain ⟨fuel, rfl⟩ : ∃ m, fuel = m + 1 := ⟨fuel - 1, by omega⟩
      simp [encodeLoop]
      rfl
  | cons c cs ih =>
      obtain ⟨hc, h0⟩ := h c List.mem_cons_self
      rw [List.flatMap_cons] at hfuel
      obtain ⟨fuel, rfl⟩ : ∃ m, fuel = m + 1 := ⟨fuel - 1, by omega⟩
      have hlen : (cs.flatMap encode).length < fuel := by
        have := List.length_pos_of_ne_nil (encode_ne_nil c)
        rw [List.length_append] at hfuel
        omega
      obtain ⟨fuel', hfuel', hstep⟩ := encodeLoop_encode hc h0 (cs.flatMap encode) dst hlen
      rw [List.flatMap_cons, hstep, ih h.tail _ hfuel', List.flatMap_cons, List.append_assoc]

theorem jsUnicodeEncode_scalars (h : Scalars cs) : jsUnicodeEncode (cs.flatMap encode) = .ok (cs.flatMap piece) := by
  unfold jsUnicodeEncode
  split_ifs with hnil
  · cases cs with
    | nil => rfl
    | cons c cs => simp [encode_ne_nil] at hnil
  · exact encodeLoop_scalars h [] (Nat.lt_succ_self _)

/-! ## 始まらないバイト -/

/-- 始めのバイトの長さだけ進むと、終わりを越える前に、長さが 0 のバイトに着く。 -/
inductive MeetsBadLead : Bytes → Prop
  | here {ch : UInt8} {src : Bytes} : getOctetCount ch.toNat = 0 → MeetsBadLead (ch :: src)
  | step {ch : UInt8} {src : Bytes} : getOctetCount ch.toNat ≠ 0 → getOctetCount ch.toNat ≤ (ch :: src).length →
      MeetsBadLead ((ch :: src).drop (getOctetCount ch.toNat)) → MeetsBadLead (ch :: src)

theorem meetsBadLead_step_iff (hne : getOctetCount a.toNat ≠ 0) :
    MeetsBadLead (a :: src) ↔
      getOctetCount a.toNat ≤ (a :: src).length ∧ MeetsBadLead ((a :: src).drop (getOctetCount a.toNat)) := by
  constructor
  · intro h
    cases h with
    | here h0 => exact absurd h0 hne
    | step _ hle hrest => exact ⟨hle, hrest⟩
  · exact fun h => .step hne h.1 h.2

theorem getOctetCount_owned (h : isOwned alphaNum a = true) : getOctetCount a.toNat = 1 := by
  obtain ⟨hlt, -⟩ := alphaNum_lt a h
  have hle : a.toNat ≤ 0x7F := Nat.le_of_lt_succ hlt
  rw [getOctetCount_eq (.inl hle)]
  exact if_pos hle

theorem encodeLoop_other (h : isOwned alphaNum a = false) (src dst : Bytes) :
    encodeLoop (fuel + 1) (a :: src) dst =
      if getOctetCount a.toNat = 0 then .error .nonUnicode
      else if getOctetCount a.toNat ≤ (a :: src).length then
        encodeLoop fuel ((a :: src).drop (getOctetCount a.toNat))
          (dst ++ addSymbol (utf8CharToWchar (a :: src) (getOctetCount a.toNat)).2)
      else .error .pastNul := by
  have hnot : ¬ isOwned alphaNum a = true := by rw [h]; exact Bool.false_ne_true
  rw [encodeLoop, List.takeWhile_cons_of_neg hnot, List.dropWhile_cons_of_neg hnot]
  dsimp only
  rw [List.append_nil]
  rfl

theorem encodeLoop_nonUnicode_iff (dst : Bytes) (hfuel : src.length < fuel) :
    encodeLoop fuel src dst = .error .nonUnicode ↔ MeetsBadLead src := by
  induction hlen : src.length using Nat.strong_induction_on generalizing src fuel dst with
  | _ m ih =>
      obtain ⟨fuel, rfl⟩ : ∃ k, fuel = k + 1 := ⟨fuel - 1, by omega⟩
      cases src with
      | nil => exact iff_of_false (by simp [encodeLoop, pure, Except.pure]) (by rintro ⟨⟩)
      | cons a src =>
          rw [List.length_cons] at hlen hfuel
          by_cases howned : isOwned alphaNum a = true
          · have hone := getOctetCount_owned howned
            rw [encodeLoop_owned howned, ih src.length (by omega) _ (by omega) rfl,
              meetsBadLead_step_iff (by rw [hone]; decide), hone, List.drop_succ_cons, List.drop_zero]
            exact ⟨fun h => ⟨by simp, h⟩, And.right⟩
          · rw [encodeLoop_other (Bool.eq_false_iff.mpr howned)]
            by_cases h0 : getOctetCount a.toNat = 0
            · rw [if_pos h0]
              exact iff_of_true rfl (.here h0)
            · rw [if_neg h0, meetsBadLead_step_iff h0]
              by_cases hle : getOctetCount a.toNat ≤ (a :: src).length
              · have hdrop := List.length_drop (i := getOctetCount a.toNat) (l := a :: src)
                rw [List.length_cons] at hdrop
                rw [if_pos hle, ih _ (by omega) _ (by omega) rfl]
                exact ⟨fun h => ⟨hle, h⟩, And.right⟩
              · rw [if_neg hle]
                exact iff_of_false (by simp) (fun h => hle h.1)

theorem jsUnicodeEncode_nonUnicode_iff (src : Bytes) : jsUnicodeEncode src = .error .nonUnicode ↔ MeetsBadLead src := by
  unfold jsUnicodeEncode
  split_ifs with hnil
  · subst hnil
    exact iff_of_false (by simp [pure, Except.pure]) (by rintro ⟨⟩)
  · exact encodeLoop_nonUnicode_iff [] (Nat.lt_succ_self _)

/-! ## 復号 -/

theorem decodeLoop_symbol (h : n < 0x10000) (last : Nat) (rest dest : Bytes) :
    decodeLoop true (ascii '\\') (addUnicodeSymbol n ++ rest) last dest =
      if last ≠ 0 then
        if n ≥ 0xDC00 ∧ n < 0xE000 then
          addWchar dest (joinSurrogates last n) true >>= decodeLoop true (ascii '\\') rest 0
        else
          .error .unpairedSurrogate
      else if n ≥ 0xD700 ∧ n < 0xDC00 then
        decodeLoop true (ascii '\\') rest n dest
      else if n ≥ 0xDC00 ∧ n < 0xE000 then
        .error .unpairedSurrogate
      else
        addWchar dest n true >>= decodeLoop true (ascii '\\') rest 0 := by
  have hlen : (addUnicodeSymbol n ++ rest).length ≥ 5 := by
    rw [List.length_append, length_addUnicodeSymbol]
    omega
  unfold addUnicodeSymbol at hlen ⊢
  simp only [List.cons_append, List.nil_append] at hlen ⊢
  rw [decodeLoop, if_pos ⟨rfl, hlen, rfl⟩]
  dsimp only
  rw [hexValue_digits h]
  rfl

theorem decodeLoop_owned (h : isOwned alphaNum a = true) (last : Nat) (rest dest : Bytes) :
    decodeLoop true (ascii '\\') (a :: rest) last dest =
      if last ≠ 0 then .error .unpairedSurrogate else decodeLoop true (ascii '\\') rest 0 (dest ++ [a]) := by
  obtain ⟨-, hne⟩ := alphaNum_lt a h
  rw [decodeLoop.eq_def]
  dsimp only
  rw [if_neg (fun hand => hne hand.1), if_neg (fun hand => hne hand.1)]
  split_ifs
  · rfl
  · rfl

theorem addWchar_eq (h : n < 0x110000) (strict : Bool) (dest : Bytes) : addWchar dest n strict = .ok (dest ++ encode n) := by
  unfold addWchar
  rw [wcharToUtf8Char_eq h]
  rfl

theorem joinSurrogates_of_le {high low : Nat} (h : 0xD7C0 ≤ high ∧ high < 0xDC00) :
    joinSurrogates high low = ((high - 0xD7C0) <<< 10) ||| (low - 0xDC00) := by
  have hsub : (high + 2 ^ 32 - 0xD7C0) % 2 ^ 32 = high - 0xD7C0 := by omega
  have hshift : ((high - 0xD7C0) <<< 10) % 2 ^ 32 = (high - 0xD7C0) <<< 10 := by
    rw [Nat.shiftLeft_eq]
    exact Nat.mod_eq_of_lt (by omega)
  rw [joinSurrogates, hsub, hshift]

theorem pair_eq (hc : c < 0x110000) : joinSurrogates (0xD7C0 + (c >>> 10)) (0xDC00 + (c &&& 0x3FF)) = c := by
  have hmod : c &&& 0x3FF = c % 2 ^ 10 := and_mask c 10
  have hhigh : 0xD7C0 + (c >>> 10) < 0xDC00 := by
    rw [Nat.shiftRight_eq_div_pow]
    omega
  rw [joinSurrogates_of_le ⟨Nat.le_add_right _ _, hhigh⟩, Nat.add_sub_cancel_left,
    Nat.add_sub_cancel_left, hmod, Nat.shiftLeft_eq,
    Nat.shiftRight_eq_div_pow, Nat.mul_comm, ← Nat.two_pow_add_eq_or_of_lt (Nat.mod_lt c (by decide))]
  exact Nat.div_add_mod c (2 ^ 10)

theorem decodeLoop_piece (hc : IsScalar c) (hgood : ¬ (0xD700 ≤ c ∧ c ≤ 0xD7FF)) (rest dest : Bytes) :
    decodeLoop true (ascii '\\') (piece c ++ rest) 0 dest = decodeLoop true (ascii '\\') rest 0 (dest ++ encode c) := by
  have hlt := hc.lt
  unfold piece
  split_ifs with howned
  · have hencode : encode c = [UInt8.ofNat c] := if_pos howned.1
    rw [List.singleton_append, decodeLoop_owned howned.2, if_neg (by simp), hencode]
  · unfold addSymbol
    split_ifs with hsmall
    · have hrange : ¬ (c ≥ 0xD700 ∧ c < 0xDC00) ∧ ¬ (c ≥ 0xDC00 ∧ c < 0xE000) := by
        unfold IsScalar at hc
        omega
      rw [decodeLoop_symbol hsmall, if_neg (by simp), if_neg hrange.1, if_neg hrange.2, addWchar_eq hlt, ok_bind]
    · have hhigh : 0xD800 ≤ 0xD7C0 + (c >>> 10) ∧ 0xD7C0 + (c >>> 10) < 0xDC00 := by
        rw [Nat.shiftRight_eq_div_pow]
        omega
      have hlow : 0xDC00 + (c &&& 0x3FF) < 0xE000 := by
        have := @Nat.and_le_right c 0x3FF
        omega
      rw [List.append_assoc, decodeLoop_symbol (by omega), if_neg (by simp), if_pos (by omega), decodeLoop_symbol (by omega),
        if_pos (by omega), if_pos (by omega), pair_eq hlt, addWchar_eq hlt, ok_bind]

theorem decodeLoop_pending (hbad : 0xD700 ≤ c ∧ c ≤ 0xD7FF) (rest dest : Bytes) :
    decodeLoop true (ascii '\\') (piece c ++ rest) 0 dest = decodeLoop true (ascii '\\') rest c dest := by
  unfold piece addSymbol
  rw [if_neg (by omega), if_pos (by omega), decodeLoop_symbol (by omega), if_neg (by simp), if_pos (by omega)]

theorem decodeLoop_unpaired (h : Scalars cs) (hd : d ≠ 0) (dest : Bytes) :
    decodeLoop true (ascii '\\') (cs.flatMap piece) d dest = .error .unpairedSurrogate := by
  cases cs with
  | nil =>
      rw [List.flatMap_nil, decodeLoop, if_pos hd]
      rfl
  | cons c cs =>
      obtain ⟨hc, -⟩ := h c List.mem_cons_self
      have hlt := hc.lt
      rw [List.flatMap_cons]
      unfold piece
      split_ifs with howned
      · rw [List.singleton_append, decodeLoop_owned howned.2, if_pos hd]
      · unfold addSymbol
        split_ifs with hsmall
        · have hrange : ¬ (c ≥ 0xDC00 ∧ c < 0xE000) := by
            unfold IsScalar at hc
            omega
          rw [decodeLoop_symbol hsmall, if_pos hd, if_neg hrange]
        · have hhigh : 0xD7C0 + (c >>> 10) < 0xDC00 := by
            rw [Nat.shiftRight_eq_div_pow]
            omega
          rw [List.append_assoc, decodeLoop_symbol (by omega), if_pos hd, if_neg (by omega)]

theorem decodeLoop_pieces (h : Scalars cs) (dest : Bytes) :
    decodeLoop true (ascii '\\') (cs.flatMap piece) 0 dest =
      if ∀ c ∈ cs, ¬ (0xD700 ≤ c ∧ c ≤ 0xD7FF) then .ok (dest ++ cs.flatMap encode) else .error .unpairedSurrogate := by
  induction cs generalizing dest with
  | nil => simp [decodeLoop]; rfl
  | cons c cs ih =>
      obtain ⟨hc, -⟩ := h c List.mem_cons_self
      rw [List.flatMap_cons, List.flatMap_cons]
      by_cases hbad : 0xD700 ≤ c ∧ c ≤ 0xD7FF
      · rw [decodeLoop_pending hbad, decodeLoop_unpaired h.tail (by omega),
          if_neg (fun hall => hall c List.mem_cons_self hbad)]
      · rw [decodeLoop_piece hc hbad, ih h.tail, List.append_assoc]
        refine if_congr ?_ rfl rfl
        rw [List.forall_mem_cons]
        exact ⟨fun hall => ⟨hbad, hall⟩, And.right⟩

end UnixCommons.String.JsUnicode

/-! ## 任意の文字列の復号の補題 -/

namespace UnixCommons.String.JsUnicode

open Lib AsciiStringManip UTF8Handler Utf8 Escape

inductive Piece
  | plain (ch : UInt8)
  | symbol (d₁ d₂ d₃ d₄ : UInt8)
  | broken
  | cut
  deriving DecidableEq

def pieces (special : UInt8) : Bytes → List Piece
  | [] => []
  | ch :: src =>
      if ch = special then
        if (ch :: src).length ≥ 5 ∧ src.headD 0 = ascii 'u' then
          match src with
          | _ :: d₁ :: d₂ :: d₃ :: d₄ :: src => .symbol d₁ d₂ d₃ d₄ :: pieces special src
          | _ => [.cut]
        else
          .broken :: pieces special src
      else
        .plain ch :: pieces special src

def flush (strict : Bool) (last : Nat) (dest : Bytes) : Except Fault Bytes :=
  if last ≠ 0 then addSurrogate last dest strict else pure dest

variable {strict : Bool} {special d₁ d₂ d₃ d₄ : UInt8} {src dest : Bytes} {last n : Nat} {ps : List Piece}

def pairStep (least joined last n : Nat) : Option Nat :=
  if last ≠ 0 then (if IsLow n ∧ joined ≤ last then some 0 else none)
  else if least ≤ n ∧ n < 0xDC00 then some n
  else if IsLow n then none
  else some 0

def accepts (least joined : Nat) : Nat → List Piece → Bool
  | last, [] => last = 0
  | last, .plain _ :: ps => last = 0 && accepts least joined 0 ps
  | last, .symbol d₁ d₂ d₃ d₄ :: ps => (pairStep least joined last (hexValue [d₁, d₂, d₃, d₄])).any
      fun next => accepts least joined next ps
  | _, .broken :: _ => false
  | _, .cut :: _ => false

attribute [local grind =] pairStep accepts

def Fault.IsFormat (e : Fault) : Prop := e = .invalidSymbol ∨ e = .unpairedSurrogate ∨ e = .brokenEncoding

def Pending (last : Nat) : Prop := last = 0 ∨ (0xD700 ≤ last ∧ last < 0xDC00)

def Piece.High : Piece → Prop
  | .symbol d₁ d₂ d₃ d₄ => 0xD800 ≤ hexValue [d₁, d₂, d₃, d₄] ∧ hexValue [d₁, d₂, d₃, d₄] < 0xDC00
  | _ => False

def Piece.Low : Piece → Prop
  | .symbol d₁ d₂ d₃ d₄ => IsLow (hexValue [d₁, d₂, d₃, d₄])
  | _ => False

/-- 復号が正しく扱わない断片。五文字の終わりと、十六進でない数字か `0xD700` から `0xD7FF` までの値の符号である。 -/
def Piece.Faulty : Piece → Prop
  | .symbol d₁ d₂ d₃ d₄ =>
      ¬ (∀ d ∈ [d₁, d₂, d₃, d₄], isOwned hexNumber d = true) ∨
        (0xD700 ≤ hexValue [d₁, d₂, d₃, d₄] ∧ hexValue [d₁, d₂, d₃, d₄] < 0xD800)
  | .cut => True
  | _ => False

/-- `p` の後の並びに、符号を始めない特別な文字も、対にならない代用符号もない。並びの終わりの上位の代用符号は、まだ対を待つ。 -/
def RightAfter (p : Piece) (ps : List Piece) : Prop :=
  .broken ∉ ps ∧ List.IsChain (fun a b => a.High ↔ b.Low) (p :: ps)

/-- 復号の誤る断片の前には、必ず、符号を始めない特別な文字か、対にならない代用符号がある。 -/
def AvoidsFaulty (q : Piece) (ps : List Piece) : Prop :=
  ∀ before p after, ps = before ++ p :: after → p.Faulty → ¬ RightAfter q before

def Piece.pending : Piece → Nat
  | .symbol d₁ d₂ d₃ d₄ =>
      if 0xD800 ≤ hexValue [d₁, d₂, d₃, d₄] ∧ hexValue [d₁, d₂, d₃, d₄] < 0xDC00 then hexValue [d₁, d₂, d₃, d₄] else 0
  | _ => 0

instance : DecidablePred Piece.Faulty
  | .symbol _ _ _ _ => inferInstanceAs (Decidable (_ ∨ _))
  | .plain _ => isFalse id
  | .broken => isFalse id
  | .cut => isTrue trivial

theorem AvoidsFaulty.broken {q : Piece} : AvoidsFaulty q (.broken :: ps) := by
  rintro (_ | ⟨r, before⟩) p after heq hp hright
  · obtain ⟨rfl, -⟩ := List.cons.inj heq
    exact hp
  · obtain ⟨rfl, -⟩ := List.cons.inj heq
    exact hright.1 List.mem_cons_self

theorem AvoidsFaulty.head {q p : Piece} (h : AvoidsFaulty q (p :: ps)) : ¬ p.Faulty :=
  fun hp => h [] p ps rfl hp ⟨List.not_mem_nil, List.isChain_singleton q⟩

theorem AvoidsFaulty.tail {q p : Piece} (h : AvoidsFaulty q (p :: ps)) (hp : p ≠ .broken)
    (hqp : q.High ↔ p.Low) : AvoidsFaulty p ps := by
  intro before r after heq hr hbefore
  refine h (p :: before) r after (congrArg (p :: ·) heq) hr ⟨fun hm => ?_, List.isChain_cons_cons.mpr ⟨hqp, hbefore.2⟩⟩
  exact (List.mem_cons.mp hm).elim (fun he => hp he.symm) hbefore.1

end UnixCommons.String.JsUnicode
