import Mathlib.Tactic.IntervalCases
import Mathlib.Data.List.Basic
import UnixCommons.String.StringManip
import UnixCommons.Lib.Spec

/-!
# base64 の補題

三つのバイトは四つの六ビットの値に分かれ、復号は四つの値から三つのバイトを戻す。
-/

namespace UnixCommons.String.Base64

open Lib AsciiStringManip

variable {encode : Nat → UInt8} {pad b : UInt8} {padding hasFill : Bool} {fill fuel off k : Nat} {src dst ptr : Bytes}

attribute [local grind =] decodeLoop skipBlanks Iterator.checkPadding Iterator.next funcEncode leftBits base64modDecode

/-! ## ビットの計算 -/

theorem bits_eq (b : UInt8) :
    b.toNat >>> 2 = b.toNat / 4 ∧ (b.toNat <<< 4) &&& 0o60 = b.toNat % 4 * 16 ∧
      (b.toNat >>> 4) &&& 0o17 = b.toNat / 16 ∧ (b.toNat <<< 2) &&& 0o74 = b.toNat % 16 * 4 ∧
      (b.toNat >>> 6) &&& 0o3 = b.toNat / 64 ∧ b.toNat &&& 0o77 = b.toNat % 64 :=
  forall_byte (P := fun n => n >>> 2 = n / 4 ∧ (n <<< 4) &&& 0o60 = n % 4 * 16 ∧ (n >>> 4) &&& 0o17 = n / 16 ∧
    (n <<< 2) &&& 0o74 = n % 16 * 4 ∧ (n >>> 6) &&& 0o3 = n / 64 ∧ n &&& 0o77 = n % 64) (by decide +kernel) b

theorem shiftLeft_or {x y k : Nat} (hy : y < 2 ^ k) : x <<< k ||| y = x * 2 ^ k + y := by
  rw [← Nat.shiftLeft_add_eq_or_of_lt hy, Nat.shiftLeft_eq]

theorem or_sixteen {x y : Nat} (hy : y < 16) : x * 16 ||| y = x * 16 + y := by
  have h := shiftLeft_or (x := x) (k := 4) hy
  rwa [Nat.shiftLeft_eq] at h

theorem or_four {x y : Nat} (hy : y < 4) : x * 4 ||| y = x * 4 + y := by
  have h := shiftLeft_or (x := x) (k := 2) hy
  rwa [Nat.shiftLeft_eq] at h

theorem convert_eq {x y : Nat} (hx : x < 64) (hy : y < 64) :
    convert (x <<< 2 ||| y >>> 4) = UInt8.ofNat (x * 4 + y / 16) ∧
      convert (x <<< 4 ||| y >>> 2) = UInt8.ofNat (x % 16 * 16 + y / 4) ∧
      convert (x <<< 6 ||| y) = UInt8.ofNat (x % 4 * 64 + y) := by
  have h₂ : y >>> 4 = y / 16 := Nat.shiftRight_eq_div_pow y 4
  have h₄ : y >>> 2 = y / 4 := Nat.shiftRight_eq_div_pow y 2
  refine ⟨ofNat_eq_of_mod ?_, ofNat_eq_of_mod ?_, ofNat_eq_of_mod ?_⟩
  · rw [shiftLeft_or (by omega), h₂]
    omega
  · rw [shiftLeft_or (by omega), h₄]
    omega
  · rw [shiftLeft_or (by omega)]
    omega

/-! ## 文字と、詰める文字 -/

def Decodes (encode : Nat → UInt8) : Prop := ∀ x < 64, decodeTable.getD (encode x).toNat 0 = x

theorem decodes_stdEncode : Decodes stdEncode := by
  unfold Decodes
  decide

theorem decodes_modEncode : Decodes modEncode := by
  unfold Decodes
  decide

theorem skipBlanks_encode (h : Decodes encode) {x : Nat} (hx : x < 64) (ptr : Bytes) (off : Nat) :
    skipBlanks (encode x :: ptr) off = (x, ⟨encode x :: ptr, off⟩) := by
  have hget : Iterator.get ⟨encode x :: ptr, off⟩ = x := h x hx
  rw [skipBlanks, hget, if_neg (by omega)]

def Pads (pad : UInt8) : Prop :=
  ∀ k ≤ 2, ∀ off, (off + k) % 4 = 0 → ∃ p, skipBlanks (List.replicate k pad) off = (0o100, p) ∧ p.checkPadding = .ok ()

theorem skipBlanks_blank (h : decodeTable.getD pad.toNat 0 = 0o177) :
    skipBlanks (List.replicate k pad) off = (0o100, ⟨[], off + k⟩) := by
  induction k generalizing off with
  | zero => rfl
  | succ k ih =>
      have hget : Iterator.get ⟨pad :: List.replicate k pad, off⟩ = 0o177 := h
      rw [List.replicate_succ, skipBlanks, hget, if_pos rfl, ih, Nat.add_assoc, Nat.add_comm 1 k]

theorem checkPadding_nil (h : off % 4 = 0) : Iterator.checkPadding ⟨[], off⟩ = .ok () := by
  unfold Iterator.checkPadding
  rw [if_neg]
  · rfl
  · simp [h, strncmpEq]

theorem pads_equals : Pads (ascii '=') := by
  intro k _ off hoff
  exact ⟨_, skipBlanks_blank (by decide), checkPadding_nil hoff⟩

theorem pads_mod : Pads modPadding := by
  intro k hk off hoff
  have hpad : ∀ k ≤ 2, ∀ m < 4, (m + k) % 4 = 0 →
      Iterator.checkPadding ⟨List.replicate k modPadding, m⟩ = .ok () := by decide
  refine ⟨⟨List.replicate k modPadding, off⟩, ?_, ?_⟩
  · cases k with
    | zero => rfl
    | succ k =>
        have hget : Iterator.get ⟨modPadding :: List.replicate k modPadding, off⟩ = 0o100 := rfl
        rw [List.replicate_succ, skipBlanks, hget, if_neg (by decide)]
  · rw [← hpad k hk (off % 4) (Nat.mod_lt _ (by decide)) (by omega)]
    simp [Iterator.checkPadding]

/-! ## 復号の一回り -/

theorem decodeLoop_group (h : Decodes encode) {x y z w : Nat} (hx : x < 64) (hy : y < 64) (hz : z < 64) (hw : w < 64) :
    decodeLoop hasFill (fuel + 1) ⟨encode x :: encode y :: encode z :: encode w :: ptr, off⟩ dst =
      decodeLoop hasFill fuel ⟨ptr, off + 4⟩
        (dst ++ [UInt8.ofNat (x * 4 + y / 16), UInt8.ofNat (y % 16 * 16 + z / 4), UInt8.ofNat (z % 4 * 64 + w)]) := by
  rw [decodeLoop, if_neg (by simp)]
  simp only [skipBlanks_encode h hx, Iterator.next, List.tail_cons, skipBlanks_encode h hy,
    skipBlanks_encode h hz, skipBlanks_encode h hw]
  rw [if_neg (by omega), if_neg (by omega), if_neg (by omega), if_neg (by omega),
    (convert_eq hx hy).1, (convert_eq hy hz).2.1, (convert_eq hz hw).2.2, List.append_assoc]
  rfl

theorem decodeLoop_one (h : Decodes encode) {x y : Nat} (hx : x < 64) (hy : y < 64) {p : Iterator}
    (hp : skipBlanks ptr (off + 2) = (0o100, p)) :
    decodeLoop hasFill (fuel + 1) ⟨encode x :: encode y :: ptr, off⟩ dst = (do
      let left ← leftBits hasFill (y % 16)
      return (dst ++ [UInt8.ofNat (x * 4 + y / 16)], left, p)) := by
  have hand : y &&& 0x0F = y % 16 := Nat.and_two_pow_sub_one_eq_mod y 4
  rw [decodeLoop, if_neg (by simp)]
  simp only [skipBlanks_encode h hx, Iterator.next, List.tail_cons, skipBlanks_encode h hy, hp, hand, (convert_eq hx hy).1]
  rw [if_neg (by omega), if_neg (by omega), if_pos trivial]

theorem decodeLoop_two (h : Decodes encode) {x y z : Nat} (hx : x < 64) (hy : y < 64) (hz : z < 64)
    {p : Iterator} (hp : skipBlanks ptr (off + 3) = (0o100, p)) :
    decodeLoop hasFill (fuel + 1) ⟨encode x :: encode y :: encode z :: ptr, off⟩ dst = (do
      let left ← leftBits hasFill (z % 4)
      return (dst ++ [UInt8.ofNat (x * 4 + y / 16), UInt8.ofNat (y % 16 * 16 + z / 4)], left, p)) := by
  have hand : z &&& 0x03 = z % 4 := Nat.and_two_pow_sub_one_eq_mod z 2
  rw [decodeLoop, if_neg (by simp)]
  simp only [skipBlanks_encode h hx, Iterator.next, List.tail_cons, skipBlanks_encode h hy,
    skipBlanks_encode h hz, hp, hand, (convert_eq hx hy).1, (convert_eq hy hz).2.1]
  rw [if_neg (by omega), if_neg (by omega), if_neg (by omega), if_pos trivial]

/-! ## 符号化の形 -/

theorem funcEncode_one (c : UInt8) :
    funcEncode padding encode pad fill [c] =
      encode (c.toNat / 4) :: encode (c.toNat % 4 * 16 + fill % 16) :: if padding then List.replicate 2 pad else [] := by
  obtain ⟨h₁, h₂, -⟩ := bits_eq c
  have hand : fill &&& 0x0F = fill % 16 := Nat.and_two_pow_sub_one_eq_mod fill 4
  simp only [funcEncode, h₁, h₂, hand]
  rw [or_sixteen (by omega)]
  cases padding <;> rfl

theorem funcEncode_two (c d : UInt8) :
    funcEncode padding encode pad fill [c, d] =
      encode (c.toNat / 4) :: encode (c.toNat % 4 * 16 + d.toNat / 16) :: encode (d.toNat % 16 * 4 + fill % 4) ::
        if padding then List.replicate 1 pad else [] := by
  have hd := d.toNat_lt
  obtain ⟨h₁, h₂, -⟩ := bits_eq c
  obtain ⟨-, -, h₃, h₄, -⟩ := bits_eq d
  have hand : fill &&& 0x03 = fill % 4 := Nat.and_two_pow_sub_one_eq_mod fill 2
  simp only [funcEncode, h₁, h₂, h₃, h₄, hand]
  rw [or_sixteen (by omega), or_four (by omega)]
  cases padding <;> rfl

theorem funcEncode_three (c d e : UInt8) (p : Bytes) :
    funcEncode padding encode pad fill (c :: d :: e :: p) =
      encode (c.toNat / 4) :: encode (c.toNat % 4 * 16 + d.toNat / 16) :: encode (d.toNat % 16 * 4 + e.toNat / 64) ::
        encode (e.toNat % 64) :: funcEncode padding encode pad fill p := by
  have hd := d.toNat_lt
  have he := e.toNat_lt
  obtain ⟨h₁, h₂, -⟩ := bits_eq c
  obtain ⟨-, -, h₃, h₄, -⟩ := bits_eq d
  obtain ⟨-, -, -, -, h₅, h₆⟩ := bits_eq e
  rw [funcEncode, h₁, h₂, h₃, h₄, h₅, h₆, or_sixteen (by omega), or_four (by omega)]
  rfl

theorem length_funcEncode : ∀ src, (funcEncode padding encode pad fill src).length = base64modEncodedSize src.length padding
  | [] => by cases padding <;> rfl
  | [c] => by
      rw [funcEncode_one]
      cases padding <;> simp [base64modEncodedSize]
  | [c, d] => by
      rw [funcEncode_two]
      cases padding <;> simp [base64modEncodedSize]
  | c :: d :: e :: p => by
      rw [funcEncode_three]
      simp only [List.length_cons, length_funcEncode p]
      unfold base64modEncodedSize
      cases padding
      · simp only [Bool.false_eq_true, if_false]
        split_ifs <;> omega
      · simp only [if_true]
        omega

/-! ## 往復 -/

theorem Pads.stop (h : Pads pad) (hk : k ≤ 2) (hoff : (off + k) % 4 = 0) :
    ∃ p, skipBlanks (if padding then List.replicate k pad else []) off = (0o100, p) ∧
      (padding = true ∨ p.ptr ≠ [] → p.checkPadding = .ok ()) := by
  cases padding with
  | true =>
      obtain ⟨p, hp, hcheck⟩ := h k hk off hoff
      exact ⟨p, hp, fun _ => hcheck⟩
  | false => exact ⟨⟨[], off⟩, rfl, by simp⟩

theorem leftBits_eq (hf : fill ≠ 0 → hasFill = true) (m : Nat) :
    leftBits hasFill (fill % m) = .ok (if hasFill then some (fill % m) else none) := by
  cases hasFill with
  | true => rfl
  | false =>
      obtain rfl : fill = 0 := by
        by_contra hne
        cases hf hne
      simp [leftBits, pure, Except.pure]

def endBits (hasFill : Bool) (fill length : Nat) : Except Fault (Option Nat) :=
  if length % 3 = 0 then .ok none else leftBits hasFill (fill % 2 ^ base64modFillSize length)

theorem endBits_one : endBits hasFill fill 1 = leftBits hasFill (fill % 16) := by simp [endBits, base64modFillSize]

theorem endBits_two : endBits hasFill fill 2 = leftBits hasFill (fill % 4) := by simp [endBits, base64modFillSize]

theorem endBits_eq (hf : fill ≠ 0 → hasFill = true) (length : Nat) :
    endBits hasFill fill length = .ok
      (if hasFill ∧ length % 3 ≠ 0 then some (fill % 2 ^ base64modFillSize length) else none) := by
  rw [endBits]
  split_ifs with hzero hboth hboth
  · exact absurd hzero hboth.2
  · rfl
  · rw [leftBits_eq hf, if_pos hboth.1]
  · rw [leftBits_eq hf, if_neg fun hfill => hboth ⟨hfill, hzero⟩]

theorem decodeLoop_encode (he : Decodes encode) (hp : Pads pad) :
    ∀ (src : Bytes) {fuel off : Nat} (dst : Bytes), src.length < fuel → off % 4 = 0 →
      ∃ p, decodeLoop hasFill fuel ⟨funcEncode padding encode pad fill src, off⟩ dst = (do
          let left ← endBits hasFill fill src.length
          return (dst ++ src, left, p)) ∧
        (padding = true ∨ p.ptr ≠ [] → p.checkPadding = .ok ())
  | _, 0, _, _, hfuel, _ => absurd hfuel (Nat.not_lt_zero _)
  | [], fuel + 1, off, dst, _, hoff => by
      refine ⟨⟨[], off⟩, ?_, fun _ => checkPadding_nil hoff⟩
      rw [List.append_nil]
      rfl
  | [c], fuel + 1, off, dst, _, hoff => by
      have hc := c.toNat_lt
      obtain ⟨p, hstop, hcheck⟩ : ∃ p, skipBlanks (if padding then List.replicate 2 pad else [])
        (off + 2) = (0o100, p) ∧ _ :=
        hp.stop (Nat.le_refl 2) (by omega)
      have hbits : (c.toNat % 4 * 16 + fill % 16) % 16 = fill % 16 := by omega
      have hbyte : c.toNat / 4 * 4 + (c.toNat % 4 * 16 + fill % 16) / 16 = c.toNat := by omega
      have hend : endBits hasFill fill [c].length = leftBits hasFill (fill % 16) := endBits_one
      refine ⟨p, ?_, hcheck⟩
      rw [funcEncode_one, decodeLoop_one he (by omega) (by omega) hstop, hbits, hbyte, UInt8.ofNat_toNat, hend]
  | [c, d], fuel + 1, off, dst, _, hoff => by
      have hc := c.toNat_lt
      have hd := d.toNat_lt
      obtain ⟨p, hstop, hcheck⟩ : ∃ p, skipBlanks (if padding then List.replicate 1 pad else [])
        (off + 3) = (0o100, p) ∧ _ :=
        hp.stop (by decide) (by omega)
      have hbits : (d.toNat % 16 * 4 + fill % 4) % 4 = fill % 4 := by omega
      have hbyte₁ : c.toNat / 4 * 4 + (c.toNat % 4 * 16 + d.toNat / 16) / 16 = c.toNat := by omega
      have hbyte₂ : (c.toNat % 4 * 16 + d.toNat / 16) % 16 * 16 + (d.toNat % 16 * 4 + fill % 4) / 4 = d.toNat := by omega
      have hend : endBits hasFill fill [c, d].length = leftBits hasFill (fill % 4) := endBits_two
      refine ⟨p, ?_, hcheck⟩
      rw [funcEncode_two, decodeLoop_two he (by omega) (by omega) (by omega) hstop, hbits, hbyte₁,
        hbyte₂, UInt8.ofNat_toNat, UInt8.ofNat_toNat, hend]
  | c :: d :: e :: src, fuel + 1, off, dst, hfuel, hoff => by
      have hc := c.toNat_lt
      have hd := d.toNat_lt
      have he' := e.toNat_lt
      have hlen : src.length < fuel := by
        simp only [List.length_cons] at hfuel
        omega
      obtain ⟨p, hrun, hcheck⟩ := decodeLoop_encode he hp src (dst ++ [c, d, e]) hlen (by omega : (off + 4) % 4 = 0)
      have hbyte₁ : c.toNat / 4 * 4 + (c.toNat % 4 * 16 + d.toNat / 16) / 16 = c.toNat := by omega
      have hbyte₂ : (c.toNat % 4 * 16 + d.toNat / 16) % 16 * 16 + (d.toNat % 16 * 4 + e.toNat / 64) / 4 = d.toNat := by omega
      have hbyte₃ : (d.toNat % 16 * 4 + e.toNat / 64) % 4 * 64 + e.toNat % 64 = e.toNat := by omega
      have hmod : (c :: d :: e :: src).length % 3 = src.length % 3 := by
        simp only [List.length_cons]
        omega
      have hend : endBits hasFill fill (c :: d :: e :: src).length = endBits hasFill fill src.length := by
        rw [endBits, endBits, base64modFillSize, base64modFillSize, hmod]
      refine ⟨p, ?_, hcheck⟩
      rw [funcEncode_three, decodeLoop_group he (by omega) (by omega) (by omega) (by omega), hbyte₁, hbyte₂, hbyte₃,
        UInt8.ofNat_toNat, UInt8.ofNat_toNat, UInt8.ofNat_toNat, hrun, hend, List.append_assoc]
      rfl

theorem base64modDecode_funcEncode (he : Decodes encode) (hp : Pads pad) (src : Bytes) :
    base64modDecode (funcEncode padding encode pad fill src) padding hasFill = (do
      let left ← endBits hasFill fill src.length
      return (src, left)) := by
  have hlen : src.length < (funcEncode padding encode pad fill src).length + 1 := by
    rw [length_funcEncode]
    unfold base64modEncodedSize
    split_ifs <;> omega
  obtain ⟨p, hrun, hcheck⟩ := @decodeLoop_encode _ _ padding hasFill fill he hp src _ _ [] hlen (rfl : 0 % 4 = 0)
  unfold base64modDecode
  rw [hrun]
  cases endBits hasFill fill src.length with
  | error e => rfl
  | ok left =>
      rw [ok_bind, ok_bind]
      dsimp only [pure, Except.pure]
      rw [ok_bind]
      dsimp only
      split_ifs with hpad
      · rw [hcheck hpad, ok_bind]
        rfl
      · rfl

theorem base64modDecode_encode (he : Decodes encode) (hp : Pads pad) (hf : fill ≠ 0 → hasFill = true) (src : Bytes) :
    ∃ left, base64modDecode (funcEncode padding encode pad fill src) padding hasFill = .ok (src, left) ∧
      (hasFill = true → src.length % 3 ≠ 0 → left = some (fill % 2 ^ base64modFillSize src.length)) := by
  refine ⟨if hasFill ∧ src.length % 3 ≠ 0 then some (fill % 2 ^ base64modFillSize src.length)
    else none, ?_, fun hfill hrem => if_pos ⟨hfill, hrem⟩⟩
  rw [base64modDecode_funcEncode he hp, endBits_eq hf]
  rfl

end UnixCommons.String.Base64

/-!
## base64 の標準形の補題

一つの表の文字と、その表の詰める文字だけからなる文字列が受け入れられるのは、標準の符号の後に、四の倍数の詰める文字が続く時だけである。
-/

namespace UnixCommons.String.Base64

open Lib AsciiStringManip

variable {encode : Nat → UInt8} {pad b : UInt8} {Extra : Nat → Prop} {fuel off k j x y z w : Nat}
    {ptr dst rest out d s : Bytes}

def InAlphabet (encode : Nat → UInt8) (s : Bytes) : Prop := ∀ b ∈ s, ∃ x < 64, b = encode x

structure PadsExtra (encode : Nat → UInt8) (pad : UInt8) (Extra : Nat → Prop) : Prop where
  not_encode : ∀ x < 64, encode x ≠ pad
  skip : ∀ {k} off, ∃ p, skipBlanks (List.replicate (k + 1) pad) off = (0o100, p)
  stop : ∀ k off, off % 4 ≠ 1 → ∃ p, skipBlanks (List.replicate k pad) off = (0o100, p) ∧
    (p.checkPadding = .ok () ↔ ∃ j, Extra j ∧ k = (4 - off % 4) % 4 + 4 * j)

theorem checkPadding_nil_iff : Iterator.checkPadding ⟨[], off⟩ = .ok () ↔ off % 4 = 0 := by
  constructor
  · intro h
    by_contra hne
    unfold Iterator.checkPadding at h
    rw [if_pos (.inl ⟨by simp only [List.length_nil]; omega, by simp only [List.length_nil]; omega⟩)] at h
    cases h
  · exact checkPadding_nil

theorem padsExtra_equals : PadsExtra stdEncode (ascii '=') fun _ => True := by
  refine ⟨by decide, fun off => ⟨_, skipBlanks_blank (by decide)⟩, ?_⟩
  intro k off _
  refine ⟨⟨[], off + k⟩, skipBlanks_blank (by decide), ?_⟩
  rw [checkPadding_nil_iff]
  constructor
  · intro h
    exact ⟨(k - (4 - off % 4) % 4) / 4, trivial, by omega⟩
  · rintro ⟨j, -, rfl⟩
    omega

theorem padsExtra_mod : PadsExtra modEncode modPadding (· ≤ 1) := by
  have hskip : ∀ {k} off, skipBlanks (List.replicate (k + 1) modPadding) off =
      (0o100, ⟨List.replicate (k + 1) modPadding, off⟩) := by
    intro k off
    have hget : Iterator.get ⟨modPadding :: List.replicate k modPadding, off⟩ = 0o100 := rfl
    rw [List.replicate_succ, skipBlanks, hget, if_neg (by decide)]
  refine ⟨by decide, fun off => ⟨_, hskip off⟩, ?_⟩
  intro k off hoff
  refine ⟨⟨List.replicate k modPadding, off⟩, ?_, ?_⟩
  · cases k with
    | zero => rfl
    | succ k => exact hskip off
  · unfold Iterator.checkPadding
    simp only [List.length_replicate]
    have hdots : ∀ k ≤ 6, strncmpEq k (List.replicate k modPadding) (List.replicate 6 (ascii '.')) = true := by decide
    constructor
    · intro h
      split_ifs at h with hbad
      have hlen : k = (4 - off % 4) % 4 ∨ k = (4 - off % 4) % 4 + 4 := by
        by_contra hne
        exact hbad (.inl (by omega))
      rcases hlen with hk | hk
      · exact ⟨0, by decide, hk⟩
      · exact ⟨1, by decide, hk⟩
    · rintro ⟨j, hj, hk⟩
      have hle : j ≤ 1 := hj
      rw [if_neg]
      · rfl
      · rintro (hlen | hcmp)
        · omega
        · exact hcmp.1 (hdots k (by omega))

theorem Decodes.inj (h : Decodes encode) (hx : x < 64) (hy : y < 64) : encode x = encode y ↔ x = y := by
  constructor
  · intro heq
    have hvalue := congrArg (fun b : UInt8 => decodeTable.getD b.toNat 0) heq
    simpa only [h x hx, h y hy] using hvalue
  · rintro rfl
    rfl

theorem PadsExtra.replicate_ne (h : PadsExtra encode pad Extra) (hx : x < 64) : List.replicate k pad ≠ encode x :: rest := by
  cases k with
  | zero => simp
  | succ k =>
      rw [List.replicate_succ]
      intro heq
      exact h.not_encode x hx (List.cons.inj heq).1.symm

theorem replicate_inj {m : Nat} : List.replicate k pad = List.replicate m pad ↔ k = m := by
  constructor
  · intro h
    simpa using congrArg List.length h
  · rintro rfl
    rfl

theorem funcEncode_padded_one (c : UInt8) :
    funcEncode true encode pad 0 [c] = encode (c.toNat / 4) :: encode (c.toNat % 4 * 16) :: List.replicate 2 pad := by
  rw [funcEncode_one, if_pos rfl]
  rfl

theorem funcEncode_padded_two (c e : UInt8) :
    funcEncode true encode pad 0 [c, e] =
      encode (c.toNat / 4) :: encode (c.toNat % 4 * 16 + e.toNat / 16) :: encode
      (e.toNat % 16 * 4) :: List.replicate 1 pad := by
  rw [funcEncode_two, if_pos rfl]
  rfl

theorem Decodes.cons_iff (h : Decodes encode) (hx : x < 64) (hy : y < 64) :
    encode x :: rest = encode y :: s ↔ x = y ∧ rest = s := by
  rw [List.cons.injEq, h.inj hx hy]

theorem PadsExtra.cons_ne (h : PadsExtra encode pad Extra) (hx : x < 64) : encode x :: rest ≠ List.replicate k pad :=
  fun heq => h.replicate_ne hx heq.symm

section Inversion

/-! 端数のある残りが、標準の符号と余りの詰める文字になる場合。 -/

variable (he : Decodes encode) (hp : PadsExtra encode pad Extra)

include hp in
theorem padded_nil_iff : List.replicate k pad = funcEncode true encode pad 0 d ++ List.replicate
    (4 * j) pad ↔ d = [] ∧ k = 4 * j := by
  match d with
  | [] =>
      rw [funcEncode, List.nil_append, replicate_inj]
      simp
  | [c] =>
      have hc := c.toNat_lt
      rw [funcEncode_padded_one]
      exact iff_of_false (hp.replicate_ne (by omega)) (by simp)
  | [c, e] =>
      have hc := c.toNat_lt
      rw [funcEncode_padded_two]
      exact iff_of_false (hp.replicate_ne (by omega)) (by simp)
  | c :: e :: f :: d =>
      have hc := c.toNat_lt
      rw [funcEncode_three]
      exact iff_of_false (hp.replicate_ne (by omega)) (by simp)

include he hp in
theorem padded_one_ne (hx : x < 64) :
    encode x :: List.replicate k pad ≠ funcEncode true encode pad 0 d ++ List.replicate (4 * j) pad := by
  match d with
  | [] => exact hp.cons_ne hx
  | [c] =>
      have hc := c.toNat_lt
      rw [funcEncode_padded_one, List.cons_append, List.cons_append, Ne, he.cons_iff hx (by omega)]
      exact fun h => hp.replicate_ne (by omega) h.2
  | [c, e] =>
      have hc := c.toNat_lt
      have he' := e.toNat_lt
      rw [funcEncode_padded_two, List.cons_append, List.cons_append, Ne, he.cons_iff hx (by omega)]
      exact fun h => hp.replicate_ne (by omega) h.2
  | c :: e :: f :: d =>
      have hc := c.toNat_lt
      have he' := e.toNat_lt
      rw [funcEncode_three, List.cons_append, List.cons_append, Ne, he.cons_iff hx (by omega)]
      exact fun h => hp.replicate_ne (by omega) h.2

include he hp in
theorem padded_two_iff (hx : x < 64) (hy : y < 64) :
    encode x :: encode y :: List.replicate k pad = funcEncode true encode pad 0 d ++ List.replicate (4 * j) pad ↔
      k = 2 + 4 * j ∧ ∃ c : UInt8, d = [c] ∧ x = c.toNat / 4 ∧ y = c.toNat % 4 * 16 := by
  match d with
  | [] => exact iff_of_false (hp.cons_ne hx) (by simp)
  | [c] =>
      have hc := c.toNat_lt
      rw [funcEncode_padded_one, List.cons_append, List.cons_append, he.cons_iff hx (by omega),
        he.cons_iff hy (by omega), List.replicate_append_replicate, replicate_inj]
      constructor
      · rintro ⟨h₁, h₂, h₃⟩
        exact ⟨h₃, c, rfl, h₁, h₂⟩
      · rintro ⟨h₃, _, ⟨⟩, h₁, h₂⟩
        exact ⟨h₁, h₂, h₃⟩
  | [c, e] =>
      have hc := c.toNat_lt
      have he' := e.toNat_lt
      rw [funcEncode_padded_two, List.cons_append, List.cons_append, he.cons_iff hx (by omega), he.cons_iff hy (by omega)]
      exact iff_of_false (fun h => hp.replicate_ne (by omega) h.2.2) (by simp)
  | c :: e :: f :: d =>
      have hc := c.toNat_lt
      have he' := e.toNat_lt
      have hf := f.toNat_lt
      rw [funcEncode_three, List.cons_append, List.cons_append, he.cons_iff hx (by omega), he.cons_iff hy (by omega)]
      exact iff_of_false (fun h => hp.replicate_ne (by omega) h.2.2) (by simp)

include he hp in
theorem padded_one_ne_three (hx : x < 64) (hy : y < 64) (hz : z < 64) (c : UInt8) :
    encode x :: encode y :: encode z :: rest ≠
      funcEncode true encode pad 0 [c] ++ List.replicate (4 * j) pad := by
  intro h
  have hc := c.toNat_lt
  rw [funcEncode_padded_one, List.cons_append, List.cons_append, he.cons_iff hx (by omega),
    he.cons_iff hy (by omega), List.replicate_append_replicate] at h
  exact hp.cons_ne hz h.2.2

include he hp in
theorem padded_three_iff (hx : x < 64) (hy : y < 64) (hz : z < 64) :
    encode x :: encode y :: encode z :: List.replicate k pad = funcEncode true encode pad 0 d ++
      List.replicate (4 * j) pad ↔ k = 1 + 4 * j ∧ ∃ c e : UInt8, d = [c, e] ∧ x = c.toNat / 4 ∧
      y = c.toNat % 4 * 16 + e.toNat / 16 ∧ z = e.toNat % 16 * 4 := by
  match d with
  | [] => exact iff_of_false (hp.cons_ne hx) (by simp)
  | [c] => exact iff_of_false (padded_one_ne_three he hp hx hy hz c) (by simp)
  | [c, e] =>
      have hc := c.toNat_lt
      have he' := e.toNat_lt
      rw [funcEncode_padded_two, List.cons_append, List.cons_append, List.cons_append, he.cons_iff hx (by omega),
        he.cons_iff hy (by omega), he.cons_iff hz (by omega), List.replicate_append_replicate, replicate_inj]
      constructor
      · rintro ⟨h₁, h₂, h₃, h₄⟩
        exact ⟨h₄, c, e, rfl, h₁, h₂, h₃⟩
      · rintro ⟨h₄, _, _, ⟨⟩, h₁, h₂, h₃⟩
        exact ⟨h₁, h₂, h₃, h₄⟩
  | c :: e :: f :: d =>
      have hc := c.toNat_lt
      have he' := e.toNat_lt
      have hf := f.toNat_lt
      rw [funcEncode_three, List.cons_append, List.cons_append, List.cons_append, List.cons_append,
        he.cons_iff hx (by omega), he.cons_iff hy (by omega), he.cons_iff hz (by omega)]
      exact iff_of_false (fun h => hp.replicate_ne (by omega) h.2.2.2) (by simp)

include he hp in
theorem padded_four_iff (hx : x < 64) (hy : y < 64) (hz : z < 64) (hw : w < 64) :
    encode x :: encode y :: encode z :: encode w :: rest = funcEncode true encode pad 0 d ++ List.replicate (4 * j) pad ↔
      ∃ (c e f : UInt8) (d' : Bytes), d = c :: e :: f :: d' ∧ x = c.toNat / 4 ∧ y = c.toNat % 4 * 16 + e.toNat / 16 ∧
        z = e.toNat % 16 * 4 + f.toNat / 64 ∧ w = f.toNat % 64 ∧
          rest = funcEncode true encode pad 0 d' ++ List.replicate (4 * j) pad := by
  match d with
  | [] => exact iff_of_false (hp.cons_ne hx) (by simp)
  | [c] => exact iff_of_false (padded_one_ne_three he hp hx hy hz c) (by simp)
  | [c, e] =>
      have hc := c.toNat_lt
      have he' := e.toNat_lt
      rw [funcEncode_padded_two, List.cons_append, List.cons_append, List.cons_append, he.cons_iff hx (by omega),
        he.cons_iff hy (by omega), he.cons_iff hz (by omega), List.replicate_append_replicate]
      exact iff_of_false (fun h => hp.cons_ne hw h.2.2.2) (by simp)
  | c :: e :: f :: d =>
      have hc := c.toNat_lt
      have he' := e.toNat_lt
      have hf := f.toNat_lt
      rw [funcEncode_three, List.cons_append, List.cons_append, List.cons_append, List.cons_append,
        he.cons_iff hx (by omega),
        he.cons_iff hy (by omega), he.cons_iff hz (by omega), he.cons_iff hw (by omega)]
      constructor
      · rintro ⟨h₁, h₂, h₃, h₄, h₅⟩
        exact ⟨c, e, f, d, rfl, h₁, h₂, h₃, h₄, h₅⟩
      · rintro ⟨_, _, _, _, ⟨⟩, h₁, h₂, h₃, h₄, h₅⟩
        exact ⟨h₁, h₂, h₃, h₄, h₅⟩

end Inversion

theorem decodeLoop_stop {p : Iterator} (h : skipBlanks ptr off = (0o100, p)) :
    decodeLoop false (fuel + 1) ⟨ptr, off⟩ dst = .ok (dst, none, p) := by
  rw [decodeLoop]
  split
  · next hnil =>
    obtain rfl : ptr = [] := hnil
    obtain ⟨-, rfl⟩ := Prod.mk.inj h
    rfl
  · simp only [h]
    rfl

theorem decodeLoop_single (he : Decodes encode) (hx : x < 64) {p : Iterator} (h : skipBlanks ptr (off + 1) = (0o100, p)) :
    decodeLoop false (fuel + 1) ⟨encode x :: ptr, off⟩ dst = .error .unexpectedSymbol := by
  rw [decodeLoop, if_neg (by simp)]
  simp only [skipBlanks_encode he hx, Iterator.next, List.tail_cons, h]
  rw [if_neg (by omega), if_pos trivial]
  rfl

theorem leftBits_bind {m : Nat} {bytes : Bytes} {left : Option Nat} {p q : Iterator} :
    (do
      let left ← leftBits false m
      return (bytes, left, p)) = (.ok (out, left, q) : Except Fault _) ↔ m = 0 ∧ left = none ∧ out = bytes ∧ q = p := by
  unfold leftBits
  by_cases hm : m = 0
  · subst hm
    constructor
    · intro h
      cases h
      exact ⟨rfl, rfl, rfl, rfl⟩
    · rintro ⟨-, rfl, rfl, rfl⟩
      rfl
  · refine iff_of_false ?_ fun h => hm h.1
    rw [if_neg (by simp), if_pos hm]
    intro h
    cases h

theorem byte_eq {v : Nat} {c : UInt8} (h : v = c.toNat) : UInt8.ofNat v = c := by
  rw [h, UInt8.ofNat_toNat]

theorem toNat_byte {v : Nat} (h : v < 256) : (UInt8.ofNat v).toNat = v := by
  rw [UInt8.toNat_ofNat', Nat.mod_eq_of_lt h]

section Canonical

variable (he : Decodes encode) (hp : PadsExtra encode pad Extra)

include he hp in
theorem decodeLoop_canonical : ∀ (s : Bytes) {fuel off : Nat} (dst : Bytes), s.length < fuel →
    off % 4 = 0 → InAlphabet encode s → ∀ (out : Bytes) (left : Option Nat),
      (∃ p, decodeLoop false fuel ⟨s ++ List.replicate k pad, off⟩ dst = .ok (out, left, p) ∧ p.checkPadding = .ok ()) ↔
        left = none ∧ ∃ d j, out = dst ++ d ∧ Extra j ∧
          s ++ List.replicate k pad = funcEncode true encode pad 0 d ++ List.replicate (4 * j) pad
  | _, 0, _, _, hfuel, _, _, _, _ => absurd hfuel (Nat.not_lt_zero _)
  | [], fuel + 1, off, dst, _, hoff, _, out, left => by
      obtain ⟨p, hstop, hcheck⟩ := hp.stop k off (by omega)
      rw [List.nil_append, decodeLoop_stop hstop]
      constructor
      · rintro ⟨q, hrun, hq⟩
        cases hrun
        obtain ⟨j, hj, hk⟩ := hcheck.mp hq
        exact ⟨rfl, [], j, (List.append_nil _).symm, hj, (padded_nil_iff hp).mpr ⟨rfl, by omega⟩⟩
      · rintro ⟨rfl, d, j, rfl, hj, heq⟩
        obtain ⟨rfl, hk⟩ := (padded_nil_iff hp).mp heq
        rw [List.append_nil]
        exact ⟨p, rfl, hcheck.mpr ⟨j, hj, by omega⟩⟩
  | [a], fuel + 1, off, dst, _, hoff, hs, out, left => by
      obtain ⟨x, hx, rfl⟩ := hs a List.mem_cons_self
      obtain ⟨p, hstop⟩ : ∃ p, skipBlanks (List.replicate k pad) (off + 1) = (0o100, p) := by
        cases k with
        | zero => exact ⟨_, rfl⟩
        | succ k => exact hp.skip (off + 1)
      rw [List.singleton_append, decodeLoop_single he hx hstop]
      refine iff_of_false (fun h => by simp at h) ?_
      rintro ⟨-, d, j, -, -, heq⟩
      exact padded_one_ne he hp hx heq
  | [a, b], fuel + 1, off, dst, _, hoff, hs, out, left => by
      obtain ⟨x, hx, rfl⟩ := hs a List.mem_cons_self
      obtain ⟨y, hy, rfl⟩ := hs b (by simp)
      obtain ⟨p, hstop, hcheck⟩ := hp.stop k (off + 2) (by omega)
      rw [List.cons_append, List.singleton_append, decodeLoop_one he hx hy hstop]
      constructor
      · rintro ⟨q, hrun, hq⟩
        obtain ⟨hbits, hleft, rfl, rfl⟩ := leftBits_bind.mp hrun
        obtain ⟨j, hj, hk⟩ := hcheck.mp hq
        refine ⟨hleft, _, j, rfl, hj, (padded_two_iff he hp hx hy).mpr ⟨by omega, _, rfl, ?_⟩⟩
        rw [toNat_byte (by omega)]
        omega
      · rintro ⟨hleft, d, j, rfl, hj, heq⟩
        obtain ⟨hk, c, rfl, hxc, hyc⟩ := (padded_two_iff he hp hx hy).mp heq
        refine ⟨p, leftBits_bind.mpr ⟨by omega, hleft, ?_, rfl⟩, hcheck.mpr ⟨j, hj, by omega⟩⟩
        rw [byte_eq (c := c) (by omega)]
  | [a, b, c], fuel + 1, off, dst, _, hoff, hs, out, left => by
      obtain ⟨x, hx, rfl⟩ := hs a List.mem_cons_self
      obtain ⟨y, hy, rfl⟩ := hs b (by simp)
      obtain ⟨z, hz, rfl⟩ := hs c (by simp)
      obtain ⟨p, hstop, hcheck⟩ := hp.stop k (off + 3) (by omega)
      rw [List.cons_append, List.cons_append, List.singleton_append, decodeLoop_two he hx hy hz hstop]
      constructor
      · rintro ⟨q, hrun, hq⟩
        obtain ⟨hbits, hleft, rfl, rfl⟩ := leftBits_bind.mp hrun
        obtain ⟨j, hj, hk⟩ := hcheck.mp hq
        refine ⟨hleft, _, j, rfl, hj, (padded_three_iff he hp hx hy hz).mpr ⟨by omega, _, _, rfl, ?_⟩⟩
        rw [toNat_byte (by omega), toNat_byte (by omega)]
        omega
      · rintro ⟨hleft, d, j, rfl, hj, heq⟩
        obtain ⟨hk, c, e, rfl, hxc, hyc, hzc⟩ := (padded_three_iff he hp hx hy hz).mp heq
        have hc := c.toNat_lt
        have he' := e.toNat_lt
        refine ⟨p, leftBits_bind.mpr ⟨by omega, hleft, ?_, rfl⟩, hcheck.mpr ⟨j, hj, by omega⟩⟩
        rw [byte_eq (c := c) (by omega), byte_eq (c := e) (by omega)]
  | a :: b :: c :: e :: s, fuel + 1, off, dst, hfuel, hoff, hs, out, left => by
      obtain ⟨x, hx, rfl⟩ := hs a List.mem_cons_self
      obtain ⟨y, hy, rfl⟩ := hs b (by simp)
      obtain ⟨z, hz, rfl⟩ := hs c (by simp)
      obtain ⟨w, hw, rfl⟩ := hs e (by simp)
      have hlen : s.length < fuel := by
        simp only [List.length_cons] at hfuel
        omega
      rw [List.cons_append, List.cons_append, List.cons_append, List.cons_append, decodeLoop_group he hx hy hz hw,
        decodeLoop_canonical s _ hlen (by omega) (fun b hb => hs b (by simp [hb])) out left]
      refine and_congr_right fun _ => ?_
      constructor
      · rintro ⟨d, j, rfl, hj, heq⟩
        refine ⟨_ :: _ :: _ :: d, j,
          by rw [List.append_assoc]; rfl, hj, (padded_four_iff he hp hx hy hz hw).mpr ⟨_, _, _, d, rfl, ?_⟩⟩
        rw [toNat_byte (by omega), toNat_byte (by omega), toNat_byte (by omega)]
        exact ⟨by omega, by omega, by omega, by omega, heq⟩
      · rintro ⟨d, j, rfl, hj, heq⟩
        obtain ⟨c, e, f, d', rfl, hxc, hyc, hzc, hwc, hrest⟩ := (padded_four_iff he hp hx hy hz hw).mp heq
        have hc := c.toNat_lt
        have he' := e.toNat_lt
        have hf := f.toNat_lt
        refine ⟨d', j, ?_, hj, hrest⟩
        rw [byte_eq (c := c) (by omega), byte_eq (c := e) (by omega), byte_eq (c := f) (by omega), List.append_assoc]
        rfl

include he hp in
theorem base64modDecode_canonical (hs : InAlphabet encode s) (left : Option Nat) :
    base64modDecode (s ++ List.replicate k pad) true false = .ok (out, left) ↔
      left = none ∧ ∃ j, Extra j ∧ s ++ List.replicate k pad = funcEncode true encode pad 0 out ++
      List.replicate (4 * j) pad := by
  have hloop := decodeLoop_canonical (k := k) he hp s [] (by simp only [List.length_append]; omega :
    s.length < (s ++ List.replicate k pad).length + 1) (rfl : 0 % 4 = 0) hs out left
  have hrun : base64modDecode (s ++ List.replicate k pad) true false = .ok (out, left) ↔
      ∃ p, decodeLoop false ((s ++ List.replicate k pad).length + 1) ⟨s ++ List.replicate k pad, 0⟩ [] = .ok (out, left, p) ∧
        p.checkPadding = .ok () := by
    unfold base64modDecode
    cases decodeLoop false ((s ++ List.replicate k pad).length + 1) ⟨s ++ List.replicate k pad, 0⟩ [] with
    | error e => simp
    | ok r =>
        obtain ⟨bytes, bits, p⟩ := r
        rw [ok_bind]
        dsimp only
        rw [if_pos (.inl rfl)]
        cases hcheck : p.checkPadding with
        | error e =>
            refine iff_of_false (fun h => by cases h) ?_
            rintro ⟨q, hq, hok⟩
            cases hq
            rw [hcheck] at hok
            cases hok
        | ok u =>
            constructor
            · intro h
              cases h
              exact ⟨p, rfl, hcheck⟩
            · rintro ⟨q, hq, -⟩
              cases hq
              rfl
  rw [hrun, hloop]
  refine and_congr_right fun _ => ?_
  constructor
  · rintro ⟨d, j, rfl, h⟩
    exact ⟨j, h⟩
  · rintro ⟨j, h⟩
    exact ⟨out, j, rfl, h⟩

end Canonical

end UnixCommons.String.Base64
