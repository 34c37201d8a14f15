import UnixCommons.Lib.Bytes

/-!
# ASCII の文字

`AsciiStringManip` の、文字の集合の表、十六進の数字、大文字と小文字への変換の写し。文字はバイトで表す。
-/

namespace UnixCommons.String.AsciiStringManip

open Lib

def ascii (c : Char) : UInt8 := UInt8.ofNat c.toNat

def convert (ch : Nat) : UInt8 := UInt8.ofNat ch

/-! ## 文字の集合 -/

/-- `last` から `till` までの文字。 -/
def charRange (last till : UInt8) : Bytes := (List.range ((till - last).toNat + 1)).map fun i => last + UInt8.ofNat i

/-- `CharTable` の、文字列を読むループ。 -/
def charTable (last : UInt8) : Bytes → Bytes
  | [] => []
  | [ch] => [ch]
  | ch :: till :: str =>
      if ch = ascii '-' ∧ last ≠ 0 then charRange last till ++ charTable till str else ch :: charTable ch (till :: str)

def charCategory (str : List Char) : Bytes := charTable 0 (str.map ascii)

/-- `check_zero` を立てた `CharCategory`。NUL も属する。 -/
def charCategoryZero (str : List Char) : Bytes := 0 :: charCategory str

def isOwned (category : Bytes) (ch : UInt8) : Bool := category.contains ch

theorem forall_isOwned {category : Bytes} {P : UInt8 → Prop} [DecidablePred P]
    (h : category.all (fun b => decide (P b)) = true) (ch : UInt8)
    (hch : isOwned category ch = true) : P ch :=
  forall_mem_bytes h ch (List.contains_iff_mem.mp hch)

def alpha : Bytes := charCategory ['A', '-', 'Z', 'a', '-', 'z']

def number : Bytes := charCategory ['0', '-', '9']

def hexNumber : Bytes := charCategory ['0', '-', '9', 'A', '-', 'F', 'a', '-', 'f']

/-! ## 十六進の数字 -/

def hexDigits : Bytes := List.map ascii ['0', '1', '2', '3', '4', '5', '6', '7', '8', '9', 'A', 'B', 'C', 'D', 'E', 'F']

def charValue (ch : UInt8) : Int := if ch.toNat < 128 then ch.toNat else (ch.toNat : Int) - 256

def hexToInt (ch : UInt8) : Nat :=
  if charValue ch ≤ charValue (ascii '9') then ((charValue ch - charValue (ascii '0')) % 256).toNat
    else (ch.toNat &&& 0x0F) + 9

def hexToChar (major minor : UInt8) : UInt8 := convert ((hexToInt major <<< 4) ||| hexToInt minor)

/-! ## 大文字と小文字 -/

def toUpper (ch : UInt8) : UInt8 := if 0x61 ≤ ch.toNat ∧ ch.toNat ≤ 0x7A then ch - 0x20 else ch

def toLower (ch : UInt8) : UInt8 := if 0x41 ≤ ch.toNat ∧ ch.toNat ≤ 0x5A then ch + 0x20 else ch

theorem toLower_toNat (ch : UInt8) : (toLower ch).toNat = if 0x41 ≤ ch.toNat ∧
    ch.toNat ≤ 0x5A then ch.toNat + 0x20 else ch.toNat := by
  unfold toLower
  split
  · next h =>
    rw [UInt8.toNat_add]
    exact Nat.mod_eq_of_lt (by simp; omega)
  · rfl

theorem toLower_not_upper (ch : UInt8) : ¬ (0x41 ≤ (toLower ch).toNat ∧ (toLower ch).toNat ≤ 0x5A) := by
  rw [toLower_toNat]
  split
  · omega
  · assumption

theorem toLower_toLower (ch : UInt8) : toLower (toLower ch) = toLower ch := if_neg (toLower_not_upper ch)

theorem toLower_eq_iff {b c : UInt8} (hc : c.toNat < 0x41) : toLower b = c ↔ b = c := by
  rw [← UInt8.toNat_inj, ← UInt8.toNat_inj, toLower_toNat]
  split
  · omega
  · rfl

def caselessEqual (str₁ str₂ : Bytes) : Bool := str₁.map toLower = str₂.map toLower

/-- `Caseless::start`。`str` は `begin` で始まる。 -/
def caselessStart (start str : Bytes) : Bool := caselessEqual (str.take start.length) start

end UnixCommons.String.AsciiStringManip
