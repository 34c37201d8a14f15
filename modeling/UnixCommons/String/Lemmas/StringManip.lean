import Mathlib.Data.List.TakeWhile
import Mathlib.Data.List.TakeDrop
import Mathlib.Data.List.GetD
import Mathlib.Data.List.Infix
import UnixCommons.String.StringManip
import UnixCommons.Lib.Spec
import UnixCommons.Lib.Escape

/-! # 文字列の符号化の補題 -/

/-! ## 十六進の符号化の補題 -/

namespace UnixCommons.String.HexEncode

open Lib AsciiStringManip
open Generics (arraySize le_arraySize_iff)

variable {ch major minor : UInt8} {data buf src rest : Bytes} {capacity : Nat} {allow : Bool}

theorem nibbles_eq (ch : UInt8) :
    ch.toNat >>> 4 = ch.toNat / 16 ∧ ch.toNat &&& 0xF = ch.toNat % 16 ∧ (ch.toNat &&& 0xF0 = 0 ↔ ch.toNat < 16) :=
  forall_byte (P := fun n => n >>> 4 = n / 16 ∧ n &&& 0xF = n % 16 ∧ (n &&& 0xF0 = 0 ↔ n < 16)) (by decide +kernel) ch

theorem hexToInt_digit : ∀ x < 16, hexToInt (hexDigits.getD x 0) = x := by
  decide

theorem digit_hexToInt (h : isOwned hexNumber ch = true) : hexToInt ch < 16 ∧ hexDigits.getD (hexToInt ch) 0 = toUpper ch :=
  forall_isOwned (P := fun ch => hexToInt ch < 16 ∧ hexDigits.getD (hexToInt ch) 0 = toUpper ch) (by decide) ch h

theorem hexToChar_eq {x y : Nat} (hx : hexToInt major = x) (hy : hexToInt minor = y)
    (hlt : y < 16) : hexToChar major minor = UInt8.ofNat (x * 16 + y) := by
  unfold hexToChar convert
  rw [hx, hy, ← Nat.shiftLeft_add_eq_or_of_lt (hlt : y < 2 ^ 4), Nat.shiftLeft_eq]

def decodePairs : Bytes → Bytes
  | [] => []
  | [_] => []
  | major :: minor :: data => hexToChar major minor :: decodePairs data

theorem length_decodePairs : ∀ data : Bytes, (decodePairs data).length = data.length / 2
  | [] => rfl
  | [_] => by simp [decodePairs]
  | major :: minor :: data => by
      rw [decodePairs, List.length_cons, length_decodePairs data, List.length_cons, List.length_cons]
      omega

theorem length_encodeLoop (data : Bytes) : (encodeLoop data).length = 2 * data.length := by
  induction data with
  | nil => rfl
  | cons ch data ih =>
      simp only [encodeLoop, List.length_cons, ih]
      omega

theorem decodePairs_encodeLoop (data : Bytes) : decodePairs (encodeLoop data) = data := by
  induction data with
  | nil => rfl
  | cons ch data ih =>
      have hlt := ch.toNat_lt
      obtain ⟨hhigh, hlow, -⟩ := nibbles_eq ch
      have hx := hexToInt_digit (ch.toNat / 16) (by omega)
      have hy := hexToInt_digit (ch.toNat % 16) (by omega)
      rw [encodeLoop, decodePairs, hhigh, hlow, hexToChar_eq hx hy (by omega), Nat.div_add_mod', UInt8.ofNat_toNat, ih]

theorem encodeLoop_decodePairs : ∀ {src : Bytes}, src.length % 2 = 0 →
    (∀ ch ∈ src, isOwned hexNumber ch = true) → encodeLoop (decodePairs src) = src.map toUpper
  | [], _, _ => rfl
  | [_], h, _ => by cases h
  | major :: minor :: src, heven, hdigits => by
      obtain ⟨hx, hmajor⟩ := digit_hexToInt (hdigits major List.mem_cons_self)
      obtain ⟨hy, hminor⟩ := digit_hexToInt (hdigits minor (by simp))
      have hrest := @encodeLoop_decodePairs src (by simp only [List.length_cons] at heven; omega)
        fun ch hch => hdigits ch (by simp [hch])
      obtain ⟨hhigh, hlow, -⟩ := nibbles_eq (hexToChar major minor)
      have hvalue : (hexToChar major minor).toNat = hexToInt major * 16 + hexToInt minor := by
        rw [hexToChar_eq rfl rfl hy, UInt8.toNat_ofNat', Nat.mod_eq_of_lt (by omega)]
      have hdiv : (hexToChar major minor).toNat / 16 = hexToInt major := by omega
      have hmod : (hexToChar major minor).toNat % 16 = hexToInt minor := by omega
      rw [decodePairs, encodeLoop, hhigh, hlow, hdiv, hmod, hmajor, hminor, hrest, List.map_cons, List.map_cons]

theorem hexToBufLoop_eq : ∀ (data buf : Bytes), buf.length ≤ capacity → hexToBufLoop capacity data buf =
    if buf.length + data.length / 2 ≤ capacity then .ok (buf ++ decodePairs data) else .error .outOfBounds
  | [], buf, h => by
      rw [List.length_nil, if_pos (by omega), decodePairs, List.append_nil]
      rfl
  | [_], buf, h => by
      rw [List.length_singleton, if_pos (by omega), decodePairs, List.append_nil]
      rfl
  | major :: minor :: data, buf, h => by
      have hlen : (major :: minor :: data).length / 2 = data.length / 2 + 1 := by
        simp only [List.length_cons]
        omega
      rw [hexToBufLoop, hlen, put]
      by_cases hroom : buf.length < capacity
      · have hrest := hexToBufLoop_eq data (buf ++ [hexToChar major minor])
            (by rw [List.length_append, List.length_singleton]; omega)
        rw [List.length_append, List.length_singleton, List.append_assoc] at hrest
        rw [if_pos hroom]
        refine hrest.trans (if_congr ?_ rfl rfl)
        omega
      · rw [if_neg hroom, if_neg (by omega)]
        rfl

def decodeText (src : Bytes) : Bytes :=
  if src.length % 2 ≠ 0 then UInt8.ofNat (hexToInt (src.headD 0)) :: decodePairs src.tail else decodePairs src

theorem length_decodeText (src : Bytes) : (decodeText src).length = (src.length + 1) / 2 := by
  unfold decodeText
  split
  · rw [List.length_cons, length_decodePairs, List.length_tail]
    omega
  · rw [length_decodePairs]
    omega

theorem hexDecode_eq (h : src.length % 2 = 0 ∨ allow = true) : hexDecode src allow =
    if (src.length + 1) / 2 < 2 ^ 32 then .ok ((src.length + 1) / 2, decodeText src) else .error .outOfBounds := by
  have hsize := length_decodeText src
  have hfits : (src.length + 1) / 2 ≤ arraySize ((src.length + 1) / 2) ↔ _ := le_arraySize_iff
  unfold hexDecode decodeText at *
  by_cases hodd : src.length % 2 ≠ 0
  · simp only [if_pos hodd] at hsize ⊢
    rw [if_neg (by simp [h.resolve_left hodd])]
    rw [List.length_cons, length_decodePairs, List.length_tail] at hsize
    rw [put]
    generalize arraySize ((src.length + 1) / 2) = capacity at hfits ⊢
    rw [List.length_nil, List.nil_append]
    by_cases hroom : 0 < capacity
    · have hloop := @hexToBufLoop_eq capacity src.tail [UInt8.ofNat (hexToInt (src.headD 0))] hroom
      rw [List.length_singleton, List.length_tail] at hloop
      have hbuf : hexToBuf capacity src.tail [UInt8.ofNat (hexToInt (src.headD 0))] = hexToBufLoop capacity src.tail _ :=
        if_neg (by rw [List.length_tail]; omega)
      rw [if_pos hroom]
      change (hexToBuf capacity src.tail _ >>= _) = _
      rw [hbuf, hloop]
      by_cases hlt : (src.length + 1) / 2 < 2 ^ 32
      · rw [if_pos hlt, if_pos (by have := hfits.mpr hlt; omega)]
        rfl
      · rw [if_neg hlt, if_neg (by have := mt hfits.mp hlt; omega)]
        rfl
    · rw [if_neg hroom, if_neg (by rw [← hfits]; omega)]
      rfl
  · simp only [if_neg hodd] at hsize ⊢
    rw [if_neg (fun hand => hodd hand.1)]
    generalize arraySize ((src.length + 1) / 2) = capacity at hfits ⊢
    have hloop := @hexToBufLoop_eq capacity src [] (Nat.zero_le _)
    have hbuf : hexToBuf capacity src [] = hexToBufLoop capacity src [] := if_neg hodd
    change (hexToBuf capacity src [] >>= _) = _
    rw [hbuf, hloop, List.length_nil]
    by_cases hlt : (src.length + 1) / 2 < 2 ^ 32
    · rw [if_pos hlt, if_pos (by have := hfits.mpr hlt; omega)]
      rfl
    · rw [if_neg hlt, if_neg (by have := mt hfits.mp hlt; omega)]
      rfl

theorem hexEncode_false (data : Bytes) : hexEncode data false = encodeLoop data := by
  unfold hexEncode
  split
  · next h => rw [h, encodeLoop]
  · rfl

theorem decodeText_encodeLoop (data : Bytes) : decodeText (encodeLoop data) = data := by
  unfold decodeText
  rw [if_neg (by rw [length_encodeLoop]; omega), decodePairs_encodeLoop]

def stripZeroes (data : Bytes) : Bytes :=
  if data ≠ [] ∧ ∀ ch ∈ data, ch = 0 then [0] else data.dropWhile (· = 0)

theorem decodeText_hexEncode_true (data : Bytes) : decodeText (hexEncode data true) = stripZeroes data := by
  unfold hexEncode stripZeroes
  by_cases hnil : data = []
  · rw [if_pos hnil, hnil]
    rfl
  · rw [if_neg hnil, if_pos rfl]
    cases hdrop : data.dropWhile (· = 0) with
    | nil =>
        have hzero : ∀ ch ∈ data, ch = 0 := fun ch hch => of_decide_eq_true (List.dropWhile_eq_nil_iff.mp hdrop ch hch)
        rw [if_pos ⟨hnil, hzero⟩]
        rfl
    | cons ch rest =>
        have hnot : ¬ (data ≠ [] ∧ ∀ ch ∈ data, ch = 0) := by
          rintro ⟨-, hzero⟩
          rw [List.dropWhile_eq_nil_iff.mpr fun ch hch => decide_eq_true (hzero ch hch)] at hdrop
          cases hdrop
        obtain ⟨-, -, hsmall⟩ := nibbles_eq ch
        rw [if_neg hnot]
        dsimp only
        split
        · next hlow =>
          have hlt := hsmall.mp hlow
          unfold decodeText
          rw [if_pos (by rw [List.length_cons, length_encodeLoop]; omega), List.headD_cons,
            List.tail_cons, decodePairs_encodeLoop, hexToInt_digit _ hlt, UInt8.ofNat_toNat]
        · exact decodeText_encodeLoop (ch :: rest)

end UnixCommons.String.HexEncode

/-! ## URL の符号化の補題 -/

namespace UnixCommons.String.MimeUrl

open Lib AsciiStringManip

variable {ch b : UInt8} {cur rest dst text : Bytes} {strict : Bool} {dest src size : Nat}

def encodeByte (ch : UInt8) : Bytes :=
  if isOwned mime ch then [ch]
  else if ch = ascii ' ' then [ascii '+']
  else [ascii '%', hexDigits.getD ((ch.toNat >>> 4) &&& 0x0F) 0, hexDigits.getD (ch.toNat &&& 0x0F) 0]

theorem flatMap_encodeByte_of_owned {l : Bytes} (h : ∀ ch ∈ l, isOwned mime ch = true) : l.flatMap encodeByte = l := by
  induction l with
  | nil => rfl
  | cons ch l ih =>
      have hch := h ch List.mem_cons_self
      rw [List.flatMap_cons, ih fun x hx => h x (List.mem_cons_of_mem ch hx), encodeByte, if_pos hch]
      rfl

theorem flatMap_encodeByte_split (h : cur.dropWhile (isOwned mime) = ch :: rest) :
    isOwned mime ch = false ∧ cur.flatMap encodeByte = cur.takeWhile
      (isOwned mime) ++ encodeByte ch ++ rest.flatMap encodeByte := by
  have hch : isOwned mime ch = false := by
    have := List.head_dropWhile_not (isOwned mime) (by rw [h]; exact List.cons_ne_nil _ _)
    simpa [h] using this
  refine ⟨hch, ?_⟩
  have hrun : (cur.takeWhile (isOwned mime)).flatMap encodeByte = cur.takeWhile (isOwned mime) :=
    flatMap_encodeByte_of_owned fun x hx => List.mem_takeWhile_imp hx
  calc cur.flatMap encodeByte = (cur.takeWhile (isOwned mime) ++ cur.dropWhile (isOwned mime)).flatMap encodeByte := by
        rw [List.takeWhile_append_dropWhile]
    _ = cur.takeWhile (isOwned mime) ++ encodeByte ch ++ rest.flatMap encodeByte := by
        rw [h, List.flatMap_append, hrun, List.flatMap_cons, List.append_assoc]

theorem encodeLoop_eq (cur : Bytes) : encodeLoop cur = cur.flatMap encodeByte := by
  induction cur using encodeLoop.induct with
  | case1 cur h =>
      rw [encodeLoop]
      split
      · have hrun : cur.takeWhile (isOwned mime) = cur := by
          have := List.takeWhile_append_dropWhile (p := isOwned mime) (l := cur)
          rwa [h, List.append_nil] at this
        rw [hrun, flatMap_encodeByte_of_owned]
        intro x hx
        rw [← hrun] at hx
        exact List.mem_takeWhile_imp hx
      · next heq =>
        rw [h] at heq
        cases heq
  | case2 cur rest h _ ih =>
      obtain ⟨hch, hsplit⟩ := flatMap_encodeByte_split h
      rw [encodeLoop]
      split
      · next heq =>
        rw [h] at heq
        cases heq
      · next heq =>
        rw [h] at heq
        obtain ⟨rfl, rfl⟩ := List.cons.inj heq
        rw [if_pos rfl, ih, hsplit, encodeByte, hch, if_neg (by decide), if_pos rfl, List.append_assoc]
        rfl
  | case3 cur ch rest h _ hne ih =>
      obtain ⟨hch, hsplit⟩ := flatMap_encodeByte_split h
      rw [encodeLoop]
      split
      · next heq =>
        rw [h] at heq
        cases heq
      · next heq =>
        rw [h] at heq
        obtain ⟨rfl, rfl⟩ := List.cons.inj heq
        rw [if_neg hne, ih, hsplit, encodeByte, hch, if_neg (by decide), if_neg hne, List.append_assoc]
        rfl

def IsUrlChar (b : UInt8) : Prop :=
  (0x41 ≤ b.toNat ∧ b.toNat ≤ 0x5A) ∨ (0x61 ≤ b.toNat ∧ b.toNat ≤ 0x7A) ∨
    (0x30 ≤ b.toNat ∧ b.toNat ≤ 0x39) ∨ b ∈ List.map ascii ['_', '*', '.', ',', '-', '+', '%']

instance (b : UInt8) : Decidable (IsUrlChar b) := inferInstanceAs (Decidable (_ ∨ _))

theorem encodeByte_isUrlChar (ch : UInt8) : ∀ b ∈ encodeByte ch, IsUrlChar b := by
  have hdigit : ∀ d < 16, IsUrlChar (hexDigits.getD d 0) := by decide
  have hhigh := hdigit ((ch.toNat >>> 4) &&& 0x0F) (Nat.lt_of_le_of_lt Nat.and_le_right (by decide))
  have hlow := hdigit (ch.toNat &&& 0x0F) (Nat.lt_of_le_of_lt Nat.and_le_right (by decide))
  unfold encodeByte
  split_ifs with howned hspace
  · simpa using forall_isOwned (by decide) ch howned
  · simp only [List.mem_singleton, forall_eq]
    decide
  · simp only [List.forall_mem_cons]
    exact ⟨by decide, hhigh, hlow, by simp⟩

def highDigit (ch : UInt8) : UInt8 := hexDigits.getD ((ch.toNat >>> 4) &&& 0x0F) 0

def lowDigit (ch : UInt8) : UInt8 := hexDigits.getD (ch.toNat &&& 0x0F) 0

theorem hexToChar_digits (ch : UInt8) :
    hexToChar (highDigit ch) (lowDigit ch) = ch ∧ isOwned hexNumber (highDigit ch) = true ∧
      isOwned hexNumber (lowDigit ch) = true := by
  have hdigit : ∀ d < 16, hexToInt (hexDigits.getD d 0) = d ∧ isOwned hexNumber (hexDigits.getD d 0) = true := by decide
  have hlt : (ch.toNat >>> 4) &&& 0x0F < 16 ∧ ch.toNat &&& 0x0F < 16 :=
    ⟨Nat.lt_of_le_of_lt Nat.and_le_right (by decide), Nat.lt_of_le_of_lt Nat.and_le_right (by decide)⟩
  obtain ⟨hhigh, hhex⟩ := hdigit _ hlt.1
  obtain ⟨hlow, hhex'⟩ := hdigit _ hlt.2
  have hjoin : ((ch.toNat >>> 4) &&& 0x0F) <<< 4 ||| (ch.toNat &&& 0x0F) = ch.toNat :=
    forall_byte (P := fun n => ((n >>> 4) &&& 0x0F) <<< 4 ||| (n &&& 0x0F) = n) (by decide +kernel) ch
  refine ⟨?_, hhex, hhex'⟩
  rw [highDigit, lowDigit, hexToChar, hhigh, hlow, hjoin, convert, UInt8.ofNat_toNat]

theorem ne_of_owned (ch : UInt8) : isOwned mime ch = true → ch ≠ ascii '+' ∧ ch ≠ ascii '%' :=
  forall_isOwned (P := fun ch => ch ≠ ascii '+' ∧ ch ≠ ascii '%') (by decide) ch

theorem decodeLoop_encodeByte (ch : UInt8) (rest dst : Bytes) :
    decodeLoop strict (encodeByte ch ++ rest) dst = decodeLoop strict rest (dst ++ [ch]) := by
  unfold encodeByte
  split_ifs with howned hspace
  · obtain ⟨h₁, h₂⟩ := ne_of_owned ch howned
    rw [List.cons_append, decodeLoop, if_neg h₁, if_neg h₂]
    rfl
  · rw [List.cons_append, decodeLoop, if_pos rfl, hspace]
    rfl
  · obtain ⟨hc, hh, hl⟩ := hexToChar_digits ch
    have hcond : ¬ ((highDigit ch :: lowDigit ch :: rest).length < 2 ∨
        ¬ isOwned hexNumber (highDigit ch) = true ∨ ¬ isOwned hexNumber (lowDigit ch) = true) := by
      simp [hh, hl]
    have hstep : decodeLoop strict (ascii '%' :: highDigit ch :: lowDigit ch :: rest) dst =
        decodeLoop strict rest (dst ++ [hexToChar (highDigit ch) (lowDigit ch)]) := by
      rw [decodeLoop, if_neg (by decide), if_pos rfl]
      exact if_neg hcond
    rw [hc] at hstep
    exact hstep

theorem decodeLoop_encode (src dst : Bytes) : decodeLoop strict (src.flatMap encodeByte) dst = .ok (dst ++ src) := by
  induction src generalizing dst with
  | nil =>
      rw [List.flatMap_nil, decodeLoop, List.append_nil]
      rfl
  | cons ch src ih => rw [List.flatMap_cons, decodeLoop_encodeByte, ih, List.append_assoc, List.singleton_append]

theorem take_set_succ (h : dest < text.length) : (text.set dest b).take (dest + 1) = text.take dest ++ [b] := by
  rw [List.take_succ_eq_append_getElem (by simpa using h), List.take_set_of_le (Nat.le_refl _), List.getElem_set_self]

theorem drop_eq_getD_cons (h : src < text.length) : text.drop src = text.getD src 0 :: text.drop (src + 1) := by
  rw [List.drop_eq_getElem_cons h, List.getD_eq_getElem _ _ h]

theorem getD_drop (text : Bytes) (src i : Nat) : (text.drop src).getD i 0 = text.getD (src + i) 0 := by
  simp only [List.getD_eq_getElem?_getD, List.getElem?_drop]

theorem inPlaceLoop_eq (text : Bytes) (dest src size : Nat) (hle : dest ≤ src) (hsize : src + size = text.length) :
    (inPlaceLoop text dest src size >>= fun r => return r.1.take r.2) = decodeLoop true
    (text.drop src) (text.take dest) := by
  induction text, dest, src, size using inPlaceLoop.induct with
  | case1 text dest src =>
      rw [inPlaceLoop, dif_pos rfl, List.drop_eq_nil_of_le (by omega), decodeLoop]
      rfl
  | case2 text dest src size hne size' hplus ih =>
      have hsrc : src < text.length := by omega
      have ih := ih (by omega) (by rw [List.length_set]; omega)
      rw [take_set_succ (by omega), List.drop_set_of_lt (by omega)] at ih
      rw [inPlaceLoop, dif_neg hne, if_pos hplus, drop_eq_getD_cons hsrc, hplus, decodeLoop, if_pos rfl]
      exact ih
  | case3 text dest src size hne size' hplus hpercent hbroken =>
      have hsrc : src < text.length := by omega
      have hcond : ((text.drop (src + 1)).length < 2 ∨ ¬ isOwned hexNumber ((text.drop (src + 1)).getD 0 0) = true ∨
          ¬ isOwned hexNumber ((text.drop (src + 1)).getD 1 0) = true) := by
        rw [getD_drop, getD_drop, List.length_drop]
        exact hbroken.imp_left fun _ => by omega
      rw [inPlaceLoop, dif_neg hne, if_neg hplus, if_pos hpercent, if_pos hbroken,
        drop_eq_getD_cons hsrc, hpercent, decodeLoop, if_neg (by decide), if_pos rfl, if_pos hcond]
      rfl
  | case4 text dest src size hne size' hplus hpercent hbroken ih =>
      have hsrc : src < text.length := by omega
      have ih := ih (by omega) (by rw [List.length_set]; omega)
      have hcond : ¬ ((text.drop (src + 1)).length < 2 ∨ ¬ isOwned hexNumber ((text.drop (src + 1)).getD 0 0) = true ∨
          ¬ isOwned hexNumber ((text.drop (src + 1)).getD 1 0) = true) := by
        rw [getD_drop, getD_drop, List.length_drop]
        exact fun h => hbroken (h.imp_left fun _ => by omega)
      rw [take_set_succ (by omega), List.drop_set_of_lt (by omega)] at ih
      rw [inPlaceLoop, dif_neg hne, if_neg hplus, if_pos hpercent, if_neg hbroken,
        drop_eq_getD_cons hsrc, hpercent, decodeLoop,
        if_neg (by decide), if_pos rfl, if_neg hcond, getD_drop, getD_drop, List.drop_drop]
      exact ih
  | case5 text dest src size hne size' hplus hpercent ih =>
      have hsrc : src < text.length := by omega
      have ih := ih (by omega) (by rw [List.length_set]; omega)
      rw [take_set_succ (by omega), List.drop_set_of_lt (by omega)] at ih
      rw [inPlaceLoop, dif_neg hne, if_neg hplus, if_neg hpercent, drop_eq_getD_cons hsrc,
        decodeLoop, if_neg hplus, if_neg hpercent]
      exact ih

theorem mimeUrlDecodeInPlace_eq (text : Bytes) : mimeUrlDecodeInPlace text = mimeUrlDecode text true := by
  unfold mimeUrlDecodeInPlace mimeUrlDecode
  by_cases h : text.length = 0
  · obtain rfl : text = [] := List.length_eq_zero_iff.mp h
    rw [if_pos h, decodeLoop]
  · rw [if_neg h]
    exact inPlaceLoop_eq text 0 0 text.length (Nat.le_refl _) (Nat.zero_add _)

end UnixCommons.String.MimeUrl

/-!
## CSV の符号化の補題

符号化した項は、区切りと引用符と改行がなければ元のまま、あれば引用符で囲まれ、どちらも RFC 4180 の項である。
-/

namespace UnixCommons.String.CsvEncode

open Lib AsciiStringManip UTF8Handler

variable {separator b : UInt8} {src run dest : Bytes}

def csvDialect (separator : UInt8) (h : separator ≠ ascii '"') : Csv.Dialect UInt8 where
  quote := ascii '"'
  breaks := [ascii '\n', ascii '\r']
  separator := separator
  separator_ne := h

theorem isOwned_nonCsv (hzero : separator ≠ 0) :
    isOwned (nonCsv separator) b = true ↔ b = separator ∨ b = ascii '"' ∨ b = ascii '\n' ∨ b = ascii '\r' := by
  have hset : nonCsv separator = [separator, ascii '"', ascii '\n', ascii '\r'] := by
    unfold nonCsv
    split_ifs with hcomma hsemicolon
    · rw [hcomma]
      rfl
    · rw [hsemicolon]
      rfl
    · have hchars : (nonCsvChars separator).takeWhile (· ≠ 0) = [separator, ascii '"', ascii '\n', ascii '\r'] := by
        rw [nonCsvChars, List.takeWhile_cons_of_pos (by simpa using hzero)]
        rfl
      rw [hchars, charTable, if_neg (fun h => h.2 rfl), charTable, if_neg (by simp [ascii]),
        charTable, if_neg (by simp [ascii]), charTable]
  rw [hset, isOwned, List.contains_iff_mem]
  simp only [List.mem_cons, List.not_mem_nil, or_false]

def quoteByte (b : UInt8) : Bytes := if b = ascii '"' then [ascii '"', ascii '"'] else [b]

theorem quoteLoop_eq (run dest : Bytes) : quoteLoop run dest src = dest ++ run ++ src.flatMap quoteByte := by
  induction src generalizing run dest with
  | nil =>
      unfold quoteLoop
      split_ifs with h
      · simp
      · simp [not_not.mp h]
  | cons b src ih =>
      rw [quoteLoop, List.flatMap_cons, quoteByte]
      split_ifs with h
      · rw [ih, List.append_nil, List.append_assoc]
        rfl
      · rw [ih]
        simp only [List.append_assoc]

theorem escaped_flatMap (h : separator ≠ ascii '"') (src : Bytes) :
    Csv.Escaped (csvDialect separator h) (src.flatMap quoteByte) src := by
  induction src with
  | nil => exact .nil
  | cons b src ih =>
      rw [List.flatMap_cons, quoteByte]
      split_ifs with hb
      · rw [hb]
        exact .quote ih
      · exact .char hb ih

theorem field_csvEncode (hzero : separator ≠ 0) (h : separator ≠ ascii '"') (src : CString) :
    Csv.Field (csvDialect separator h) (csvEncode (some src) separator) src.bytes := by
  rw [csvEncode]
  split_ifs with hany
  · rw [quoteLoop_eq, List.append_nil, List.append_assoc]
    exact .escaped (escaped_flatMap h src.bytes)
  · refine .plain fun b hb => ?_
    have howned : ¬ isOwned (nonCsv separator) b = true := fun howned => hany (List.any_eq_true.mpr ⟨b, hb, howned⟩)
    rw [isOwned_nonCsv hzero, not_or, not_or] at howned
    obtain ⟨hsep, hquote, hbreak⟩ := howned
    refine ⟨hsep, hquote, ?_⟩
    simpa [csvDialect] using hbreak

end UnixCommons.String.CsvEncode

/-! ## JSON と JavaScript の文字列の符号化の補題 -/

namespace UnixCommons.String.JsEncode

open Lib AsciiStringManip UTF8Handler Escape

variable {b c ch : UInt8} {e s t v : Bytes}

def jsonPiece (ch : UInt8) : Bytes :=
  if ¬ isOwned nonJson ch then [ch] else if ch = ascii '\\' then ['\\', '\\'].map ascii else repl.getD ch.toNat []

theorem repl_getElem (ch : UInt8) (h : isOwned nonJson ch = true) (hne : ch ≠ ascii '\\') :
    repl[ch.toNat]? = some (repl.getD ch.toNat []) := by
  have hlt : ch ≠ ascii '\\' → ch.toNat < repl.length :=
    forall_isOwned (P := fun ch => ch ≠ ascii '\\' → ch.toNat < repl.length) (by decide) ch h
  rw [List.getD_eq_getElem?_getD, List.getElem?_eq_getElem (hlt hne)]
  rfl

theorem jsonLoop_eq (run dest : Bytes) : jsonLoop run dest s = some (dest ++ run ++ s.flatMap jsonPiece) := by
  induction s generalizing run dest with
  | nil => rw [jsonLoop, List.flatMap_nil, List.append_nil]
  | cons ch s ih =>
      rw [jsonLoop, List.flatMap_cons, jsonPiece]
      split_ifs with howned hback
      · rw [ih]
        simp only [List.append_assoc, List.append_nil]
      · rw [repl_getElem ch howned hback]
        dsimp only
        rw [ih]
        simp only [List.append_assoc, List.append_nil]
      · rw [ih]
        simp only [List.append_assoc]

theorem jsonEscape_eq (s : Bytes) : jsonEscape s = some (s.flatMap jsonPiece) := jsonLoop_eq [] []

def jsonEscapes : List Bytes := (['\\', '\\'].map ascii) :: repl.filter (· ≠ [])

inductive JsonBody : Bytes → Prop
  | nil : JsonBody []
  | raw {b : UInt8} {s : Bytes} (hcontrol : 0x20 ≤ b.toNat) (hquote : b ≠ ascii '"')
      (hback : b ≠ ascii '\\') (h : JsonBody s) : JsonBody (b :: s)
  | escape {e s : Bytes} (he : e ∈ jsonEscapes) (h : JsonBody s) : JsonBody (e ++ s)

theorem raw_of_not_owned (ch : UInt8) (h : ¬ isOwned nonJson ch = true) : 0x20 ≤ ch.toNat ∧
    ch ≠ ascii '"' ∧ ch ≠ ascii '\\' := by
  have hcontrol : ∀ n < 0x20, isOwned nonJson (UInt8.ofNat n) = true := by decide
  refine ⟨Nat.le_of_not_lt fun hlt => h ?_, fun heq => h ?_, fun heq => h ?_⟩
  · have howned := hcontrol ch.toNat hlt
    rwa [UInt8.ofNat_toNat] at howned
  · rw [heq]
    decide
  · rw [heq]
    decide

theorem jsonPiece_of_owned (ch : UInt8) (h : isOwned nonJson ch = true) :
    jsonPiece ch ∈ jsonEscapes ∧ (∀ b ∈ jsonPiece ch, 0x20 ≤ b.toNat) ∧ unescape json (jsonPiece ch) = some [ch] :=
  forall_isOwned (P := fun ch => jsonPiece ch ∈ jsonEscapes ∧ (∀ b ∈ jsonPiece ch, 0x20 ≤ b.toNat) ∧
    unescape json (jsonPiece ch) = some [ch]) (by decide +kernel) ch h

theorem unescape_json_raw (hcontrol : 0x20 ≤ ch.toNat) (hquote : ch ≠ ascii '"')
    (hback : ch ≠ ascii '\\') : unescape json [ch] = some [ch] := by
  have hraw : json.raw ch = true := decide_eq_true ⟨hcontrol, hquote⟩
  have hscan : scan json .text [ch] = some [.byte ch] := by
    exact (if_neg hback).trans (if_pos hraw)
  rw [unescape, hscan]
  rfl

theorem jsonPiece_spec (ch : UInt8) :
    (∀ s, JsonBody s → JsonBody (jsonPiece ch ++ s)) ∧ (∀ b ∈ jsonPiece ch, 0x20 ≤ b.toNat) ∧
    unescape json (jsonPiece ch) = some [ch] := by
  by_cases howned : isOwned nonJson ch = true
  · obtain ⟨hmem, hcontrol, hvalue⟩ := jsonPiece_of_owned ch howned
    exact ⟨fun s h => .escape hmem h, hcontrol, hvalue⟩
  · obtain ⟨hcontrol, hquote, hback⟩ := raw_of_not_owned ch howned
    rw [jsonPiece, if_pos howned]
    refine ⟨fun s h => .raw hcontrol hquote hback h, ?_, unescape_json_raw hcontrol hquote hback⟩
    intro b hb
    rwa [List.mem_singleton.mp hb]

theorem jsonPieces_spec (s : Bytes) :
    JsonBody (s.flatMap jsonPiece) ∧ (∀ b ∈ s.flatMap jsonPiece, 0x20 ≤ b.toNat) ∧ unescape json
      (s.flatMap jsonPiece) = some s := by
  induction s with
  | nil => exact ⟨.nil, by simp, rfl⟩
  | cons ch s ih =>
      obtain ⟨hbody, hcontrol, hvalue⟩ := ih
      obtain ⟨hpiece, hpieceControl, hpieceValue⟩ := jsonPiece_spec ch
      rw [List.flatMap_cons]
      refine ⟨hpiece _ hbody, ?_, unescape_append_of_eq hpieceValue hvalue⟩
      intro b hb
      rcases List.mem_append.mp hb with hb | hb
      · exact hpieceControl b hb
      · exact hcontrol b hb

def jsForbidden : Bytes := ['"', '\'', '/', '<', '>', '\r', '\n'].map ascii

def JsEscape (e v : Bytes) : Prop :=
  e.head? = some (ascii '\\') ∧ (∀ b ∈ e, b ∉ jsForbidden ∧ b ≠ 0xE2) ∧ unescape javascript e = some v

instance (e v : Bytes) : Decidable (JsEscape e v) := inferInstanceAs (Decidable (_ ∧ _))

def separatorEnds : Bytes := [0xA8, 0xA9]

inductive JsCoded : Bytes → Bytes → Prop
  | nil : JsCoded [] []
  | raw {b : UInt8} {s t : Bytes} (hb : b ∉ jsForbidden) (hback : b ≠ ascii '\\')
      (hline : b = 0xE2 → ∀ c ∈ separatorEnds, ¬ [0x80, c] <+: s) (h : JsCoded s t) : JsCoded (b :: s) (b :: t)
  | escape {e v s t : Bytes} (he : JsEscape e v) (h : JsCoded s t) : JsCoded (v ++ s) (e ++ t)

theorem owned_of_mem : ∀ b ∈ jsForbidden ++ [ascii '\\', 0xE2], isOwned nonJs b = true := forall_mem_bytes (by decide)

theorem not_mem_of_not_owned (ch : UInt8) (h : ¬ isOwned nonJs ch = true) : ch ∉ jsForbidden ∧
    ch ≠ ascii '\\' ∧ ch ≠ 0xE2 := by
  have hmem : ch ∉ jsForbidden ++ [ascii '\\', 0xE2] := fun hmem => h (owned_of_mem ch hmem)
  simpa [not_or] using hmem

theorem jsEscape_of_owned (ch : UInt8) (h : isOwned nonJs ch = true) (hne : ch ≠ 0xE2) :
    JsEscape [ascii '\\', ascii 'x', hexDigits.getD ((ch.toNat >>> 4) &&& 0x0F) 0,
      hexDigits.getD (ch.toNat &&& 0x0F) 0] [ch] :=
  forall_isOwned (P := fun ch => ch ≠ 0xE2 →
    JsEscape [ascii '\\', ascii 'x', hexDigits.getD ((ch.toNat >>> 4) &&& 0x0F) 0,
    hexDigits.getD (ch.toNat &&& 0x0F) 0] [ch]) (by decide +kernel) ch h hne

theorem jsEscape_u2029 : JsEscape u2029 [0xE2, 0x80, 0xA9] := by
  decide +kernel

theorem jsEscape_u2028 : JsEscape u2028 [0xE2, 0x80, 0xA8] := by
  decide +kernel

theorem jsLoop_coded (run dst s : Bytes) : ∃ t, JsCoded s t ∧ jsLoop run dst s = dst ++ run ++ t := by
  induction run, dst, s using jsLoop.induct with
  | case1 run dst => exact ⟨[], .nil, (List.append_nil _).symm⟩
  | case2 run dst ch ptr howned ih =>
      obtain ⟨t, ht, heq⟩ := ih
      obtain ⟨hb, hback, hne⟩ := not_mem_of_not_owned ch howned
      refine ⟨ch :: t, .raw hb hback (fun he => absurd he hne) ht, ?_⟩
      rw [jsLoop.eq_def]
      dsimp only
      rw [if_pos howned, heq]
      simp only [List.append_assoc, List.singleton_append]
  | case3 run dst c₁ c₂ ptr hline howned ih =>
      obtain ⟨t, ht, heq⟩ := ih
      obtain ⟨rfl, rfl⟩ := hline
      refine ⟨u2029 ++ t, .escape jsEscape_u2029 ht, ?_⟩
      rw [jsLoop, if_neg howned, if_pos rfl, if_pos ⟨rfl, rfl⟩, heq]
      simp only [List.append_assoc, List.nil_append]
  | case4 run dst c₁ c₂ ptr hline hline' howned ih =>
      obtain ⟨t, ht, heq⟩ := ih
      obtain ⟨rfl, rfl⟩ := hline'
      refine ⟨u2028 ++ t, .escape jsEscape_u2028 ht, ?_⟩
      rw [jsLoop, if_neg howned, if_pos rfl, if_neg hline, if_pos ⟨rfl, rfl⟩, heq]
      simp only [List.append_assoc, List.nil_append]
  | case5 run dst c₁ c₂ ptr hline hline' howned ih =>
      obtain ⟨t, ht, heq⟩ := ih
      refine ⟨0xE2 :: t, .raw (by decide) (by decide) ?_ ht, ?_⟩
      · intro _ c hc hpre
        obtain ⟨rest, hrest⟩ := hpre
        simp only [List.cons_append, List.nil_append, List.cons.injEq] at hrest
        obtain ⟨rfl, rfl, -⟩ := hrest
        simp only [separatorEnds, List.mem_cons, List.not_mem_nil, or_false] at hc
        rcases hc with rfl | rfl
        · exact hline' ⟨rfl, rfl⟩
        · exact hline ⟨rfl, rfl⟩
      · rw [jsLoop, if_neg howned, if_pos rfl, if_neg hline, if_neg hline', heq]
        simp only [List.append_assoc, List.singleton_append]
  | case6 run dst ptr hptr howned ih =>
      obtain ⟨t, ht, heq⟩ := ih
      refine ⟨0xE2 :: t, .raw (by decide) (by decide) ?_ ht, ?_⟩
      · rintro - c - ⟨rest, hrest⟩
        exact hptr 0x80 c rest hrest.symm
      · rw [jsLoop.eq_def]
        dsimp only
        rw [if_neg howned, if_pos rfl]
        split
        · next c₁ c₂ ptr => exact absurd rfl (hptr c₁ c₂ ptr)
        · rw [heq]
          simp only [List.append_assoc, List.singleton_append]
  | case7 run dst ch ptr howned hne ih =>
      obtain ⟨t, ht, heq⟩ := ih
      refine ⟨_, .escape (v := [ch]) (jsEscape_of_owned ch (not_not.mp howned) hne) ht, ?_⟩
      rw [jsLoop.eq_def]
      dsimp only
      rw [if_neg howned, if_neg hne, heq]
      simp only [List.append_assoc, List.nil_append]

theorem JsCoded.not_mem (h : JsCoded s t) : ∀ b ∈ t, b ∉ jsForbidden := by
  induction h with
  | nil => simp
  | raw hb _ _ _ ih => exact List.forall_mem_cons.mpr ⟨hb, ih⟩
  | escape he _ ih =>
      intro b hb
      rcases List.mem_append.mp hb with hb | hb
      · exact (he.2.1 b hb).1
      · exact ih b hb

theorem unescape_javascript_raw (hback : ch ≠ ascii '\\') : unescape javascript [ch] = some [ch] := by
  have hscan : scan javascript .text [ch] = some [.byte ch] := (if_neg hback).trans (if_pos rfl)
  rw [unescape, hscan]
  rfl

theorem JsCoded.unescape_eq (h : JsCoded s t) : unescape javascript t = some s := by
  induction h with
  | nil => rfl
  | raw _ hback _ _ ih => exact unescape_append_of_eq (unescape_javascript_raw hback) ih
  | escape he _ ih => exact unescape_append_of_eq he.2.2 ih

theorem JsCoded.head_eq (h : JsCoded s (b :: t)) (hb : b ≠ ascii '\\') : ∃ s', s = b :: s' ∧ JsCoded s' t := by
  generalize ht : b :: t = t' at h
  cases h with
  | nil => cases ht
  | raw _ _ _ h =>
      obtain ⟨rfl, rfl⟩ := List.cons.inj ht
      exact ⟨_, rfl, h⟩
  | @escape e v s u he _ =>
      obtain ⟨hhead, -, -⟩ := he
      cases e with
      | nil => cases hhead
      | cons x e =>
          obtain ⟨rfl, -⟩ := List.cons.inj ht
          exact absurd (Option.some.inj hhead) hb

theorem infix_append_iff {sep : Bytes} (he : ∀ b ∈ e, b ≠ 0xE2) : 0xE2 :: sep <:+: e ++ t ↔ 0xE2 :: sep <:+: t := by
  induction e with
  | nil => rfl
  | cons x e ih =>
      obtain ⟨hx, he⟩ := List.forall_mem_cons.mp he
      rw [List.cons_append, List.infix_cons_iff, List.cons_prefix_cons, ih he]
      exact or_iff_right fun h => hx h.1.symm

theorem JsCoded.not_infix (h : JsCoded s t) (hc : c ∈ separatorEnds) : ¬ [0xE2, 0x80, c] <:+: t := by
  have hne : c ≠ ascii '\\' := by
    rintro rfl
    exact absurd hc (by decide)
  induction h with
  | nil => simp
  | @raw b s t _ _ hline h ih =>
      rw [List.infix_cons_iff, List.cons_prefix_cons]
      rintro (⟨hb, rest, rfl⟩ | hinfix)
      · obtain ⟨s', rfl, h'⟩ := h.head_eq (b := 0x80) (by decide)
        obtain ⟨s'', rfl, -⟩ := h'.head_eq hne
        exact hline hb.symm c hc ⟨s'', rfl⟩
      · exact ih hinfix
  | escape he _ ih =>
      rw [infix_append_iff fun b hb => (he.2.1 b hb).2]
      exact ih

end UnixCommons.String.JsEncode
