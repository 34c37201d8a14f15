import UnixCommons.String.Lemmas.Base64
import UnixCommons.String.Lemmas.JsUnicode
import UnixCommons.String.Lemmas.StringManip

/-!
# 文字列の符号化の定理

`StringManip.cpp` の符号化と復号。
-/

namespace UnixCommons.String.MimeUrl

open Lib

/-! ## URL の符号化の定理

符号化した文字列は三つの復号のどれでも元に戻り、その場で書き換える復号は、厳しく検査する写しの復号と、例外も含めて一致する。
-/

theorem mime_url_laws (s t : Bytes) (strict : Bool) :
    mimeUrlDecode (mimeUrlEncode s) strict = .ok s ∧ mimeUrlDecodeInPlace (mimeUrlEncode s) = .ok s ∧
      (∀ b ∈ mimeUrlEncode s, IsUrlChar b) ∧ mimeUrlDecodeInPlace t = mimeUrlDecode t true := by
  have hencode : mimeUrlEncode s = s.flatMap encodeByte := encodeLoop_eq s
  have hdecode : ∀ strict, mimeUrlDecode (mimeUrlEncode s) strict = .ok s := by
    intro strict
    rw [hencode]
    exact decodeLoop_encode s []
  refine ⟨hdecode strict, ?_, ?_, mimeUrlDecodeInPlace_eq t⟩
  · rw [mimeUrlDecodeInPlace_eq]
    exact hdecode true
  · rw [hencode]
    intro b hb
    obtain ⟨ch, -, hch⟩ := List.mem_flatMap.mp hb
    exact encodeByte_isUrlChar ch b hch

end UnixCommons.String.MimeUrl

namespace UnixCommons.String.Base64

open Lib

/-! ## base64 の定理

符号化した文字列は、同じ `padding` で元に戻り、長さは `base64mod_encoded_size` に等しく、詰めたビットも戻る。
-/

/-- どのバイトの並びも、どちらの文字の表でも往復する。`hasFill` は `fill` のポインタを渡すかどうかであり、0 でないビットを詰めたときは渡す。 -/
theorem base64_round_trip (src : Bytes) (padding hasFill : Bool) (fill : UInt8) (h : fill ≠ 0 → hasFill = true) :
    (∃ left, base64modDecode (base64Encode src padding) padding hasFill = .ok (src, left) ∧
        (hasFill = true → src.length % 3 ≠ 0 → left = some (0 % 2 ^ base64modFillSize src.length))) ∧
      (∃ left, base64modDecode (base64modEncode src padding fill) padding hasFill = .ok (src, left) ∧
        (hasFill = true → src.length % 3 ≠ 0 → left = some (fill.toNat % 2 ^ base64modFillSize src.length))) ∧
      (base64Encode src padding).length = base64modEncodedSize src.length padding ∧
      (base64modEncode src padding fill).length = base64modEncodedSize src.length padding := by
  have hfill : fill.toNat ≠ 0 → hasFill = true := fun hne => h fun heq => hne (by rw [heq]; rfl)
  refine ⟨?_, ?_, length_funcEncode src, length_funcEncode src⟩
  · exact base64modDecode_encode decodes_stdEncode pads_equals (by simp) src
  · exact base64modDecode_encode decodes_modEncode pads_mod hfill src

theorem base64_round_trip_example :
    base64modDecode (base64modEncode [0x41, 0x42] true 3) true true = .ok ([0x41, 0x42], some 3) := by
  obtain ⟨left, hrun, hleft⟩ := (base64_round_trip [0x41, 0x42] true true 3 (fun _ => rfl)).2.1
  rw [hrun, hleft rfl (by decide)]
  rfl

end UnixCommons.String.Base64

namespace UnixCommons.String.JsUnicode

open Lib AsciiStringManip UTF8Handler Utf8 XmlEncode

/-! ## JavaScript の文字の表し方の定理 -/

/-- 符号化が成功し、空の `dest` への厳格な復号が元の文字列に戻る。 -/
def RoundTrips (s : Bytes) : Prop :=
  ∃ text, jsUnicodeEncode s = .ok text ∧ jsUnicodeDecode text [] true (ascii '\\') = .ok s

/-- 往復するのは、`U+D700` から `U+D7FF` までの文字を含まない時だけである。復号は、これらを上位の代用符号と取り違える。 -/
theorem js_unicode_round_trip_iff (s : Bytes) (hs : WellFormed s) (h0 : 0 ∉ s) :
    ∃ cs : List Nat, (∀ c ∈ cs, IsScalar c) ∧ s = cs.flatMap encode ∧
      (RoundTrips s ↔ ∀ c ∈ cs, ¬ (0xD700 ≤ c ∧ c ≤ 0xD7FF)) := by
  obtain ⟨cs, hcs, rfl⟩ := hs.exists_scalars
  have hscalars := scalars_of_nonzero hcs h0
  refine ⟨cs, hcs, rfl, ?_⟩
  unfold RoundTrips jsUnicodeDecode
  rw [jsUnicodeEncode_scalars hscalars]
  constructor
  · rintro ⟨_, ⟨⟩, hrun⟩
    rw [decodeLoop_pieces hscalars] at hrun
    split_ifs at hrun with hgood
    exact hgood
  · intro hgood
    exact ⟨_, rfl, by rw [decodeLoop_pieces hscalars, if_pos hgood, List.nil_append]⟩

theorem js_unicode_round_trip_iff_hangul :
    ∃ cs : List Nat, (∀ c ∈ cs, IsScalar c) ∧ [0x61, 0xED, 0x9B, 0xBF] = cs.flatMap encode ∧
      (RoundTrips [0x61, 0xED, 0x9B, 0xBF] ↔ ∀ c ∈ cs, ¬ (0xD700 ≤ c ∧ c ≤ 0xD7FF)) := by
  have hwell : WellFormed [0x61, 0xED, 0x9B, 0xBF] :=
    .cons (isSequence_one.mpr (by decide)) (.cons (isSequence_three.mpr (by decide)) .nil)
  exact js_unicode_round_trip_iff [0x61, 0xED, 0x9B, 0xBF] hwell (by decide)

/-- `U+D700` は、符号化はできても、復号できない。 -/
theorem js_unicode_loses_d700 :
    WellFormed [0xED, 0x9C, 0x80] ∧ jsUnicodeEncode [0xED, 0x9C, 0x80] = .ok
      (['\\', 'u', 'D', '7', '0', '0'].map ascii) ∧ ¬ RoundTrips [0xED, 0x9C, 0x80] := by
  have hencode : jsUnicodeEncode [0xED, 0x9C, 0x80] = .ok (['\\', 'u', 'D', '7', '0', '0'].map ascii) := by decide
  have hdecode : jsUnicodeDecode (['\\', 'u', 'D', '7', '0', '0'].map ascii) [] true (ascii '\\') =
      .error .unpairedSurrogate := by
    decide
  refine ⟨.cons (isSequence_three.mpr (by decide)) .nil, hencode, ?_⟩
  rintro ⟨text, htext, hrun⟩
  rw [hencode] at htext
  cases htext
  rw [hdecode] at hrun
  cases hrun

end UnixCommons.String.JsUnicode

namespace UnixCommons.String.XmlEncode

open Lib Lib.Utf8 AsciiStringManip UTF8Handler

/-! ## XML の符号化の定理

NUL を含まない正しい UTF-8 の文字列は、どの `units` でも符号化して元に戻り、符号化した文字列の記号は参照の始まりだけである。
-/

structure TextRight (units : Nat) (text : Bytes) : Prop where
  no_mark : ascii '<' ∉ text ∧ ascii '>' ∉ text
  amp : ∀ pre post, text = pre ++ ascii '&' :: post → ∃ tag rest, EmittedTag tag ∧ post = tag ++ ascii ';' :: rest
  no_quote : units = 0 ∨ units &&& xuAttribute ≠ 0 → ascii '\'' ∉ text ∧ ascii '"' ∉ text

theorem initUnits_attribute {units : Nat} (h : units = 0 ∨ units &&& xuAttribute ≠ 0) :
    initUnits units &&& xuAttribute ≠ 0 := by
  unfold initUnits
  split
  · decide
  · next hne => exact h.resolve_left hne

theorem textRight_pieces {cs : List Nat} (h : Scalars cs) (units : Nat) : TextRight units
    (cs.flatMap (piece (initUnits units))) := by
  have hchars : ∀ b ∈ cs.flatMap (piece (initUnits units)),
      b ≠ ascii '<' ∧ b ≠ ascii '>' ∧ (initUnits units &&& xuAttribute ≠ 0 → b ≠ ascii '\'' ∧ b ≠ ascii '"') := by
    intro b hb
    obtain ⟨c, hc, hb⟩ := List.mem_flatMap.mp hb
    exact (piece_isPiece _ (h c hc).1.lt (h c hc).2).chars b hb
  refine ⟨⟨fun hb => (hchars _ hb).1 rfl, fun hb => (hchars _ hb).2.1 rfl⟩, fun pre post heq => reference_of_amp h heq, ?_⟩
  intro hunits
  have hattr := initUnits_attribute hunits
  exact ⟨fun hb => ((hchars _ hb).2.2 hattr).1 rfl, fun hb => ((hchars _ hb).2.2 hattr).2 rfl⟩

/-- 往復と、符号化した文字列の条件、`wchar_t` の版との一致。 -/
theorem xml_round_trip (s : CString) (units : Nat) (h : WellFormed s.bytes) :
    ∃ text, xmlEncode s.bytes units = .ok text ∧ xmlDecode text = .ok s.bytes ∧ TextRight units text ∧
      (∃ cs : List Nat, (∀ c ∈ cs, IsScalar c) ∧ s.bytes = cs.flatMap encode) ∧
      ∀ cs : List Nat, (∀ c ∈ cs, IsScalar c) → s.bytes = cs.flatMap encode → xmlEncodeWide cs units = .ok text := by
  obtain ⟨cs, hcs, heq⟩ := h.exists_scalars
  have hs := scalars_of_nonzero hcs (heq ▸ s.nonzero)
  refine ⟨cs.flatMap (piece (initUnits units)), ?_, ?_, textRight_pieces hs units, ⟨cs, hcs, heq⟩, ?_⟩
  · rw [heq]
    exact xmlEncode_scalars hs units
  · rw [heq]
    exact xmlDecode_pieces hs (initUnits units)
  · intro cs' hcs' heq'
    have hs' := scalars_of_nonzero hcs' (heq' ▸ s.nonzero)
    -- 同じ文字列の符号化は一つなので、断片を繋いだものも等しい。
    have hsame := xmlEncode_scalars hs' units
    rw [← heq', heq, xmlEncode_scalars hs units] at hsame
    rw [xmlEncodeWide_scalars hs' units, ← hsame]

theorem xml_round_trip_example :
    WellFormed [0x3C, 0xC3, 0xA9] ∧ ∃ text, xmlEncode [0x3C, 0xC3, 0xA9] 0 = .ok text ∧
      xmlDecode text = .ok [0x3C, 0xC3, 0xA9] := by
  have hwell : WellFormed [0x3C, 0xC3, 0xA9] :=
    .cons (isSequence_one.mpr (by decide)) (.cons (isSequence_two.mpr (by decide)) .nil)
  obtain ⟨text, hencode, hdecode, -⟩ := xml_round_trip ⟨[0x3C, 0xC3, 0xA9], by decide⟩ 0 hwell
  exact ⟨hwell, text, hencode, hdecode⟩

end UnixCommons.String.XmlEncode

/-!
## base64 の標準形の定理

`padding` を立て、`fill` を渡さない復号が受け入れるのは、標準の符号と、その後の余りの詰める文字だけである。
-/

namespace UnixCommons.String.Base64

open Lib AsciiStringManip

inductive Alphabet
  | std
  | mod

def Alphabet.encode : Alphabet → Nat → UInt8
  | .std => stdEncode
  | .mod => modEncode

def Alphabet.padding : Alphabet → UInt8
  | .std => ascii '='
  | .mod => modPadding

def Alphabet.reencode : Alphabet → Bytes → Bytes
  | .std, src => base64Encode src true
  | .mod, src => base64modEncode src true 0

def Alphabet.Extra : Alphabet → Nat → Prop
  | .std, _ => True
  | .mod, j => j ≤ 1

/-- 一つの表の文字に、その表の詰める文字が続く文字列が受け入れられるのは、結果の符号に、余りの詰める文字が続くものである時だけである。 -/
theorem base64_decode_canonical (A : Alphabet) (s dst : Bytes) (k : Nat) (left : Option Nat) (hs : InAlphabet A.encode s) :
    base64modDecode (s ++ List.replicate k A.padding) true false = .ok (dst, left) ↔
      left = none ∧ ∃ j, A.Extra j ∧ s ++ List.replicate k A.padding = A.reencode dst ++
      List.replicate (4 * j) A.padding := by
  cases A with
  | std => exact base64modDecode_canonical decodes_stdEncode padsExtra_equals hs left
  | mod => exact base64modDecode_canonical decodes_modEncode padsExtra_mod hs left

theorem base64_decode_canonical_two :
    base64modDecode (['Q', 'U', 'I'].map ascii ++ List.replicate 5 (ascii '.')) true false = .ok ([0x41, 0x42], none) := by
  have hs : InAlphabet Alphabet.mod.encode (['Q', 'U', 'I'].map ascii) := by
    intro b hb
    simp only [List.map_cons, List.map_nil, List.mem_cons, List.not_mem_nil, or_false] at hb
    rcases hb with rfl | rfl | rfl
    · exact ⟨16, by decide, rfl⟩
    · exact ⟨20, by decide, rfl⟩
    · exact ⟨8, by decide, rfl⟩
  exact (base64_decode_canonical .mod (['Q', 'U', 'I'].map ascii) [0x41, 0x42] 5 none hs).mpr
    ⟨rfl, 1, Nat.le_refl 1, by decide⟩

/-- `QUJD` の後に詰める文字が四つ余っても、どちらの表でも受け入れられる。 -/
theorem base64_decode_extra_padding :
    base64modDecode (['Q', 'U', 'J', 'D', '=', '=', '=', '='].map ascii) true false = .ok ([0x41, 0x42, 0x43], none) ∧
      base64Encode [0x41, 0x42, 0x43] true ≠ ['Q', 'U', 'J', 'D', '=', '=', '=', '='].map ascii ∧
      base64modDecode (['Q', 'U', 'J', 'D', '.', '.', '.', '.'].map ascii) true false = .ok ([0x41, 0x42, 0x43], none) ∧
      base64modEncode [0x41, 0x42, 0x43] true 0 ≠ ['Q', 'U', 'J', 'D', '.', '.', '.', '.'].map ascii := by
  refine ⟨?_, ?_, ?_, ?_⟩ <;> decide

end UnixCommons.String.Base64

/-!
## 十六進の符号化の定理

復号した結果が配列に収まる限り、符号化と復号は互いに逆である。
-/

namespace UnixCommons.String.HexEncode

open Lib AsciiStringManip

/-- 零を除かない符号、先頭の零を除いた符号、偶数の長さの十六進の数字の並びの、それぞれの往復。 -/
theorem hex_inverse_iff (d s : Bytes) (allow : Bool) (heven : s.length % 2 = 0)
    (hdigits : ∀ ch ∈ s, isOwned hexNumber ch = true) :
    (hexDecode (hexEncode d false) allow = .ok (d.length, d) ↔ d.length < 2 ^ 32) ∧
      (hexDecode (hexEncode d true) true = .ok ((stripZeroes d).length, stripZeroes d) ↔
      (stripZeroes d).length < 2 ^ 32) ∧ ((∃ data, hexDecode s allow = .ok (data.length, data) ∧
      hexEncode data false = s.map toUpper) ↔ s.length / 2 < 2 ^ 32) := by
  refine ⟨?_, ?_, ?_⟩
  · have hsize := length_decodeText (encodeLoop d)
    rw [decodeText_encodeLoop] at hsize
    rw [hexEncode_false, hexDecode_eq (.inl (by rw [length_encodeLoop]; omega)), decodeText_encodeLoop, ← hsize]
    split_ifs with hlt
    · exact iff_of_true rfl hlt
    · exact iff_of_false (by simp) hlt
  · have hsize := length_decodeText (hexEncode d true)
    rw [decodeText_hexEncode_true] at hsize
    rw [hexDecode_eq (.inr rfl), decodeText_hexEncode_true, ← hsize]
    split_ifs with hlt
    · exact iff_of_true rfl hlt
    · exact iff_of_false (by simp) hlt
  · have hsize := length_decodeText s
    have hhalf : (s.length + 1) / 2 = s.length / 2 := by omega
    have htext : decodeText s = decodePairs s := if_neg (not_not.mpr heven)
    rw [hexDecode_eq (.inl heven), ← hsize, htext, length_decodePairs]
    split_ifs with hlt
    · refine iff_of_true ⟨decodePairs s, by rw [length_decodePairs], ?_⟩ hlt
      rw [hexEncode_false, encodeLoop_decodePairs heven hdigits]
    · exact iff_of_false (by simp) hlt

theorem hex_inverse_iff_odd :
    hexDecode (hexEncode [0x00, 0x0A, 0xB1] true) true = .ok (2, [0x0A, 0xB1]) ∧
      ∃ data, hexDecode (['a', 'B'].map ascii) false = .ok (data.length, data) ∧
      hexEncode data false = ['A', 'B'].map ascii := by
  obtain ⟨-, hstrip, hupper⟩ := hex_inverse_iff [0x00, 0x0A, 0xB1] (['a', 'B'].map ascii) false rfl
    (forall_mem_bytes (by decide))
  exact ⟨hstrip.mpr (by decide), hupper.mpr (by decide)⟩

/-- `2 ^ 32` バイトの符号の復号は、大きさ 0 の配列に書く。 -/
theorem hex_decode_overruns :
    hexDecode (hexEncode (List.replicate (2 ^ 32) 0xFF) false) false = .error .outOfBounds ∧
      ¬ hexDecode (hexEncode (List.replicate (2 ^ 32) 0xFF) false) false = .ok (2 ^ 32, List.replicate (2 ^ 32) 0xFF) := by
  have hrun : hexDecode (hexEncode (List.replicate (2 ^ 32) 0xFF) false) false = .error .outOfBounds := by
    rw [hexEncode_false, hexDecode_eq (.inl (by rw [length_encodeLoop]; omega)), length_encodeLoop,
      List.length_replicate, if_neg (by decide)]
  refine ⟨hrun, ?_⟩
  rw [hrun]
  exact fun h => by cases h

end UnixCommons.String.HexEncode

/-!
## CSV の符号化の定理

符号化した項を区切りで繋いだ行は、RFC 4180 の構文解析で元の項の並びに戻る。
-/

namespace UnixCommons.String.CsvEncode

open Lib AsciiStringManip UTF8Handler

def csvLine (separator : UInt8) (fields : List CString) : Bytes :=
  List.intercalate [separator] (fields.map fun field => csvEncode (some field) separator)

theorem csv_parse_encode (separator : UInt8) (hzero : separator ≠ 0)
    (hquote : separator ≠ ascii '"') (fields : List CString) (hne : fields ≠ []) :
    Csv.parse (csvDialect separator hquote) (csvLine separator fields) = some (fields.map CString.bytes) := by
  let pairs := fields.map fun field => (csvEncode (some field) separator, field.bytes)
  have hpairs : pairs ≠ [] := fun h => hne (List.map_eq_nil_iff.mp h)
  have hfield : ∀ p ∈ pairs, Csv.Field (csvDialect separator hquote) p.1 p.2 := by
    intro p hp
    obtain ⟨field, -, rfl⟩ := List.mem_map.mp hp
    exact field_csvEncode hzero hquote field
  have hparse := Csv.parse_of_record (Csv.record_intercalate hpairs hfield)
  rw [List.map_map, List.map_map] at hparse
  exact hparse

theorem csv_parse_encode_quotes :
    Csv.parse (csvDialect (ascii ';') (by decide)) (['"', '"', '"', 'a', ';', '"', '"', '"', ';', ';', ','].map ascii) =
      some [['"', 'a', ';', '"'].map ascii, [], [ascii ',']] :=
  csv_parse_encode (ascii ';') (by decide) (by decide)
    [⟨['"', 'a', ';', '"'].map ascii, by decide⟩, ⟨[], by decide⟩, ⟨[ascii ','], by decide⟩] (List.cons_ne_nil _ _)

end UnixCommons.String.CsvEncode

/-!
## JSON と JavaScript の文字列の符号化の定理

符号化した文字列は、符号のほかに引用符もバックスラッシュも制御文字も含まず、それぞれの規則で元に戻る。
-/

namespace UnixCommons.String.JsEncode

open Lib AsciiStringManip UTF8Handler Escape

theorem json_js_reversible (s : Bytes) (src : CString) :
    (∃ dest, jsonEscape s = some dest ∧ (∀ b ∈ dest, 0x20 ≤ b.toNat) ∧ JsonBody dest ∧ unescape json dest = some s) ∧
      (∀ b ∈ jsEncode src, b ∉ jsForbidden) ∧ (∀ c ∈ [0x2028, 0x2029], ¬ Utf8.encode c <:+: jsEncode src) ∧
      unescape javascript (jsEncode src) = some src.bytes := by
  obtain ⟨t, ht, heq⟩ := jsLoop_coded [] [] src.bytes
  have hencode : jsEncode src = t := heq
  obtain ⟨hbody, hcontrol, hvalue⟩ := jsonPieces_spec s
  rw [hencode]
  refine ⟨⟨_, jsonEscape_eq s, hcontrol, hbody, hvalue⟩, ht.not_mem, ?_, ht.unescape_eq⟩
  intro c hc
  simp only [List.mem_cons, List.not_mem_nil, or_false] at hc
  rcases hc with rfl | rfl
  · exact ht.not_infix (c := 0xA8) (by decide)
  · exact ht.not_infix (c := 0xA9) (by decide)

example : jsonEscape [0x00, 0x22, 0x41] = some (['\\', 'u', '0', '0', '0', '0', '\\', '"', 'A'].map ascii) ∧
    jsLoop [] [] [0x3C, 0xE2, 0x80, 0xE2, 0x80, 0xA9] = ['\\', 'x', '3', 'C'].map ascii ++
      [0xE2, 0x80] ++ ['\\', 'u', '2', '0', '2', '9'].map ascii := by
  decide

end UnixCommons.String.JsEncode

/-!
## JavaScript の文字の定理

任意の文字列の符号化と復号を、正しい文字列と比べる。
-/

namespace UnixCommons.String.JsUnicode

open Lib AsciiStringManip UTF8Handler Utf8 XmlEncode Escape

/-- 符号化は、正しい UTF-8 の文字をすべて断片にし、他の文字列で例外を投げる。 -/
def EncodesOrThrows (s : CString) : Prop :=
  (WellFormed s.bytes →
    ∃ cs, Scalars cs ∧ s.bytes = cs.flatMap encode ∧ jsUnicodeEncode s.bytes =
    .ok (cs.flatMap piece)) ∧ (¬ WellFormed s.bytes → jsUnicodeEncode s.bytes = .error .nonUnicode)

/-- 例外を投げるのは、長さが 0 のバイトに着いた時だけである。 -/
theorem js_unicode_encode_iff (s : CString) : EncodesOrThrows s ↔ WellFormed s.bytes ∨ MeetsBadLead s.bytes := by
  unfold EncodesOrThrows
  by_cases hs : WellFormed s.bytes
  · refine iff_of_true ⟨fun _ => ?_, fun h => absurd hs h⟩ (.inl hs)
    obtain ⟨cs, hcs, hbytes⟩ := hs.exists_scalars
    have hscalars := scalars_of_nonzero hcs (hbytes ▸ s.nonzero)
    exact ⟨cs, hscalars, hbytes, by rw [hbytes, jsUnicodeEncode_scalars hscalars]⟩
  · rw [jsUnicodeEncode_nonUnicode_iff]
    constructor
    · exact fun h => .inr (h.2 hs)
    · rintro (h | h)
      · exact absurd h hs
      · exact ⟨fun h => absurd h hs, fun _ => h⟩

/-- 切れた三バイトの文字の始めのバイトで、符号化は NUL の後を読む。 -/
theorem js_unicode_encode_overreads : ¬ EncodesOrThrows ⟨[0xE3], by decide⟩ := by
  intro h
  have hrun : jsUnicodeEncode [0xE3] = .error .pastNul := by decide
  have hbad : ¬ WellFormed [0xE3] := by
    intro hwell
    obtain ⟨cs, -, -, hok⟩ := h.1 hwell
    rw [hrun] at hok
    cases hok
  have hthrow := h.2 hbad
  rw [hrun] at hthrow
  cases hthrow

end UnixCommons.String.JsUnicode
