import UnixCommons.String.Lemmas.Punycode
import UnixCommons.Lib.Utf8

/-!
# Punycode の定理
-/

namespace UnixCommons.String.Punycode

open Lib AsciiStringManip Bootstring

/-- 符号化は成功し、その復号も成功して、英大文字を小文字にした元の列になる。途中の値は `wchar_t` を出ず、添字は表の中にある。 -/
theorem punycode_round_trip (w : List Nat) (hs : ∀ c ∈ w, Utf8.IsScalar c) (hlen : (w.length + 1) * 0x110000 < 2 ^ 31) :
    ∃ output, punycodeEncode w = .ok (some output) ∧ punycodeDecode output = .ok (some (w.map lowerCode)) ∧
      ∀ b ∈ output, charValue b - 48 ≥ 0 ∧ charValue b - 48 ≤ 74 → (charValue b - 48).toNat < decodeTable.length := by
  have hlt : ∀ c ∈ w, c < 0x110000 := by
    intro c hc
    rcases hs c hc with h | h <;> omega
  obtain ⟨basic, hbasic, hmap, hlow⟩ := basicPart_spec hlt
  have hinit := Lockstep.init (if basic = [] then [] else basic ++ [ascii '-']) (basic.map UInt8.toNat)
  rw [List.length_map, hmap] at hinit
  obtain ⟨s, n, i, m, hrun, hfinal⟩ := encodeLoop_spec hlt hlen (le_refl 0x80) (by omega : w.length < w.length + 1 + _) hinit
  obtain ⟨text, cnt, hout, htext, hcnt, hdecode⟩ := hfinal.output
  refine ⟨s.output, ?_, ?_, ?_⟩
  · unfold punycodeEncode
    rw [hbasic]
    dsimp only
    rw [hrun, ok_bind]
    rfl
  · rw [hout, punycodeDecode_append hlow htext, hmap]
    have hend := hdecode (text.length - cnt + 1) []
    rw [List.append_nil, decodeLoop_nil] at hend
    rw [← hend]
    congr 1
    omega
  · intro b _ h
    have : decodeTable.length = 75 := rfl
    omega

theorem punycode_round_trip_example :
    ∃ output, punycodeEncode [0x42, 0xFC, 0x43] = .ok (some output) ∧ punycodeDecode output = .ok
      (some [0x62, 0xFC, 0x63]) := by
  obtain ⟨output, hencode, hdecode, -⟩ := punycode_round_trip [0x42, 0xFC, 0x43] (by decide) (by decide)
  exact ⟨output, hencode, hdecode⟩

/-! ## 任意の入力の復号 -/

/-- 復号が安全なのは、区切りの前に ASCII でない文字があって `false` を返す時と、桁の列の正確な読み方が限りの中にある時だけである。 -/
theorem punycode_decode_safe_iff (input : Bytes) (h : input.length ≤ 59) :
    DecodeSafe input ↔ HighBasic input ∨ Fits (textReading input) := by
  unfold DecodeSafe HighBasic textReading punycodeDecode
  cases hfind : rfind (ascii '-') input with
  | none =>
      have hsize : (([] : List Nat).length + input.length + 1) * 0x110000 < 2 ^ 31 := by
        rw [List.length_nil]
        omega
      simpa using decodeLoop_safe_iff (by simp) hsize
  | some p =>
      obtain ⟨basic, rest⟩ := p
      have hsize : ((basic.map UInt8.toNat).length + rest.length + 1) * 0x110000 < 2 ^ 31 := by
        have hsplit := congrArg List.length (eq_of_rfind hfind)
        rw [List.length_append, List.length_cons] at hsplit
        rw [List.length_map]
        omega
      have hiff := decodeLoop_safe_iff (fun ch hch => ?_) hsize
      · rw [List.length_map] at hiff
        dsimp only
        by_cases hhigh : ∃ b ∈ basic, 0x80 ≤ b.toNat
        · have hany : (basic.any fun b => b.toNat &&& 0x80 ≠ 0) = true := by simpa [and_high_iff] using hhigh
          rw [hany]
          exact ⟨fun _ => .inl ⟨basic, rest, rfl, hhigh⟩, fun _ => ⟨none, rfl, by simp⟩⟩
        · have hany : (basic.any fun b => b.toNat &&& 0x80 ≠ 0) = false := by simpa [and_high_iff] using hhigh
          rw [hany]
          refine hiff.trans ⟨.inr, ?_⟩
          rintro (⟨_, _, ⟨⟩, hbad⟩ | hfits)
          · exact absurd hbad hhigh
          · exact hfits
      · obtain ⟨b, -, rfl⟩ := List.mem_map.mp hch
        have := b.toNat_lt
        omega

theorem punycode_decode_safe_iff_bucher :
    DecodeSafe (List.map ascii ['b', 'c', 'h', 'e', 'r', '-', 'k', 'v', 'a']) ∧
      (HighBasic (List.map ascii ['b', 'c', 'h', 'e', 'r', '-', 'k', 'v', 'a']) ∨
        Fits (textReading (List.map ascii ['b', 'c', 'h', 'e', 'r', '-', 'k', 'v', 'a']))) := by
  have hsafe : DecodeSafe (List.map ascii ['b', 'c', 'h', 'e', 'r', '-', 'k', 'v', 'a']) := by
    refine ⟨some [0x62, 0xFC, 0x63, 0x68, 0x65, 0x72], by decide, ?_⟩
    simp
  exact ⟨hsafe, (punycode_decode_safe_iff _ (by decide)).mp hsafe⟩

/-- RFC 3492 の求める溢れの検査がないので、短い入力でも、桁の値が溢れることと、Unicode にない符号点を返すことがある。 -/
theorem punycode_decode_overflows :
    punycodeDecode (List.replicate 8 (ascii '9')) = .error .overflow ∧
      punycodeDecode (List.replicate 7 (ascii '9') ++ [ascii 'a']) = .ok (some [476385513]) ∧
      ¬ ∀ input : Bytes, input.length ≤ 59 → DecodeSafe input := by
  have hrun : punycodeDecode (List.replicate 8 (ascii '9')) = .error .overflow := by decide
  refine ⟨hrun, by decide, ?_⟩
  intro hall
  obtain ⟨r, hr, -⟩ := hall (List.replicate 8 (ascii '9')) (by decide)
  rw [hrun] at hr
  cases hr

end UnixCommons.String.Punycode
