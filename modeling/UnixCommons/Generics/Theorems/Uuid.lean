import UnixCommons.Generics.Uuid
import UnixCommons.String.Lemmas.Base64

/-!
# 署名のある識別子の定理

識別子の十六バイトは、二十二文字の符号の最後の文字に四ビットを余す。
-/

namespace UnixCommons.Generics

open UnixCommons.String UnixCommons.String.Base64 Lib

variable {keys : RSAKeys} {signed : SignedUuid} {uuid : Uuid} {data : UInt8} {sign str rest : Bytes} {padding : Bool}

/-! ## 識別子 -/

namespace Uuid

theorem readChars_append (str rest : Bytes) : readChars str.length (str ++ rest) = .ok (str, rest) := by
  induction str with
  | nil => rfl
  | cons ch str ih =>
      rw [List.length_cons, List.cons_append, readChars, ih]
      rfl

theorem ofRange_data (uuid : Uuid) : ofRange uuid.data = .ok uuid := by
  obtain ⟨data, hsize⟩ := uuid
  rw [ofRange, dif_pos (Nat.le_of_eq hsize.symm)]
  have htake : data.take 16 = data := List.take_of_length_le (Nat.le_of_eq hsize)
  simp only [htake]
  rfl

theorem length_toString (uuid : Uuid) (fill : UInt8) :
    (base64modEncode uuid.data padding fill).length = encodedSize padding := by
  rw [base64modEncode, length_funcEncode, uuid.size, encodedSize]

theorem construct_toString (uuid : Uuid) (padding : Bool) : construct (uuid.toString padding) padding = .ok uuid := by
  obtain ⟨left, hdecode, -⟩ := @base64modDecode_encode _ _ padding false 0 decodes_modEncode
    pads_mod (fun h => absurd rfl h) uuid.data
  have hread : readChars (encodedSize padding) (uuid.toString padding) = .ok (uuid.toString padding, []) := by
    have happend := readChars_append (uuid.toString padding) []
    rwa [List.append_nil, toString, length_toString] at happend
  have hdecode : base64modDecode (uuid.toString padding) padding false = .ok (uuid.data, left) := hdecode
  rw [construct, hread, ok_bind]
  dsimp only
  rw [hdecode, Except.mapError, ok_bind]
  dsimp only
  rw [ofRange_data, ok_bind]
  rfl

end Uuid

/-! ## 署名のある識別子 -/

/-- 検証は、署名が作った `size` バイトの署名だけを受け入れる。 -/
structure RSAKeys.Exact (keys : RSAKeys) : Prop where
  size_pos : 0 < keys.size
  length : ∀ message sign, keys.sign message = some sign → sign.length = keys.size
  accepts : ∀ message sign, keys.verify message sign = true ↔ keys.sign message = some sign

theorem length_encode (h : keys.Exact) (hsign : keys.sign uuid.data = some sign) :
    (base64modEncode sign false 0).length = base64modEncodedSize keys.size false := by
  rw [base64modEncode, length_funcEncode, h.length _ _ hsign]

theorem isEmpty_encode (h : keys.Exact) (hsign : keys.sign uuid.data = some sign) :
    (base64modEncode sign false 0).isEmpty = false := by
  have hlen := length_encode h hsign
  have hpos := h.size_pos
  rw [List.isEmpty_eq_false_iff]
  intro hnil
  rw [hnil, base64modEncodedSize, if_neg Bool.false_ne_true, List.length_nil] at hlen
  split_ifs at hlen
  omega

theorem verifyUuid_str (h : keys.Exact) (hsign : keys.sign uuid.data = some sign) (data : UInt8) (dataExpected : Bool) :
    keys.verifyUuid (SignedUuid.create uuid data (base64modEncode sign false 0)).str dataExpected =
      match leftBits dataExpected (data.toNat % 16) with
      | .error e => .error (.undecodable (SignedUuid.create uuid data (base64modEncode sign false 0)).str e)
      | .ok fill => .ok (.create uuid (UInt8.ofNat (fill.getD 0)) (base64modEncode sign false 0)) := by
  have hlen : (base64modEncode uuid.data false data).length = Uuid.encodedSize false := Uuid.length_toString uuid data
  have hstr : (SignedUuid.create uuid data (base64modEncode sign false 0)).str =
      base64modEncode uuid.data false data ++ base64modEncode sign false 0 := by
    rw [SignedUuid.create, isEmpty_encode h hsign]
  have hsize : (base64modEncode uuid.data false data ++ base64modEncode sign false 0).length =
      Uuid.encodedSize false + base64modEncodedSize keys.size false := by
    rw [List.length_append, hlen, length_encode h hsign]
  have hend : endBits dataExpected data.toNat 16 = leftBits dataExpected (data.toNat % 16) := by
    simp [endBits, base64modFillSize]
  have hdec : base64modDecode (base64modEncode uuid.data false data) false dataExpected = (do
      let left ← leftBits dataExpected (data.toNat % 16)
      return (uuid.data, left)) := by
    rw [base64modEncode, base64modDecode_funcEncode decodes_modEncode pads_mod, uuid.size, hend]
  obtain ⟨left, hsigned, -⟩ := @base64modDecode_encode _ _ false false 0 decodes_modEncode pads_mod
    (fun hne => absurd rfl hne) sign
  have hsigned : base64modDecode (base64modEncode sign false 0) false false = .ok (sign, left) := hsigned
  have hverify : keys.verify uuid.data sign = true := (h.accepts _ _).mpr hsign
  rw [hstr, RSAKeys.verifyUuid, if_neg (not_not.mpr hsize), ← hlen, List.take_left, List.drop_left, hdec]
  cases leftBits dataExpected (data.toNat % 16) with
  | error e => rfl
  | ok fill =>
      rw [ok_bind]
      dsimp only [pure, Except.pure, Except.mapError]
      rw [ok_bind]
      dsimp only
      rw [Uuid.ofRange_data, ok_bind, hsigned]
      dsimp only
      rw [ok_bind]
      dsimp only
      rw [hverify, if_neg Bool.true_eq_false_eq_False]

/-- 識別子の文字列も、署名した識別子の文字列も、元に戻る。余分の値を読まない検証が例外を投げるのは、その値が零でない時だけである。 -/
theorem uuid_round_trip (h : keys.Exact) :
    (∀ (uuid : Uuid) padding, Uuid.construct (uuid.toString padding) padding = .ok uuid) ∧
      ∀ (uuid : Uuid) (data : UInt8) (signed : SignedUuid), data < 16 → keys.signUuid uuid data = some signed →
        keys.verifyUuid signed.str true = .ok signed ∧ signed.uuid = uuid ∧ signed.data = data ∧
          ((∃ e, keys.verifyUuid signed.str false = .error e) ↔ data ≠ 0) := by
  refine ⟨Uuid.construct_toString, fun uuid data signed hdata hsigned => ?_⟩
  obtain ⟨sign, hsign, hsigned⟩ := Option.bind_eq_some_iff.mp hsigned
  obtain rfl := Option.some.inj hsigned
  have hlt : data.toNat < 16 := UInt8.lt_iff_toNat_lt.mp hdata
  have hmod : data.toNat % 16 = data.toNat := Nat.mod_eq_of_lt hlt
  refine ⟨?_, rfl, rfl, ?_⟩
  · rw [verifyUuid_str h hsign, hmod]
    show Except.ok (SignedUuid.create uuid (UInt8.ofNat data.toNat) _) = _
    rw [UInt8.ofNat_toNat]
  · rw [verifyUuid_str h hsign, hmod, leftBits, if_neg Bool.false_ne_true]
    by_cases hzero : data = 0
    · subst hzero
      refine iff_of_false ?_ (not_not.mpr rfl)
      rintro ⟨e, he⟩
      cases he
    · have hne : data.toNat ≠ 0 := fun heq => hzero (UInt8.toNat_inj.mp heq)
      rw [if_pos hne]
      exact iff_of_true ⟨_, rfl⟩ hzero

/-- 番号と、メッセージのバイトの排他的論理和から作る、128 バイトの署名。 -/
def xorSign (message : List UInt8) : List UInt8 :=
  (List.range 128).map fun i => UInt8.ofNat i ^^^ message.foldl (· ^^^ ·) 0

def sampleKeys : RSAKeys where
  size := 128
  sign message := some (xorSign message)
  verify message sign := decide (sign = xorSign message)

theorem sampleKeys_exact : sampleKeys.Exact where
  size_pos := Nat.succ_pos 127
  length message sign hsign := by
    obtain rfl := Option.some.inj hsign
    rw [xorSign, List.length_map, List.length_range]
    rfl
  accepts message sign := by
    rw [sampleKeys, decide_eq_true_iff, Option.some.injEq, eq_comm]

def sampleUuid : Uuid :=
  ⟨[0x40, 0x40, 0x40, 0x40, 0x50, 0x50, 0x60, 0x60, 0x60, 0x60, 0x60, 0x60, 0x60, 0x60, 0x60, 0x60], rfl⟩

theorem uuid_round_trip_sample :
    ∃ signed, sampleKeys.signUuid sampleUuid 5 = some signed ∧ sampleKeys.verifyUuid signed.str true = .ok signed ∧
      signed.data = 5 ∧ ∃ e, sampleKeys.verifyUuid signed.str false = .error e := by
  obtain ⟨hverify, -, hdata, herror⟩ := (uuid_round_trip sampleKeys_exact).2 sampleUuid 5 _ (by decide) rfl
  exact ⟨_, rfl, hverify, hdata, herror.mpr (by decide)⟩

example : sampleUuid.toString true = "QEBAQFBQYGBgYGBgYGBgYA..".toList.map AsciiStringManip.ascii := by decide

end UnixCommons.Generics
