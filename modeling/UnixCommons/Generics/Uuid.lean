import UnixCommons.String.StringManip

/-!
# 署名のある識別子

`Uuid.cpp` の `Uuid`、`SignedUuid`、`SignedUuidGenerator`、`SignedUuidVerifier` の写し。RSA の署名と検証は、鍵の組の引数である。
-/

namespace UnixCommons.Generics

open Lib UnixCommons.String UnixCommons.String.Base64

/-! ## 識別子 -/

structure Uuid where
  data : Bytes
  size : data.length = 16
  deriving DecidableEq

namespace Uuid

/-- `InvalidArgument` の三つの場合と、`base64mod_decode` の例外。 -/
inductive Error
  | tooShort
  | extraSymbols
  | mustSpan
  | invalidFormat (fault : Base64.Fault)
  deriving DecidableEq, Repr

def encodedSize (padding : Bool) : Nat := base64modEncodedSize 16 padding

def ofRange (range : Bytes) : Except Error Uuid :=
  if h : 16 ≤ range.length then return ⟨range.take 16, by rw [List.length_take, Nat.min_eq_left h]⟩ else throw .mustSpan

/-- `construct_` のループ。 -/
def readChars : Nat → Bytes → Except Error (Bytes × Bytes)
  | 0, str => return ([], str)
  | _ + 1, [] => throw .tooShort
  | size + 1, ch :: str => do
      let (src, rest) ← readChars size str
      return (ch :: src, rest)

def construct (str : Bytes) (padding : Bool) : Except Error Uuid := do
  let (src, rest) ← readChars (encodedSize padding) str
  let (result, _) ← (base64modDecode src padding false).mapError .invalidFormat
  let uuid ← ofRange result
  if rest ≠ [] then
    throw .extraSymbols
  else
    return uuid

def toString (uuid : Uuid) (padding : Bool) : Bytes := base64modEncode uuid.data padding 0

end Uuid

/-! ## 署名のある識別子 -/

/-- 鍵の組。`sign` は `RSA_sign_ASN1_OCTET_STRING`、`verify` は `RSA_verify_ASN1_OCTET_STRING` であり、`size` は `RSA_size` である。 -/
structure RSAKeys where
  size : Nat
  sign : Bytes → Option Bytes
  verify : Bytes → Bytes → Bool

structure SignedUuid where
  uuid : Uuid
  data : UInt8
  str : Bytes
  deriving DecidableEq

def SignedUuid.create (uuid : Uuid) (data : UInt8) (sign : Bytes) : SignedUuid :=
  ⟨uuid, data, base64modEncode uuid.data sign.isEmpty data ++ sign⟩

/-- `SignedUuidGenerator::sign`。 -/
def RSAKeys.signUuid (keys : RSAKeys) (uuid : Uuid) (data : UInt8) : Option SignedUuid := do
  let sign ← keys.sign uuid.data
  return .create uuid data (base64modEncode sign false 0)

/-- `verify` の例外。三つの `Exception` は、その文に `uuid_str` を持つ。 -/
inductive VerifyError
  | incorrectSize (uuidStr : Bytes)
  | undecodable (uuidStr : Bytes) (fault : Base64.Fault)
  | unsuitable (uuidStr : Bytes)
  | uuid (e : Uuid.Error)
  deriving DecidableEq, Repr

/-- `SignedUuidVerifier::verify`。 -/
def RSAKeys.verifyUuid (keys : RSAKeys) (uuidStr : Bytes) (dataExpected : Bool) : Except VerifyError SignedUuid := do
  if uuidStr.length ≠ Uuid.encodedSize false + base64modEncodedSize keys.size false then
    throw (.incorrectSize uuidStr)
  else
    let encodedSign := uuidStr.drop (Uuid.encodedSize false)
    let (dec, fill) ← (base64modDecode (uuidStr.take (Uuid.encodedSize false)) false
        dataExpected).mapError (.undecodable uuidStr)
    let uuid ← (Uuid.ofRange dec).mapError .uuid
    let (sign, _) ← (base64modDecode encodedSign false false).mapError (.undecodable uuidStr)
    if keys.verify uuid.data sign = false then
      throw (.unsuitable uuidStr)
    else
      return .create uuid (UInt8.ofNat (fill.getD 0)) encodedSign

end UnixCommons.Generics
