import UnixCommons.HTTP.UrlParts
import UnixCommons.String.Punycode

/-!
# ホストの国際化

`UrlAddress.cpp` の `idna_normalize_host` の写し。`wchar_t` の値は 32 ビットの符号なしの値で表す。`lower_and_normalize` はパラメータとする。
-/

namespace UnixCommons.HTTP

open Lib String.AsciiStringManip String.JsUnicode String.UTF8Handler String.Punycode

inductive LabelError
  | possiblyIdna
  | invalidInput (alabel : Bytes)
  | extraHyphens
  | punycodeFailure
  | invalidSymbols
  | encodedHyphens
  | invalidSequence
  deriving DecidableEq, Repr

/-- `IDNAError` の文。ラベルは、文字の値の並びである。 -/
inductive IdnaError
  | hostEmpty
  | hostTooLarge (host : Bytes)
  | invalidSequence (host : Bytes)
  | normalizationFailed (host : Bytes)
  | emptyNormalized (host : Bytes)
  | emptyLabel (host : Bytes)
  | labelTooLarge (label : List Nat) (host : Bytes)
  | problem (label : List Nat) (host : Bytes) (reason : LabelError)
  | resultTooLarge (ascii : Bytes)
  deriving DecidableEq, Repr

inductive Stop (ε : Type)
  | error (e : ε)
  | punycode (f : String.Punycode.Fault)
  | pastEnd
  deriving DecidableEq, Repr

def idnaPrefix : Bytes := List.map ascii ['x', 'n', '-', '-']

def idnaDelimiter : UInt8 := ascii '-'

def idnaAllowed : Bytes := alphaNum ++ charCategory ['-']

def labelSeparator : UInt8 := ascii '.'

/-- `*IDNA_ALLOWED.find_nonowned(str.c_str())` が 0 でないこと。 -/
def hasForeign (str : Bytes) : Bool := (str.dropWhile (isOwned idnaAllowed)).headD 0 ≠ 0

/-- 符号付きの `wchar_t` として `0x80` 以上であること。 -/
def nonAscii (ch : Nat) : Bool := 0x80 ≤ ch ∧ ch < 2 ^ 31

def narrow (ch : Nat) : UInt8 := UInt8.ofNat ch

def ulongToUtf8Char (ch : Nat) : Option Bytes :=
  if ch < 0x200000 then
    wcharToUtf8Char ch
  else if ch < 0x4000000 then
    some [UInt8.ofNat (((ch >>> 24) &&& 0x03) ||| 0xF8),
      UInt8.ofNat (((ch >>> 18) &&& 0x3F) ||| 0x80), UInt8.ofNat (((ch >>> 12) &&& 0x3F) ||| 0x80),
      UInt8.ofNat (((ch >>> 6) &&& 0x3F) ||| 0x80), UInt8.ofNat ((ch &&& 0x3F) ||| 0x80)]
  else if ch < 0x80000000 then
    some [UInt8.ofNat (((ch >>> 30) &&& 0x01) ||| 0xFC), UInt8.ofNat (((ch >>> 24) &&& 0x3F) ||| 0x80),
      UInt8.ofNat (((ch >>> 18) &&& 0x3F) ||| 0x80), UInt8.ofNat (((ch >>> 12) &&& 0x3F) ||| 0x80),
      UInt8.ofNat (((ch >>> 6) &&& 0x3F) ||| 0x80), UInt8.ofNat ((ch &&& 0x3F) ||| 0x80)]
  else
    none

/-! ## `IDNA0` -/

def appendAscii (label : Bytes) : Except (Stop LabelError) Unit :=
  if caselessStart idnaPrefix label then throw (.error .possiblyIdna) else return ()

/-! ## `IDNA2008` -/

/-- 二つの出力 `ascii_` と `unicode_`。 -/
structure Hosts where
  ascii : Bytes
  unicode : Bytes
  deriving DecidableEq, Repr

section
variable (lowerAndNormalize : List Nat → Bool → Option (List Nat))

/-- `decode_` の、`xn--` のラベルの復号。`none` は、ラベルをそのまま残すことである。 -/
def decodePunycode (alabel : Bytes) : Except (Stop LabelError) (Option (List Nat)) := do
  if ¬ caselessStart idnaPrefix alabel ∨ alabel.length = idnaPrefix.length ∨ hasForeign alabel then
    return none
  else
    match ← (punycodeDecode (alabel.drop idnaPrefix.length)).mapError Stop.punycode with
    | none => return none
    | some decoded => return (lowerAndNormalize decoded false).filter fun normalized => normalized ≠ []

/-- `decode_`。 -/
def decodeLabel (lab : List Nat) : Except (Stop LabelError) (Bytes × Option (List Nat) × Bool) := do
  let alabel := (lab.takeWhile fun ch => ¬ nonAscii ch).map narrow
  if lab.any nonAscii then
    return (alabel, some lab, true)
  else if ¬ isValidChars alabel hostChars then
    throw (.error (.invalidInput alabel))
  else
    return (alabel, ← decodePunycode lowerAndNormalize alabel, false)

end

/-- 負の文字の前までの、`punycode_encode` の出力。 -/
def punycodePrefix (wlabel : List Nat) : Bytes :=
  ((wlabel.takeWhile fun ch => ch < 2 ^ 31).filter fun ch => ch < 0x80).map fun ch => toLower (narrow ch)

/-- `unicode_` に文字を加えるループ。 -/
def appendUnicode : List Nat → Bytes → Bool × Bytes
  | [], text => (true, text)
  | ch :: wlabel, text =>
      match ulongToUtf8Char ch with
      | none => (false, text)
      | some octets => appendUnicode wlabel (text ++ octets)

/-- 国際化したラベルの誤りは例外になり、ほかのラベルはそのまま残る。 -/
def refuse (unicode : Bool) (e : LabelError) (hosts : Hosts) : Except (Stop LabelError) (Bool × Hosts) :=
  if unicode then throw (.error e) else return (false, hosts)

def writeEncoded (wlabel : List Nat) (encoded : Bytes) (unicode : Bool) (hosts : Hosts) :
    Except (Stop LabelError) (Bool × Hosts) :=
  if hasForeign encoded then
    refuse unicode .invalidSymbols hosts
  else
    match encoded.getLast? with
    | none => throw .pastEnd
    | some last =>
        if last = idnaDelimiter then
          refuse unicode .encodedHyphens hosts
        else
          match appendUnicode wlabel hosts.unicode with
          | (false, text) => refuse unicode .invalidSequence { hosts with unicode := text }
          | (true, text) =>
              return (true, ⟨hosts.ascii ++ idnaPrefix ++ encoded ++ [labelSeparator], text ++ [labelSeparator]⟩)

def encodeLabel (wlabel : List Nat) (unicode : Bool) (hosts : Hosts) : Except (Stop LabelError) (Bool × Hosts) := do
  if wlabel.head? = some idnaDelimiter.toNat ∨ wlabel.getLast? = some idnaDelimiter.toNat then
    refuse unicode .extraHyphens hosts
  else
    match ← (punycodeEncode wlabel).mapError Stop.punycode with
    -- `unicode` でなければ、失敗しても続ける。
    | none => if unicode then throw (.error .punycodeFailure) else writeEncoded wlabel (punycodePrefix wlabel) unicode hosts
    | some encoded => writeEncoded wlabel encoded unicode hosts

def appendKept (alabel : Bytes) (hosts : Hosts) : Hosts :=
  ⟨hosts.ascii ++ alabel ++ [labelSeparator], hosts.unicode ++ alabel ++ [labelSeparator]⟩

def appendLabel (lowerAndNormalize : List Nat → Bool → Option (List Nat)) (hosts : Hosts)
    (label : List Nat) : Except (Stop LabelError) Hosts := do
  match ← decodeLabel lowerAndNormalize label with
  | (alabel, none, _) => return appendKept alabel hosts
  | (alabel, some wlabel, unicode) =>
      if wlabel.any nonAscii then
        match ← encodeLabel wlabel unicode hosts with
        | (true, hosts) => return hosts
        | (false, hosts) => return appendKept alabel hosts
      else
        let adecoded := wlabel.map narrow
        let alabel := if isValidChars adecoded hostChars then adecoded else alabel
        return ⟨hosts.ascii ++ alabel ++ [labelSeparator], hosts.unicode ++ adecoded ++ [labelSeparator]⟩

/-! ## ホスト -/

def labelled (label : List Nat) (host : Bytes) : Stop LabelError → Stop IdnaError
  | .error e => .error (.problem label host e)
  | .punycode f => .punycode f
  | .pastEnd => .pastEnd

def idnaLabelConvert {α σ : Type} (widen : List α → List Nat)
    (append : σ → List α → Except (Stop LabelError) σ) (host : Bytes) :
    List (List α) → σ → Except (Stop IdnaError) σ
  | [], dst => return dst
  | label :: rest, dst => do
      if label = [] then
        throw (.error (.emptyLabel host))
      else if label.length > maxHostnameLabelSize then
        throw (.error (.labelTooLarge (widen label) host))
      else
        idnaLabelConvert widen append host rest (← (append dst label).mapError (labelled (widen label) host))

/-- ホストの復号。二つ目は、ASCII でない文字があったことである。`after` は、ホストの後のバイトである。 -/
def decodeHost (host after : Bytes) : Nat → Bytes → List Nat → Bool → Except (Stop IdnaError) (List Nat × Bool)
  | 0, _, whost, hasUnicode => return (whost, hasUnicode)
  | _ + 1, [], whost, hasUnicode => return (whost, hasUnicode)
  | fuel + 1, ch :: rest, whost, hasUnicode => do
      let octetCount := getOctetCount ch.toNat
      let (correct, wch) := utf8CharToWchar (ch :: rest ++ after) octetCount
      if ¬ correct then
        throw (.error (.invalidSequence host))
      else
        decodeHost host after fuel ((ch :: rest).drop octetCount) (whost ++ [wch]) (hasUnicode || octetCount > 1)

/-- ASCII のホスト。`IDNA0` の破棄は、出力を小文字にする。 -/
def asciiHost (host : Bytes) : Except (Stop IdnaError) Hosts := do
  let _ ← idnaLabelConvert (List.map UInt8.toNat) (fun _ label => appendAscii label) host (tokens labelSeparator [] host) ()
  return ⟨host.map toLower, host.map toLower⟩

def normalizedHost (lowerAndNormalize : List Nat → Bool → Option (List Nat)) (host : Bytes)
    (whost : List Nat) : Except (Stop IdnaError) Hosts := do
  match lowerAndNormalize whost true with
  | none => throw (.error (.normalizationFailed host))
  | some [] => throw (.error (.emptyNormalized host))
  | some normalized =>
      let hosts ← idnaLabelConvert id (appendLabel lowerAndNormalize) host
          (tokens labelSeparator.toNat [] normalized) ⟨[], []⟩
      if hosts.ascii.length ≥ maxHostnameSize then
        throw (.error (.resultTooLarge hosts.ascii))
      else if normalized.getLast? = some labelSeparator.toNat then
        return hosts
      else
        return ⟨hosts.ascii.dropLast, hosts.unicode.dropLast⟩

def idnaNormalizeHost (lowerAndNormalize : List Nat → Bool → Option (List Nat))
    (host after : Bytes) : Except (Stop IdnaError) Hosts := do
  if host = [] then
    throw (.error .hostEmpty)
  else if host.length ≥ maxHostnameSize then
    throw (.error (.hostTooLarge host))
  else
    let (whost, hasUnicode) ← decodeHost host after host.length host [] false
    if hasUnicode then
      normalizedHost lowerAndNormalize host whost
    else
      match asciiHost host with
      | .ok hosts => return hosts
      -- `xn--` のラベルなどがあれば、正規化する。
      | .error (.error _) => normalizedHost lowerAndNormalize host whost
      | .error stop => throw stop

end UnixCommons.HTTP
