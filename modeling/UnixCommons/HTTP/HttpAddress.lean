import UnixCommons.HTTP.UrlAddress
import UnixCommons.Lib.Numeral
import UnixCommons.String.IntText

/-!
# HTTP のアドレス

`UrlAddress.cpp` の `HTTPAddress`、`BrowserAddress` と、アドレスの正規化の写し。
-/

namespace UnixCommons.HTTP

/-! ## HTTP のアドレス

`UrlAddress.cpp` の `HTTPAddress` と `BrowserAddress` の写し。失敗した操作は、途中まで変えたアドレスを残すので、操作はアドレスを状態とする
失敗のある計算で表す。`BrowserAddress` のホストの符号化の前後の文字列は、ほかの操作が読まないので省く。
-/

section

open Lib String.AsciiStringManip String.StrToInt

inductive AddressClass
  | http
  | browser
  deriving DecidableEq, Repr

structure HTTPAddress extends URLAddress where
  kind : AddressClass
  strict : Bool
  portNumber : Nat
  secure : Bool
  defaultPort : Bool
  deriving DecidableEq, Repr

def HTTPAddress.initial (kind : AddressClass) (strict : Bool) : HTTPAddress where
  toURLAddress := URLAddress.empty
  kind := kind
  strict := strict
  portNumber := 0
  secure := false
  defaultPort := true

abbrev Change (α : Type) : Type := ExceptT Error (StateM HTTPAddress) α

def httpScheme : Bytes := List.map ascii ['h', 't', 't', 'p']

def httpsScheme : Bytes := List.map ascii ['h', 't', 't', 'p', 's']

def schemeAuthorityMediator : Bytes := List.map ascii [':', '/', '/']

def defaultHttpPort : Nat := 80

def defaultHttpsPort : Nat := 443

def defaultPath : Bytes := [ascii '/']

def getDefaultPort (secure : Bool) : Nat := if secure then defaultHttpsPort else defaultHttpPort

/-! ## 検査と修正 -/

def checkHttpUrlComponents (url scheme host : Bytes) (strict : Bool) : Except Invalid Unit :=
  if ¬ caselessEqual scheme httpScheme ∧ ¬ caselessEqual scheme httpsScheme ∧ (strict ∨ scheme ≠ []) then
    makeInvalid "unexpected protocol in url" url
  else if host = [] then
    makeInvalid "empty server name in url" url
  else
    return ()

def httpUrlNeedsPrefix (scheme host : Bytes) : Bool :=
  host = [] ∧ ¬ caselessEqual scheme httpScheme ∧ ¬ caselessEqual scheme httpsScheme

def httpAddScheme (url : Bytes) : Bytes := httpScheme ++ schemeAuthorityMediator ++ url

/-- 文字を `%` の符号にする。 -/
def escapeChar (ch : UInt8) : Bytes :=
  [ascii '%', hexDigits.getD ((ch.toNat >>> 4) &&& 0x0F) 0, hexDigits.getD (ch.toNat &&& 0x0F) 0]

/-- `http_fix_part` のループ。 -/
def fixLoop : Nat → Bytes → Bytes → Bytes
  | 0, _, newPart => newPart
  | _ + 1, [], newPart => newPart
  | fuel + 1, ch :: old, newPart =>
      let str := findInvalid queryChars old
      fixLoop fuel str (newPart ++ escapeChar ch ++ between old str)

def httpFixPart (part checker : Bytes) : Option Bytes :=
  let str := findInvalid checker part
  if str = [] then none else some (fixLoop part.length str (between part str))

def fixParts (parts : UrlParts) : UrlParts × Bool :=
  let userinfo := httpFixPart parts.userinfo userInfo
  let path := httpFixPart parts.path pathChars
  let query := httpFixPart parts.query queryChars
  let fragment := httpFixPart parts.fragment fragmentChars
  ({ parts with userinfo := userinfo.getD parts.userinfo, path := path.getD parts.path, query := query.getD parts.query,
                fragment := fragment.getD parts.fragment },
    userinfo.isSome || path.isSome || query.isSome || fragment.isSome)

def fixedParts (strict : Bool) (parts : UrlParts) : UrlParts × Bool := if strict then (parts, false) else fixParts parts

/-! ## 代入 -/

def setUrl (x : Except Error URLAddress) : Change Unit := do
  let address ← x
  modify fun a => { a with toURLAddress := address }

section
variable (lowerAndNormalize : List Nat → Bool → Option (List Nat))

/-- `idna_host_normalize` の結果。URL の中のホストの後のバイトは、区切りか NUL なので、文字の続きにならない。 -/
def idnaHostNormalize (url host : Bytes) : Except Error Hosts :=
  (idnaNormalizeHost lowerAndNormalize host []).mapError fun
    | .error e => Error.idna e url
    | .punycode f => .punycode f
    | .pastEnd => .fault .pastEnd

def processHost (host : Bytes) : Change Bytes := do
  let a ← get
  let hosts ← idnaHostNormalize lowerAndNormalize a.url host
  set { a with parts := { a.parts with host := hosts.ascii } }
  return hosts.ascii

def additionalChecks : Change Bool := do
  let a ← get
  match a.kind with
  | .http => return false
  | .browser =>
      let _ ← processHost lowerAndNormalize a.parts.host
      return true

def addScheme : Change Unit := do
  let a ← get
  if ¬ a.strict ∧ httpUrlNeedsPrefix a.parts.scheme a.parts.host then
    setUrl (urlWithoutCheck (httpAddScheme a.url))

def rebuildParts (rebuild : Bool) : Change Unit := do
  let a ← get
  let fixed := fixedParts a.strict a.parts.toUrlParts
  if rebuild || fixed.2 then
    setUrl (assignUrlParts fixed.1 false false)

def specificChecks : Change Unit := do
  addScheme
  let rebuild ← additionalChecks lowerAndNormalize
  let a ← get
  orInvalid (checkHttpUrlComponents a.url a.parts.scheme a.parts.host a.strict)
  rebuildParts rebuild

def assignUrl (value : Bytes) : Change Unit := do
  setUrl (urlWithoutCheck value)
  specificChecks lowerAndNormalize
  let a ← get
  orInvalid (urlPartsChecker a.url a.parts.toUrlParts)

def assignPort : Change Unit := do
  let a ← get
  if a.parts.port ≠ [] then
    let read := strToInt unsignedShort a.parts.port a.portNumber
    set { a with portNumber := read.2.toNat }
    if read.1 then modify fun a => { a with defaultPort := false } else throw (Error.invalidPort a.parts.port)
  else
    set { a with portNumber := getDefaultPort a.secure, defaultPort := true }

def assign (httpUrl : Bytes) : Change Unit := do
  if httpUrl = [] then throw Error.nilUrl
  assignUrl lowerAndNormalize httpUrl
  modify fun a => { a with secure := caselessEqual a.parts.scheme httpsScheme }
  assignPort
  modify fun a => if a.parts.path = [] then { a with parts := { a.parts with path := defaultPath } } else a

end

def decimalText (n : Nat) : Bytes := (natText n).map ascii

def setParts (secure : Bool) (userinfo host : Bytes) (port : Nat) (path query fragment : Bytes) : Change Unit := do
  if host = [] then
    modify fun a => { a with defaultPort := true, portNumber := 0 }
  else
    let defaultPort := port = getDefaultPort secure
    modify fun a => { a with secure := secure, portNumber := port, defaultPort := defaultPort }
    setUrl (assignUrlParts
      (UrlParts.of (if secure then httpsScheme else httpScheme) userinfo host (if defaultPort then [] else decimalText port)
        (if path = [] then defaultPath else path) query fragment) true false)

/-! ## 構築と写し -/

def constructed (x : Change Unit) (a : HTTPAddress) : Except Error HTTPAddress :=
  match x.run.run a with
  | (.ok (), a) => .ok a
  | (.error e, _) => .error e

/-- `HTTPAddress(url)` と `BrowserAddress(url)`。 -/
def HTTPAddress.ofUrl (lowerAndNormalize : List Nat → Bool → Option (List Nat))
    (kind : AddressClass) (url : Bytes) : Except Error HTTPAddress :=
  if url = [] then return HTTPAddress.initial kind (kind = .http)
  else constructed (assign lowerAndNormalize url) (HTTPAddress.initial kind (kind = .http))

/-- 成分からの、`HTTPAddress` と `BrowserAddress` の構築。 -/
def HTTPAddress.ofParts (lowerAndNormalize : List Nat → Bool → Option (List Nat))
    (kind : AddressClass) (host path query fragment : Bytes)
    (port : UInt16) (secure : Bool) (userinfo : Bytes) : Except Error HTTPAddress :=
  let port := if port ≠ 0 then port.toNat else getDefaultPort secure
  match kind with
  | .http => constructed (setParts secure userinfo host port path query fragment) (HTTPAddress.initial kind false)
  | .browser => constructed (do
      let encodedHost ← processHost lowerAndNormalize host
      setParts secure userinfo encodedHost port path query fragment) (HTTPAddress.initial kind true)

def HTTPAddress.copy (way : Copying) (another : HTTPAddress) : Except Error HTTPAddress := do
  return { another with toURLAddress := ← another.toURLAddress.copy way }

/-! ## 表示 -/

def httpPrefix : Bytes := List.map ascii ['h', 't', 't', 'p', ':']

def httpsPrefix : Bytes := List.map ascii ['h', 't', 't', 'p', 's', ':']

def wwwPrefix : Bytes := List.map ascii ['w', 'w', 'w', '.']

def vwProtocol : Nat := 0x01

def vwHostname : Nat := 0x02

def vwHostnameWww : Nat := vwHostname + 0x100

def vwPort : Nat := 0x04

def vwNdefPort : Nat := 0x08

def vwPath : Nat := 0x10

def vwQuery : Nat := 0x20

def vwStripPath : Nat := vwPath + 0x40

def vwFragment : Nat := 0x80

def vwFull : Nat := vwProtocol ||| vwHostname ||| vwNdefPort ||| vwPath ||| vwQuery ||| vwFragment

def protocolView (flags : Nat) (a : HTTPAddress) : Bytes :=
  if flags &&& vwProtocol ≠ 0 then
    (if a.parts.hasScheme then if a.secure then httpsPrefix else httpPrefix else []) ++ [ascii '/', ascii '/']
  else
    []

def hostView (flags : Nat) (a : HTTPAddress) : Bytes :=
  if flags &&& vwHostname ≠ 0 then
    (if flags &&& vwHostnameWww = vwHostnameWww ∧
      ¬ caselessStart wwwPrefix a.parts.host then wwwPrefix else []) ++ a.parts.host
  else
    []

def portView (flags : Nat) (a : HTTPAddress) : Bytes :=
  if flags &&& vwPort ≠ 0 ∨ (¬ a.defaultPort ∧ flags &&& vwNdefPort ≠ 0) then ascii ':' :: decimalText a.portNumber else []

def pathView (flags : Nat) (a : HTTPAddress) : Except Fault Bytes :=
  if flags &&& vwPath ≠ 0 then
    if flags &&& vwStripPath = vwStripPath then
      match a.parts.path.getLast? with
      | none => throw .wrapped
      | some last => return if last = ascii '/' then a.parts.path.dropLast else a.parts.path
    else
      return a.parts.path
  else
    return []

def queryView (flags : Nat) (a : HTTPAddress) : Bytes :=
  if flags &&& vwQuery ≠ 0 ∧ a.parts.hasQuery then ascii '?' :: a.parts.query else []

def fragmentView (flags : Nat) (a : HTTPAddress) : Bytes :=
  if flags &&& vwFragment ≠ 0 ∧ a.parts.hasFragment then ascii '#' :: a.parts.fragment else []

def getView (flags : Nat) (a : HTTPAddress) : Except Fault Bytes := do
  return protocolView flags a ++ hostView flags a ++ portView flags a ++ (← pathView flags a) ++
    queryView flags a ++ fragmentView flags a

end

/-! ## アドレスの正規化

`UrlAddress.cpp` の `unmime` と `normalize_http_address` の写し。`unmime` の `assert` の失敗は `assertion` である。
-/

section

open Lib String.AsciiStringManip

/-- `%` の符号の書き換え。集合の文字は小文字にして、ほかの文字の符号は十六進の数字を小文字にする。 -/
def unmimeEscape (valid : Bytes) (a b : UInt8) : Bytes :=
  if isOwned valid (hexToChar a b) then [toLower (hexToChar a b)] else [ascii '%', toLower a, toLower b]

def unmime (valid : Bytes) : Bytes → Except Fault Bytes
  | [] => return []
  | ch :: rest =>
      if ch ≠ ascii '%' then do
        return toLower ch :: (← unmime valid rest)
      else
        match rest with
        | a :: b :: tail => if isOwned hexNumber a then do return unmimeEscape valid a b ++
            (← unmime valid tail) else throw .assertion
        | _ => throw .assertion

def unmimeAll : Bytes → Bytes
  | [] => []
  | ch :: rest =>
      match rest with
      | a :: b :: tail =>
          if ch = ascii '%' ∧ isOwned hexNumber a ∧ isOwned hexNumber b
            then hexToChar a b :: unmimeAll tail else ch :: unmimeAll (a :: b :: tail)
      | rest => ch :: unmimeAll rest

def normalizeHttpAddress (lowerAndNormalize : List Nat → Bool → Option (List Nat)) (url : Bytes) : Except Error Bytes := do
  let address ← HTTPAddress.ofUrl lowerAndNormalize .browser url
  if ¬ address.secure ∧ address.portNumber = defaultHttpPort then
    let path ← orFault (unmime pathChars address.parts.path)
    let norm := httpPrefix ++ [ascii '/', ascii '/'] ++ address.parts.host.map toLower ++ path
    if address.parts.query ≠ [] then
      return norm ++ ascii '?' :: (← orFault (unmime queryChars address.parts.query))
    else
      return norm
  else
    return []

end

end UnixCommons.HTTP
