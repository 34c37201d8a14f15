import UnixCommons.Lib.Search
import UnixCommons.Lib.Spec
import UnixCommons.String.StringManip

/-!
# URL の成分

`UrlAddress.cpp` の、URL を成分に分ける `split_url` と、成分を検査する `URLPartsChecker` の写し。URL の中を指すポインタは、指す先から終わりまでの
バイトで表す。終わりを越えて読むことと進むことは `pastEnd` である。
-/

namespace UnixCommons.HTTP

open Lib String.AsciiStringManip String.JsUnicode

inductive Fault
  | pastEnd
  | wrapped
  | assertion
  deriving DecidableEq, Repr

/-! ## 文字の集合 -/

def unreserved : Bytes := alphaNum ++ charCategory ['-', '.', '_', '~']

def subDelims : Bytes := charCategory ['!', '$', '&', '\'', '(', ')', '*', '+', ',', ';', '=']

def pchar : Bytes := unreserved ++ subDelims ++ charCategory [':', '@']

def nonCompliant : Bytes := charCategory ['{', '}', '|', '^', '~', '[', ']', '`']

def urlParserSchemeEnd : Bytes := charCategory [':', '/', '?', '#']

def urlParserAuthorityEnd : Bytes := List.map ascii ['/', '?', '#']

def urlParserPathEnd : Bytes := List.map ascii ['?', '#']

def urlParserQueryEnd : Bytes := List.map ascii ['#']

def schemeFirst : Bytes := alpha

def schemeNotFirst : Bytes := alphaNum ++ charCategory ['-', '+', '.']

def userInfo : Bytes := unreserved ++ subDelims ++ charCategory [':']

def hostChars : Bytes := unreserved ++ subDelims

def portChars : Bytes := number

def pathChars : Bytes := nonCompliant ++ pchar ++ charCategory ['/']

def queryChars : Bytes := nonCompliant ++ pchar ++ charCategory ['/', '?']

def fragmentChars : Bytes := nonCompliant ++ pchar ++ charCategory ['/', '?']

def labelFirstLast : Bytes := alphaNum ++ charCategory ['_']

def labelMiddle : Bytes := alphaNum ++ charCategory ['-', '_']

def maxHostnameLabelSize : Nat := 63

def maxHostnameSize : Nat := 255

/-! ## 成分 -/

structure UrlParts where
  hasScheme : Bool
  scheme : Bytes
  hasUserinfo : Bool
  userinfo : Bytes
  hasHost : Bool
  host : Bytes
  hasPort : Bool
  port : Bytes
  hasPath : Bool
  path : Bytes
  hasQuery : Bool
  query : Bytes
  hasFragment : Bool
  fragment : Bytes
  deriving DecidableEq, Repr

def UrlParts.of (scheme userinfo host port path query fragment : Bytes) : UrlParts where
  hasScheme := scheme ≠ []
  scheme := scheme
  hasUserinfo := userinfo ≠ []
  userinfo := userinfo
  hasHost := host ≠ []
  host := host
  hasPort := port ≠ []
  port := port
  hasPath := path ≠ []
  path := path
  hasQuery := query ≠ []
  query := query
  hasFragment := fragment ≠ []
  fragment := fragment

structure ExtendedUrlParts extends UrlParts where
  authority : Bytes
  deriving DecidableEq, Repr

def ExtendedUrlParts.cleared : ExtendedUrlParts where
  toUrlParts := ⟨false, [], false, [], false, [], false, [], false, [], false, [], false, []⟩
  authority := []

/-! ## ポインタ -/

def deref : Bytes → Except Fault UInt8
  | [] => throw .pastEnd
  | ch :: _ => return ch

def advance (n : Nat) (cur : Bytes) : Except Fault Bytes := if n ≤ cur.length then return cur.drop n else throw .pastEnd

def between (cur last : Bytes) : Bytes := cur.take (cur.length - last.length)

def findOwned (category cur : Bytes) : Bytes := cur.dropWhile fun ch => !isOwned category ch

def find (ch : UInt8) (str : Bytes) : Option Nat := lowest (fun i => str.getD i 0 == ch) str.length

def rfind (ch : UInt8) (str : Bytes) : Option Nat := highest (fun i => str.getD i 0 == ch) str.length

/-- `assign(str, pos, count)` と `substr(pos, count)`。 -/
def substr (str : Bytes) (pos count : Nat) : Except Fault Bytes :=
  if pos ≤ str.length then return (str.drop pos).take (min count (str.length - pos)) else throw .pastEnd

def difference (m n : Nat) : Except Fault Nat := if n ≤ m then return m - n else throw .wrapped

/-! ## 分ける -/

def splitFragment (parts : ExtendedUrlParts) (cur : Bytes) : Except Fault ExtendedUrlParts := do
  if (← deref cur) = ascii '#' then
    return { parts with hasFragment := true, fragment := ← advance 1 cur }
  else
    throw .assertion

def splitQuery (parts : ExtendedUrlParts) (cur : Bytes) : Except Fault ExtendedUrlParts := do
  if (← deref cur) = ascii '?' then
    let cur ← advance 1 cur
    let last := findOwned urlParserQueryEnd cur
    let parts := { parts with hasQuery := true, query := between cur last }
    if last = [] then return parts else splitFragment parts last
  else
    splitFragment parts cur

def splitPath (parts : ExtendedUrlParts) (cur : Bytes) : Except Fault ExtendedUrlParts :=
  let last := findOwned urlParserPathEnd cur
  let parts := { parts with hasPath := true, path := between cur last }
  if last = [] then return parts else splitQuery parts last

/-- 方式の後の部分。 -/
def splitHierarchy (parts : ExtendedUrlParts) (cur : Bytes) : Except Fault ExtendedUrlParts := do
  let ch ← deref cur
  if ch ≠ ascii '?' ∧ ch ≠ ascii '#' then
    let next ← advance 1 cur
    if ch = ascii '/' ∧ next ≠ [] ∧ next.head? = some (ascii '/') then
      let cur ← advance 2 cur
      if cur = [] then
        return parts
      else
        let last := findOwned urlParserAuthorityEnd cur
        let parts := { parts with authority := between cur last }
        if last = [] then return parts else splitPath parts last
    else
      splitPath parts cur
  else
    splitQuery parts cur

def splitComponents (url : Bytes) : Except Fault ExtendedUrlParts := do
  let parts := ExtendedUrlParts.cleared
  let last := findOwned urlParserSchemeEnd url
  if last = [] then
    return { parts with hasPath := true, path := url }
  else if (← deref last) = ascii ':' then
    let parts := { parts with hasScheme := true, scheme := between url last }
    let cur ← advance 1 last
    if cur = [] then return parts else splitHierarchy parts cur
  else
    splitHierarchy parts url

/-- 権限の、利用者の部分。 -/
def splitUserinfo (parts : ExtendedUrlParts) : Except Fault (ExtendedUrlParts × Nat) :=
  match find (ascii '@') parts.authority with
  | none => return (parts, 0)
  | some hostBegin => do
      if hostBegin ≠ 0 then
        return ({ parts with hasUserinfo := true, userinfo := ← substr parts.authority 0 hostBegin }, hostBegin + 1)
      else
        return (parts, hostBegin + 1)

/-- 権限の、ポートの部分。 -/
def splitPort (parts : ExtendedUrlParts) (hostBegin : Nat) : Except Fault (ExtendedUrlParts × Nat) :=
  match (rfind (ascii ':') parts.authority).filter fun hostEnd => ¬ (hostBegin ≠ 0 ∧ hostEnd < hostBegin) with
  | none => return (parts, parts.authority.length)
  | some hostEnd => do
      if hostEnd ≠ (← difference parts.authority.length 1) then
        let count ← difference parts.authority.length hostEnd
        return ({ parts with hasPort := true, port := ← substr parts.authority (hostEnd + 1) count }, hostEnd)
      else
        return (parts, hostEnd)

def splitAuthority (parts : ExtendedUrlParts) : Except Fault ExtendedUrlParts :=
  if parts.authority = [] then
    return parts
  else do
    let (parts, hostBegin) ← splitUserinfo parts
    let (parts, hostEnd) ← splitPort parts hostBegin
    let count ← difference hostEnd hostBegin
    return { parts with hasHost := true, host := ← substr parts.authority hostBegin count }

def splitUrl (url : Bytes) : Except Fault ExtendedUrlParts := do splitAuthority (← splitComponents url)

/-! ## 検査 -/

/-- 検査の誤り。文は、`invalid`、種類、引用符で囲んだ URL である。 -/
structure Invalid where
  type : String
  url : Bytes
  deriving DecidableEq, Repr

def makeInvalid (type : String) (url : Bytes) : Except Invalid Unit := throw ⟨type, url⟩

def isValidChars (str category : Bytes) : Bool := str.all (isOwned category)

/-- `find_invalid(str, end, category)`。 -/
def findInvalid (category : Bytes) : Bytes → Bytes
  | [] => []
  | ch :: rest =>
      if isOwned category ch then
        findInvalid category rest
      else if ch ≠ ascii '%' then
        ch :: rest
      else
        match rest with
        | a :: b :: tail => if isOwned hexNumber a ∧ isOwned hexNumber b then findInvalid category tail else ch :: rest
        | _ => ch :: rest

def isValidEncoded (encodedStr category : Bytes) : Bool := findInvalid category encodedStr = []

/-- 空の語も返す `Splitter` の語。終わりの区切りの後に語はない。 -/
def tokens {α : Type} [DecidableEq α] (separator : α) (token : List α) : List α → List (List α)
  | [] => if token = [] then [] else [token]
  | ch :: str => if ch = separator then token :: tokens separator [] str else tokens separator (token ++ [ch]) str

def checkLabels (url : Bytes) : List Bytes → Except Invalid Unit
  | [] => return ()
  | label :: labels =>
      if label.length = 0 ∨ label.length > maxHostnameLabelSize then
        makeInvalid "length of host's label in url" url
      else if ¬ isOwned labelFirstLast (label.getD 0 0) ∨
          (label.length > 1 ∧ ¬ isOwned labelFirstLast (label.getD (label.length - 1) 0)) ∨
          (label.length > 2 ∧ ¬ isValidChars ((label.drop 1).take (label.length - 2)) labelMiddle) then
        makeInvalid "characters in host's label in url" url
      else
        checkLabels url labels

def checkScheme (url : Bytes) (parts : UrlParts) : Except Invalid Unit :=
  match parts.scheme with
  | [] => if parts.hasScheme then makeInvalid "scheme in url" url else return ()
  | ch :: rest =>
      if ¬ isOwned schemeFirst ch ∨ ¬ isValidChars rest schemeNotFirst then makeInvalid "scheme in url" url else return ()

def checkEncoded (type : String) (url part category : Bytes) : Except Invalid Unit :=
  if part ≠ [] ∧ ¬ isValidEncoded part category then makeInvalid type url else return ()

def checkHost (url : Bytes) (parts : UrlParts) : Except Invalid Unit :=
  if parts.host ≠ [] then
    if parts.host.length > maxHostnameSize ∨ ¬ isValidChars parts.host hostChars then
      makeInvalid "host in url" url
    else
      checkLabels url (tokens (ascii '.') []
        (if parts.host.getLast? = some (ascii '.') then parts.host.dropLast else parts.host))
  else if parts.userinfo ≠ [] ∨ parts.port ≠ [] then
    makeInvalid "empty host in url" url
  else
    return ()

def checkPort (url : Bytes) (parts : UrlParts) : Except Invalid Unit :=
  if parts.port ≠ [] ∧ ¬ isValidChars parts.port portChars then makeInvalid "port in url" url else return ()

def pathStart (parts : UrlParts) : Bool :=
  if parts.host ≠ [] then parts.path.head? ≠ some (ascii '/') else parts.path.take 2 = [ascii '/', ascii '/']

def checkPath (url : Bytes) (parts : UrlParts) : Except Invalid Unit :=
  if parts.path ≠ [] ∧ (pathStart parts ∨ ¬ isValidEncoded parts.path pathChars)
    then makeInvalid "path in url" url else return ()

/-- `URLPartsChecker::operator ()`。 -/
def urlPartsChecker (url : Bytes) (parts : UrlParts) : Except Invalid Unit := do
  checkScheme url parts
  checkEncoded "userinfo in url" url parts.userinfo userInfo
  checkHost url parts
  checkPort url parts
  checkPath url parts
  checkEncoded "query in url" url parts.query queryChars
  checkEncoded "fragment in url" url parts.fragment fragmentChars

end UnixCommons.HTTP
