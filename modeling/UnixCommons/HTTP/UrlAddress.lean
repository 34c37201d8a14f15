import UnixCommons.HTTP.Idna

/-!
# URL の組み立て

`UrlAddress.cpp` の `URLAddress` の写し。成分から URL を組み立て、成分を新しい URL の中の位置から作り直す。写しは文字列を写さずに、成分から
組み立て直す。自分自身への代入では、作り直す前に消した成分を読む。
-/

namespace UnixCommons.HTTP

open Lib String.AsciiStringManip

inductive Error
  | fault (f : Fault)
  | invalid (e : Invalid)
  | nilUrl
  | invalidPort (value : Bytes)
  | idna (e : IdnaError) (url : Bytes)
  | punycode (f : String.Punycode.Fault)
  deriving DecidableEq, Repr

structure URLAddress where
  url : Bytes
  parts : ExtendedUrlParts
  deriving DecidableEq, Repr

def URLAddress.empty : URLAddress := ⟨[], ExtendedUrlParts.cleared⟩

def orFault {α : Type} (x : Except Fault α) : Except Error α := x.mapError Error.fault

def orInvalid (x : Except Invalid Unit) : Except Error Unit := x.mapError Error.invalid

/-! ## 組み立て -/

def hasAuthority (parts : UrlParts) : Bool := parts.hasUserinfo || parts.host ≠ [] || parts.hasPort

def authorityText (parts : UrlParts) : Bytes :=
  let text := if parts.hasUserinfo then parts.userinfo ++ [ascii '@'] else []
  let text := text ++ parts.host
  if parts.hasPort then text ++ ascii ':' :: parts.port else text

def assembleUrl (parts : UrlParts) : Bytes :=
  let newUrl := if parts.scheme ≠ [] then parts.scheme ++ [ascii ':'] else []
  let newUrl := if hasAuthority parts then newUrl ++ [ascii '/', ascii '/'] ++ authorityText parts else newUrl
  let newUrl := newUrl ++ parts.path
  let newUrl := if parts.hasQuery then newUrl ++ ascii '?' :: parts.query else newUrl
  if parts.hasFragment then newUrl ++ ascii '#' :: parts.fragment else newUrl

/-- `assign(ptr, count)`。`ptr` は `url` の始まりからの位置である。 -/
def assignAt (url : Bytes) (ptr count : Nat) : Except Fault Bytes :=
  if ptr + count ≤ url.length then return (url.drop ptr).take count else throw .pastEnd

def adjustScheme (url : Bytes) (parts : UrlParts) (p : ExtendedUrlParts) : Except Fault (ExtendedUrlParts × Nat) := do
  if parts.scheme ≠ [] then
    return ({ p with hasScheme := true, scheme := ← assignAt url 0 parts.scheme.length }, parts.scheme.length + 1)
  else
    return (p, 0)

def adjustHost (parts : UrlParts) (p : ExtendedUrlParts) : Except Fault ExtendedUrlParts := do
  let hostBegin := parts.userinfo.length
  let (p, hostBegin) ←
    if parts.hasUserinfo then
      pure ({ p with hasUserinfo := true, userinfo := ← substr p.authority 0 parts.userinfo.length }, hostBegin + 1)
    else
      pure (p, hostBegin)
  let p ←
    if parts.host ≠ [] then
      pure { p with hasHost := true, host := ← substr p.authority hostBegin parts.host.length }
    else
      pure p
  if parts.hasPort then
    let portBegin ← difference p.authority.length parts.port.length
    return { p with hasPort := true, port := ← substr p.authority portBegin parts.port.length }
  else
    return p

def adjustAuthority (url : Bytes) (present : Bool) (authoritySize : Nat) (parts : UrlParts)
    (p : ExtendedUrlParts) (ptr : Nat) : Except Fault (ExtendedUrlParts × Nat) := do
  if present then
    let p := { p with authority := ← assignAt url (ptr + 2) authoritySize }
    return (← adjustHost parts p, ptr + 2 + p.authority.length)
  else
    return (p, ptr)

def adjustPath (url : Bytes) (parts : UrlParts) (p : ExtendedUrlParts) (ptr : Nat) : Except Fault ExtendedUrlParts := do
  let p := { p with hasPath := true, path := ← assignAt url ptr parts.path.length }
  let ptr := ptr + parts.path.length
  let (p, ptr) ←
    if parts.hasQuery then
      pure ({ p with hasQuery := true, query := ← assignAt url (ptr + 1) parts.query.length }, ptr + 1 + parts.query.length)
    else
      pure (p, ptr)
  if parts.hasFragment then
    return { p with hasFragment := true, fragment := ← assignAt url (ptr + 1) parts.fragment.length }
  else
    return p

def adjustParts (url : Bytes) (present : Bool) (authoritySize : Nat) (parts : UrlParts) : Except Fault ExtendedUrlParts := do
  let (p, ptr) ← adjustScheme url parts ExtendedUrlParts.cleared
  let (p, ptr) ← adjustAuthority url present authoritySize parts p ptr
  adjustPath url parts p ptr

/-- `assign_url_parts_`。`aliased` は、`parts` が作り直す成分そのものであることである。 -/
def assignUrlParts (parts : UrlParts) (check aliased : Bool) : Except Error URLAddress := do
  let newUrl := assembleUrl parts
  let authoritySize := (authorityText parts).length
  if check then
    orInvalid (urlPartsChecker newUrl parts)
  let after := if aliased then ExtendedUrlParts.cleared.toUrlParts else parts
  return ⟨newUrl, ← orFault (adjustParts newUrl (hasAuthority parts) authoritySize after)⟩

/-! ## 構築と写し -/

def urlWithoutCheck (value : Bytes) : Except Error URLAddress :=
  if value = [] then return URLAddress.empty else do return ⟨value, ← orFault (splitUrl value)⟩

def URLAddress.ofUrl (value : Bytes) : Except Error URLAddress := do
  let address ← urlWithoutCheck value
  orInvalid (urlPartsChecker address.url address.parts.toUrlParts)
  return address

def URLAddress.ofParts (scheme userinfo host port path query fragment : Bytes) : Except Error URLAddress :=
  assignUrlParts (UrlParts.of scheme userinfo host port path query fragment) true false

inductive Copying
  | construct
  | assign
  | selfAssign
  deriving DecidableEq, Repr

/-- 写しの構築と `operator =`。 -/
def URLAddress.copy (way : Copying) (another : URLAddress) : Except Error URLAddress :=
  assignUrlParts another.parts.toUrlParts false (way = .selfAssign)

def URLAddress.components (a : URLAddress) : List Bytes :=
  [a.parts.scheme, a.parts.userinfo, a.parts.host, a.parts.port, a.parts.path, a.parts.query, a.parts.fragment]

end UnixCommons.HTTP
