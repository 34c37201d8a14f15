import UnixCommons.Generics.Time
import UnixCommons.HTTP.HttpAddress
import UnixCommons.String.Tokenizer

/-!
# クッキー

`HTTPCookie.cpp` の、クッキーの読み取りと送り出しの写し。`CookieDef` と `PersistentCookieDef` は同じメンバーを持つので、一つの構造で表す。
-/

namespace UnixCommons.HTTP

open Lib String.AsciiStringManip Generics

structure CookieDef where
  name : Bytes
  value : Bytes
  domain : Bytes
  path : Bytes
  expires : Time
  secure : Bool
  deriving DecidableEq, Repr

def cookieSeparator : Bytes := List.map ascii [';', ' ']

def cookiePair (cookie : CookieDef) : Bytes := cookie.name ++ ascii '=' :: cookie.value

/-! ## `Cookie` のヘッダー -/

/-- ループの三つの `continue`。 -/
def skips (url : HTTPAddress) (it : CookieDef) : Bool :=
  let domainLen := it.domain.length
  let host := url.parts.host
  if (it.secure ∧ ¬ url.secure) ∨ domainLen > host.length then true
  else if ¬ caselessEqual ((host.drop (host.length - domainLen)).take domainLen) it.domain then true
  else url.parts.path.take it.path.length ≠ it.path

def cookieHeaderLoop (url : HTTPAddress) : List CookieDef → Bool → Bytes → Bytes
  | [], _, result => result
  | it :: list, isEmpty, result =>
      if skips url it then cookieHeaderLoop url list isEmpty result
      else cookieHeaderLoop url list false ((if isEmpty then result else result ++ cookieSeparator) ++ cookiePair it)

def cookieHeader (list : List CookieDef) (url : HTTPAddress) : Bytes := cookieHeaderLoop url list true []

/-! ## `CookieList` -/

structure Cookie where
  name : Bytes
  value : Bytes
  deriving DecidableEq, Repr

structure Header where
  name : Bytes
  value : Bytes
  deriving DecidableEq, Repr

def cookieName : Bytes := List.map ascii ['C', 'o', 'o', 'k', 'i', 'e']

/-- `InvalidArgument` の二つの場合と、計算が止まる理由。 -/
inductive CookieError
  | invalidFormat (token : Bytes)
  | emptyName (cookie : Bytes)
  | split (f : String.Tokenizer.Fault)
  deriving DecidableEq, Repr

def cookieSepFindOwned : Bytes → Bytes × Option Nat
  | [] => ([], none)
  | [_] => ([], none)
  | ch :: next :: str =>
      if ch ≠ ascii ';' ∧ ch ≠ ascii ',' then cookieSepFindOwned (next :: str)
      else if next = ascii ' ' then (ch :: next :: str, some 2)
      else cookieSepFindOwned (next :: str)

/-- `CookieSep`。`find_nonowned` は使われない。 -/
def cookieSep : String.Tokenizer.Category where
  findOwned str := (some (cookieSepFindOwned str).1, (cookieSepFindOwned str).2)
  findNonowned _ := none

namespace CookieList

open String.Tokenizer

/-- 語から、名前と値を読む。`none` は `NPOS` である。 -/
def parseCookie (cookie : Bytes) : Except CookieError Cookie :=
  match cookie.idxOf? (ascii '=') with
  | none => throw (.invalidFormat [])
  | some pos =>
      let name := trim isSpace (cookie.take pos)
      if name = [] then throw (.emptyName cookie) else return ⟨name, trim isSpace (cookie.drop (pos + 1))⟩

/-- `it` から探すループ。 -/
def replaceLoop (cookie : Cookie) : List Cookie → List Cookie
  | [] => [cookie]
  | it :: list => if cookie.name = it.name then { it with value := cookie.value } :: list else it :: replaceLoop cookie list

/-- `it` は、`replace_duplicate` ならば終わり、そうでなければ始めである。 -/
def put (replaceDuplicate : Bool) (list : List Cookie) (cookie : Cookie) : List Cookie :=
  if replaceDuplicate then list ++ [cookie] else replaceLoop cookie list

def loadTokens (replaceDuplicate : Bool) : Nat → SplitterState → List Cookie → Except CookieError (List Cookie)
  | 0, _, _ => throw (.split .fuel)
  | fuel + 1, state, list => do
      match ← (getToken true cookieSep state).mapError .split with
      | (none, _) => return list
      | (some cookie, state) =>
          if cookie = [] then
            loadTokens replaceDuplicate fuel state list
          else
            loadTokens replaceDuplicate fuel state (put replaceDuplicate list (← parseCookie cookie))

def loadHeader (replaceDuplicate : Bool) (list : List Cookie) (it : Header) : Except CookieError (List Cookie) :=
  if !caselessEqual it.name cookieName then
    return list
  else
    let header := trim isSpace it.value
    loadTokens replaceDuplicate (header.length + 1) (.of header) list

def loadFromHeaders (headers : List Header) (replaceDuplicate : Bool) (list : List Cookie) :
    Except CookieError (List Cookie) :=
  headers.foldlM (loadHeader replaceDuplicate) list

def cookieHeaderLoop : List Cookie → Bool → Bytes → Bytes
  | [], _, result => result
  | it :: list, isEmpty, result =>
      cookieHeaderLoop list false ((if isEmpty then result else result ++ cookieSeparator) ++
        (it.name ++ ascii '=' :: it.value))

def cookieHeader (list : List Cookie) : Bytes := cookieHeaderLoop list true []

end CookieList

/-! ## `Set-Cookie` のヘッダーの読み取り

後ろから読み、属性でない最初の項に出会うまでを、後に続く全ての項の属性とする。期限の読み取り `get_expires` は引数とする。
-/

namespace CookieDefList

open String.Tokenizer

def setCookieName : Bytes := List.map ascii ['S', 'e', 't', '-', 'C', 'o', 'o', 'k', 'i', 'e']

def secureName : Bytes := List.map ascii ['s', 'e', 'c', 'u', 'r', 'e']

def pathName : Bytes := List.map ascii ['p', 'a', 't', 'h']

def domainName : Bytes := List.map ascii ['d', 'o', 'm', 'a', 'i', 'n']

def expiresName : Bytes := List.map ascii ['e', 'x', 'p', 'i', 'r', 'e', 's']

def slashPath : Bytes := [ascii '/']

/-- 一つのヘッダーを読む間、変わらない物。`now` は `get_time_of_day()` である。 -/
structure Env (ε : Type) where
  getExpires : Bytes → Except ε Time
  url : HTTPAddress
  now : Time
  keepExpired : Bool

structure ParseState where
  list : List CookieDef
  cookie : CookieDef
  controlInfo : Bool
  expired : Bool

/-- `it` を消した後、`it` は `list.end()` ではない。`none` は、終わりに達したことである。 -/
def storeLoop (cookie : CookieDef) (erase : Bool) : List CookieDef → Option (List CookieDef)
  | [] => none
  | it :: list =>
      if caselessEqual it.domain cookie.domain ∧ it.path = cookie.path ∧ it.name = cookie.name then
        some (if erase then list else cookie :: list)
      else
        (storeLoop cookie erase list).map (it :: ·)

def store (keepExpired expired : Bool) (list : List CookieDef) (cookie : CookieDef) : List CookieDef :=
  match storeLoop cookie (expired && !keepExpired) list with
  | some list => list
  | none => if !expired || keepExpired then cookie :: list else list

def fillDefaults (url : HTTPAddress) (cookie : CookieDef) : CookieDef :=
  let cookie :=
    if cookie.path = [] then { cookie with path := url.parts.path }
    else if cookie.path = [ascii '\\'] then { cookie with path := slashPath }
    else cookie
  if cookie.domain = [] ∨ cookie.domain = [ascii '.'] then { cookie with domain := url.parts.host } else cookie

/-- 属性を読む。属性でない時は、既定の値を補い、`control_info` を下ろす。 -/
def readAttribute {ε : Type} (env : Env ε) (state : ParseState) (name value : Bytes) : Except ε ParseState :=
  if caselessEqual name secureName then
    return { state with cookie := { state.cookie with secure := true } }
  else if caselessEqual name pathName then
    return { state with cookie := { state.cookie with path := value } }
  else if caselessEqual name domainName then
    return { state with cookie := { state.cookie with domain := value } }
  else if caselessEqual name expiresName then do
    let expires ← env.getExpires value
    return { state with cookie := { state.cookie with expires }, expired := expires.less env.now }
  else
    return { state with cookie := fillDefaults env.url state.cookie, controlInfo := false }

def parseValue {ε : Type} (env : Env ε) (state : ParseState) (field : Bytes) (sep : Option Nat) : Except ε ParseState := do
  let (name, value) :=
    match sep with
    | some n => (trim isSpace (field.take (field.length - n - 1)), trim isSpace (field.drop (field.length - n)))
    | none => (trim isSpace field, [])
  if name = [] then
    return state
  else
    let state ← if state.controlInfo then readAttribute env state name value else pure state
    if !state.controlInfo then
      let cookie := { state.cookie with name, value }
      return { state with cookie, list := store env.keepExpired state.expired state.list cookie }
    else
      return state

/-- 後ろから読むループ。`first` は `itor == HEADER.rbegin()`、`field` は `itor` から `cookie_end` までの文字である。 -/
def scanLoop {ε : Type} (env : Env ε) : Bytes → Bool → Bytes → Option Nat → ParseState → Except ε ParseState
  | [], first, field, sep, state => if !first then parseValue env state field sep else return state
  | ch :: rest, first, field, sep, state =>
      if ch = ascii ';' then do
        let state ← if !first then parseValue env state field sep else pure state
        scanLoop env rest false [] none state
      else
        scanLoop env rest false (ch :: field) (if ch = ascii '=' then some field.length else sep) state

def loadHeader {ε : Type} (env : Env ε) (list : List CookieDef) (it : Header) : Except ε (List CookieDef) :=
  if !caselessEqual it.name setCookieName then
    return list
  else do
    let cookie : CookieDef := ⟨[], [], [], [], Time.zero, env.url.secure⟩
    return (← scanLoop env it.value.reverse true [] none ⟨list, cookie, true, false⟩).list

def loadFromHeaders {ε : Type} (env : Env ε) (headers : List Header) (list : List CookieDef) : Except ε (List CookieDef) :=
  headers.foldlM (loadHeader env) list

end CookieDefList

end UnixCommons.HTTP
