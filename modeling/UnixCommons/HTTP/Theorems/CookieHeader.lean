import UnixCommons.HTTP.Lemmas.CookieStore
import UnixCommons.HTTP.Lemmas.CookieList

/-!
# クッキーの定理

クッキーがどこに属するかは、ホストと経路の、区切りで分けた部分の一致で決まる。
-/

namespace UnixCommons.HTTP

open Lib String.AsciiStringManip Generics

/-! ## 属すること -/

/-- 一つの先頭の `.` を除き、小文字にしたドメイン。 -/
def bareDomain (domain : Bytes) : Bytes := (if domain.head? = some (ascii '.') then domain.tail else domain).map toLower

/-- ドメインは、ホストに等しいか、`.` に続くホストの終わりである。 -/
def DomainMatches (host domain : Bytes) : Prop :=
  host.map toLower = bareDomain domain ∨ ascii '.' :: bareDomain domain <:+ host.map toLower

/-- クッキーの経路は、要求の経路に等しいか、`/` の境で終わるその始まりである。 -/
def PathMatches (request path : Bytes) : Prop :=
  request = path ∨ ∃ rest, request = path ++ rest ∧ (path.getLast? = some (ascii '/') ∨ rest.head? = some (ascii '/'))

structure Belongs (url : HTTPAddress) (cookie : CookieDef) : Prop where
  domain : DomainMatches url.parts.host cookie.domain
  path : PathMatches url.parts.path cookie.path
  secure : cookie.secure = true → url.secure = true

/-! ## 境を越えること -/

/-- `.` で始まらないドメインは、ホストの、`.` でない文字に続く終わりである。 -/
def CutsHost (host domain : Bytes) : Prop :=
  domain.head? ≠ some (ascii '.') ∧ ∃ pre ch, host.map toLower = pre ++ ch :: domain.map toLower ∧ ch ≠ ascii '.'

/-- `/` で終わらない経路の後に、`/` でない文字が続く。 -/
def CutsPath (request path : Bytes) : Prop :=
  path.getLast? ≠ some (ascii '/') ∧ ∃ ch rest, request = path ++ ch :: rest ∧ ch ≠ ascii '/'

def DotsHost (host domain : Bytes) : Prop := ∃ rest, domain = ascii '.' :: rest ∧ host.map toLower = rest.map toLower

/-- 安全の条件に合うのに、文字列の比較が境の規則と違う答えを出すクッキー。 -/
inductive Misjudged (url : HTTPAddress) (cookie : CookieDef) : Prop
  | leaksHost (hsecure : cookie.secure = true → url.secure = true)
      (hcut : CutsHost url.parts.host cookie.domain) (hpath : cookie.path <+: url.parts.path)
  | leaksPath (hsecure : cookie.secure = true → url.secure = true)
      (hdomain : cookie.domain.map toLower <:+ url.parts.host.map toLower)
      (hcut : CutsPath url.parts.path cookie.path)
  | withheld (hsecure : cookie.secure = true → url.secure = true) (hdots : DotsHost url.parts.host cookie.domain)
      (hpath : PathMatches url.parts.path cookie.path)

variable {url : HTTPAddress} {cookie : CookieDef} {host domain request path : Bytes}

theorem bareDomain_dot {rest : Bytes} : bareDomain (ascii '.' :: rest) = rest.map toLower := by simp [bareDomain]

theorem bareDomain_of_ne (h : domain.head? ≠ some (ascii '.')) :
    bareDomain domain = domain.map toLower := by simp [bareDomain, h]

theorem map_toLower_dot {rest : Bytes} : (ascii '.' :: rest).map toLower = ascii '.' :: rest.map toLower := by
  have hdot : toLower (ascii '.') = ascii '.' := by decide
  rw [List.map_cons, hdot]

theorem suffix_or_dotsHost (h : DomainMatches host domain) :
    domain.map toLower <:+ host.map toLower ∨ DotsHost host domain := by
  by_cases hdot : domain.head? = some (ascii '.')
  · obtain ⟨rest, rfl⟩ := List.head?_eq_some_iff.mp hdot
    rw [DomainMatches, bareDomain_dot] at h
    rcases h with heq | hsuffix
    · exact .inr ⟨rest, rfl, heq⟩
    · rw [map_toLower_dot]
      exact .inl hsuffix
  · rw [DomainMatches, bareDomain_of_ne hdot] at h
    rcases h with heq | hsuffix
    · exact .inl (heq ▸ List.suffix_rfl)
    · exact .inl ((List.suffix_cons _ _).trans hsuffix)

theorem domainMatches_or_cutsHost (h : domain.map toLower <:+ host.map toLower) :
    DomainMatches host domain ∨ CutsHost host domain := by
  by_cases hdot : domain.head? = some (ascii '.')
  · obtain ⟨rest, rfl⟩ := List.head?_eq_some_iff.mp hdot
    rw [map_toLower_dot] at h
    exact .inl (.inr (bareDomain_dot ▸ h))
  · obtain ⟨pre, hpre⟩ := h
    rcases List.eq_nil_or_concat pre with rfl | ⟨pre, ch, rfl⟩
    · exact .inl (.inl (by rw [bareDomain_of_ne hdot, ← hpre, List.nil_append]))
    · rw [List.concat_append] at hpre
      by_cases hch : ch = ascii '.'
      · exact .inl (.inr ⟨pre, by rw [bareDomain_of_ne hdot, ← hpre, hch]⟩)
      · exact .inr ⟨hdot, pre, ch, hpre.symm, hch⟩

theorem CutsHost.not_domainMatches (h : CutsHost host domain) : ¬ DomainMatches host domain := by
  obtain ⟨hdot, pre, ch, hhost, hch⟩ := h
  rw [DomainMatches, bareDomain_of_ne hdot, hhost]
  rintro (heq | ⟨pre', hpre'⟩)
  · have := congrArg List.length heq
    rw [List.length_append, List.length_cons] at this
    omega
  · have hcut := (List.append_inj' hpre' rfl).2
    exact hch (List.cons.inj hcut).1.symm

theorem CutsHost.ends (h : CutsHost host domain) : domain.map toLower <:+ host.map toLower := by
  obtain ⟨-, pre, ch, hhost, -⟩ := h
  exact ⟨pre ++ [ch], by rw [hhost, List.append_assoc, List.singleton_append]⟩

theorem DotsHost.domainMatches (h : DotsHost host domain) : DomainMatches host domain := by
  obtain ⟨rest, rfl, hhost⟩ := h
  exact .inl (by rw [bareDomain_dot, hhost])

theorem DotsHost.not_suffix (h : DotsHost host domain) : ¬ domain.map toLower <:+ host.map toLower := by
  obtain ⟨rest, rfl, hhost⟩ := h
  intro hsuffix
  have := hsuffix.length_le
  rw [hhost, List.length_map, List.length_map, List.length_cons] at this
  omega

theorem PathMatches.starts (h : PathMatches request path) : path <+: request := by
  rcases h with rfl | ⟨rest, rfl, -⟩
  · exact List.prefix_rfl
  · exact List.prefix_append _ _

theorem pathMatches_or_cutsPath (h : path <+: request) : PathMatches request path ∨ CutsPath request path := by
  obtain ⟨rest, rfl⟩ := h
  by_cases hlast : path.getLast? = some (ascii '/')
  · exact .inl (.inr ⟨rest, rfl, .inl hlast⟩)
  · cases rest with
    | nil => exact .inl (.inl (List.append_nil path))
    | cons ch rest =>
        by_cases hch : ch = ascii '/'
        · exact .inl (.inr ⟨ch :: rest, rfl, .inr (by rw [hch, List.head?_cons])⟩)
        · exact .inr ⟨hlast, ch, rest, rfl, hch⟩

theorem CutsPath.not_pathMatches (h : CutsPath request path) : ¬ PathMatches request path := by
  obtain ⟨hlast, ch, rest, rfl, hch⟩ := h
  rintro (heq | ⟨rest', hrest, hl | hr⟩)
  · have := congrArg List.length heq
    rw [List.length_append, List.length_cons] at this
    omega
  · exact hlast hl
  · rw [← List.append_cancel_left hrest, List.head?_cons, Option.some.injEq] at hr
    exact hch hr

theorem CutsPath.starts (h : CutsPath request path) : path <+: request := by
  obtain ⟨-, ch, rest, rfl, -⟩ := h
  exact List.prefix_append _ _

/-! ## クッキーごとの比較 -/

theorem skips_iff_belongs_iff : (skips url cookie = false ↔ Belongs url cookie) ↔ ¬ Misjudged url cookie := by
  rw [skips_eq_false_iff]
  constructor
  · rintro hiff (⟨hsec, hcut, hpath⟩ | ⟨hsec, hdomain, hcut⟩ | ⟨hsec, hdots, hpath⟩)
    · exact hcut.not_domainMatches (hiff.mp ⟨hsec, hcut.ends, hpath⟩).domain
    · exact hcut.not_pathMatches (hiff.mp ⟨hsec, hdomain, hcut.starts⟩).path
    · exact hdots.not_suffix (hiff.mpr ⟨hdots.domainMatches, hpath, hsec⟩).2.1
  · intro hok
    constructor
    · rintro ⟨hsec, hdomain, hpath⟩
      refine ⟨?_, ?_, hsec⟩
      · rcases domainMatches_or_cutsHost hdomain with hm | hcut
        · exact hm
        · exact absurd (.leaksHost hsec hcut hpath) hok
      · rcases pathMatches_or_cutsPath hpath with hm | hcut
        · exact hm
        · exact absurd (.leaksPath hsec hdomain hcut) hok
    · rintro ⟨hdomain, hpath, hsec⟩
      refine ⟨hsec, ?_, hpath.starts⟩
      rcases suffix_or_dotsHost hdomain with hs | hdots
      · exact hs
      · exact absurd (.withheld hsec hdots hpath) hok

/-! ## ヘッダー -/

open Classical in
noncomputable def belonging (url : HTTPAddress) (list : List CookieDef) : List CookieDef :=
  list.filter fun cookie => Belongs url cookie

theorem cookie_header_belongs_iff (list : List CookieDef) (url : HTTPAddress) :
    cookieHeader list url = joinPairs (sent url list) ∧
      (sent url list = belonging url list ↔ ∀ cookie ∈ list, ¬ Misjudged url cookie) := by
  refine ⟨cookieHeader_eq, ?_⟩
  unfold sent belonging
  constructor
  · intro heq cookie hmem
    rw [← skips_iff_belongs_iff]
    have hmemIff := congrArg (cookie ∈ ·) heq
    simpa [hmem] using hmemIff
  · intro hok
    apply List.filter_congr
    intro cookie hmem
    have hiff := skips_iff_belongs_iff.mpr (hok cookie hmem)
    cases hskip : skips url cookie <;> simp [hskip] at hiff ⊢ <;> exact hiff

/-- `example.com` のクッキーは、`http://badexample.com/` に送られるが、そこに属さない。 -/
theorem cookie_header_belongs_leak :
    let url := List.map ascii ['h', 't', 't', 'p', ':', '/', '/', 'b', 'a', 'd', 'e', 'x', 'a', 'm',
      'p', 'l', 'e', '.', 'c', 'o', 'm', '/']
    let domain := List.map ascii ['e', 'x', 'a', 'm', 'p', 'l', 'e', '.', 'c', 'o', 'm']
    let cookie : CookieDef := ⟨[ascii 'n'], [ascii 'v'], domain, defaultPath, Time.zero, false⟩
    ∃ a, HTTPAddress.ofUrl (fun _ _ => none) .http url = .ok a ∧ cookieHeader
      [cookie] a = [ascii 'n', ascii '=', ascii 'v'] ∧ ¬ Belongs a cookie := by
  have hurl : HTTPAddress.ofUrl (fun _ _ => none) .http
      (List.map ascii ['h', 't', 't', 'p', ':', '/', '/', 'b', 'a', 'd', 'e', 'x', 'a', 'm', 'p',
      'l', 'e', '.', 'c', 'o', 'm', '/']) =
      .ok ⟨⟨List.map ascii ['h', 't', 't', 'p', ':', '/', '/', 'b', 'a', 'd', 'e', 'x', 'a', 'm',
      'p', 'l', 'e', '.', 'c', 'o', 'm', '/'],
        ⟨⟨true, httpScheme, false, [], true, List.map ascii ['b', 'a', 'd', 'e', 'x', 'a', 'm', 'p',
        'l', 'e', '.', 'c', 'o', 'm'], false, [],
          true, defaultPath, false, [], false, []⟩, List.map ascii ['b', 'a', 'd', 'e', 'x', 'a',
          'm', 'p', 'l', 'e', '.', 'c', 'o', 'm']⟩⟩,
        .http, true, 80, false, true⟩ := by decide
  refine ⟨_, hurl, by decide, ?_⟩
  intro hbelongs
  rcases hbelongs.domain with heq | hsuffix
  · exact absurd heq (by decide)
  · exact absurd hsuffix (by decide)

/-! ## クッキーの並び -/

namespace CookieList

/-- 旗の意味。 -/
def Honours (replaceDuplicate : Bool) (ps L : List Cookie) : Prop := if replaceDuplicate then HoldsLast ps L else L = ps

theorem honours_load_iff {flag : Bool} {ps : List Cookie} : Honours flag ps
    (ps.foldl (put flag) []) ↔ (ps.map Cookie.name).Nodup := by
  cases flag with
  | true =>
      rw [foldl_put_true]
      exact holdsLast_self_iff
  | false =>
      constructor
      · intro h
        have hlast := holdsLast_foldl ps
        rw [show ps.foldl (put false) [] = ps from h] at hlast
        exact hlast.nodup
      · exact fun h => foldl_put_of_nodup h

end CookieList

open CookieList in
theorem load_cookies_iff (headers : List Header) (flag : Bool) :
    ((∃ L, loadFromHeaders headers flag [] = .ok L) ↔ ∃ ps, Reads headers ps) ∧
      (∀ ps, Reads headers ps → ∃ L, loadFromHeaders headers flag [] = .ok L ∧
      (Honours flag ps L ↔ (ps.map Cookie.name).Nodup)) ∧
      ∀ L name, Sendable L → caselessEqual name cookieName = true →
        loadFromHeaders [⟨name, CookieList.cookieHeader L⟩] flag [] = .ok L := by
  refine ⟨⟨?_, ?_⟩, ?_, ?_⟩
  · rintro ⟨L, h⟩
    exact exists_reads h
  · rintro ⟨ps, h⟩
    exact ⟨_, h.load flag []⟩
  · intro ps h
    exact ⟨_, h.load flag [], honours_load_iff⟩
  · intro L name hL hname
    rw [(reads_cookieHeader hL hname).load, foldl_put_of_nodup (L := []) hL.distinct, List.nil_append]

open CookieList in
theorem load_cookies_iff_sent :
    let list : List Cookie := [⟨[ascii 'a'], [ascii '1']⟩, ⟨[ascii 'b'], []⟩]
    loadFromHeaders [⟨cookieName, CookieList.cookieHeader list⟩] true [] = .ok list :=
  (load_cookies_iff [] true).2.2 _ cookieName ⟨by decide, by decide, by decide, by decide, by decide⟩ (by decide)

open CookieList in
/-- 二つの `a` は、旗が立っていると二つとも残り、立っていないと最後の一つになる。 -/
theorem load_cookies_swapped :
    let header : Header := ⟨cookieName, List.map ascii ['a', '=', '1', ';', ' ', 'a', '=', '2']⟩
    let first : Cookie := ⟨[ascii 'a'], [ascii '1']⟩
    let last : Cookie := ⟨[ascii 'a'], [ascii '2']⟩
    Reads [header] [first, last] ∧ loadFromHeaders [header] true [] = .ok [first, last] ∧
      ¬ Honours true [first, last] [first, last] ∧
      loadFromHeaders [header] false [] = .ok [last] ∧ ¬ Honours false [first, last] [last] := by
  have hsep : Separated (List.map ascii ['a', '=', '1', ';', ' ', 'a', '=', '2'])
      [List.map ascii ['a', '=', '1'], List.map ascii ['a', '=', '2']] :=
    @Separated.next (List.map ascii ['a', '=', '1']) _ _ _ (by decide) (.inl rfl) (.last (by decide) (by decide))
  have hcs : ([List.map ascii ['a', '=', '1'], List.map ascii ['a', '=', '2']].filter (· ≠ [])).mapM
      parseCookie = .ok [⟨[ascii 'a'], [ascii '1']⟩, ⟨[ascii 'a'], [ascii '2']⟩] := by decide
  refine ⟨?_, by decide, ?_, by decide, ?_⟩
  · have htrim : String.Tokenizer.trim String.Tokenizer.isSpace (List.map ascii ['a', '=', '1', ';', ' ', 'a', '=', '2']) =
        List.map ascii ['a', '=', '1', ';', ' ', 'a', '=', '2'] := by decide
    exact @Reads.cookie ⟨cookieName, _⟩ [] _ _ [] (by decide) (htrim.symm ▸ hsep) (mapM_parseCookie_iff.mp hcs) .nil
  · exact fun h => absurd h.nodup (by decide)
  · rw [Honours, if_neg Bool.false_ne_true]
    decide

/-! ## クッキーの貯蔵 -/

namespace CookieDefList

/-- `load_from_headers` を次々に呼ぶ。 -/
def loadCalls {ε : Type} (calls : List (Env ε × List Header)) (list : List CookieDef) : Except ε (List CookieDef) :=
  calls.foldlM (fun list call => loadFromHeaders call.1 call.2 list) list

/-- 名前と経路が等しく、ドメインは大文字と小文字の違いを除いて等しい。 -/
def SameKey (a b : CookieDef) : Prop := a.name = b.name ∧ a.path = b.path ∧ caselessEqual a.domain b.domain = true

def NamedBy (url : HTTPAddress) (value : Bytes) (d : CookieDef) : Prop :=
  d.name ∈ (definitions value).map Prod.fst ∧ d.path = pathOf url (attributes value) ∧
    caselessEqual d.domain (domainOf url (attributes value)) = true

variable {ε : Type} {env : Env ε} {list list' : List CookieDef} {calls : List (Env ε × List Header)}
    {headers : List Header} {it : Header}

theorem nodup_loadCalls (h : (list.map key).Nodup) (hload : loadCalls calls list = .ok list') : (list'.map key).Nodup :=
  foldlM_invariant (P := fun list => (list.map key).Nodup) h hload fun _ _ _ => nodup_loadFromHeaders

theorem pairwise_sameKey (h : (list.map key).Nodup) : list.Pairwise fun a b => ¬ SameKey a b := by
  rw [List.Nodup, List.pairwise_map] at h
  exact h.imp fun hne hsame => hne (key_eq_iff.mpr hsame)

theorem not_namedBy (h : (list.map key).Nodup) (hkeep : env.keepExpired = false)
    (hname : caselessEqual it.name setCookieName = true)
    (hexpired : Expired env (attributes it.value)) (hload : loadHeader env list it = .ok list')
    {d : CookieDef} (hd : d ∈ list') : ¬ NamedBy env.url it.value d := by
  obtain ⟨cookie, expired, hshares, hiff, rfl⟩ := loadHeader_eq_ok hname hload
  obtain rfl := hiff.mpr hexpired
  rw [hkeep, mem_foldl_putField_expired h] at hd
  rintro ⟨hdef, hpath, hdomain⟩
  obtain ⟨field, hfield, hfirst⟩ := List.mem_map.mp hdef
  refine hd.2 field hfield (key_eq_iff.mpr ⟨hfirst.symm, ?_, ?_⟩)
  · rw [hpath, ← hshares.path]
  · rw [hshares.domain]
    exact hdomain

theorem load_before (hload : loadFromHeaders env (headers ++ [it]) list = .ok list') :
    ∃ list₁, loadFromHeaders env headers list = .ok list₁ ∧ loadHeader env list₁ it = .ok list' := by
  unfold loadFromHeaders at hload
  rw [List.foldlM_append] at hload
  obtain ⟨list₁, hbefore, hload⟩ := bind_eq_ok.mp hload
  exact ⟨list₁, hbefore, (bind_pure _).symm.trans hload⟩

end CookieDefList

open CookieDefList in
/-- 呼び出しの間に時刻が変わることは、ヘッダーごとに分けた呼び出しの列に含まれる。 -/
theorem cookie_store_forgets {ε : Type} {calls : List (Env ε × List Header)} {list : List CookieDef}
    (h : loadCalls calls [] = .ok list) : (list.Pairwise fun a b => ¬ SameKey a b) ∧
      ∀ (env : Env ε) headers it list', env.keepExpired = false →
      caselessEqual it.name setCookieName = true → Expired env (attributes it.value) →
        loadFromHeaders env (headers ++ [it]) list = .ok list' → ∀ d ∈ list', ¬ NamedBy env.url it.value d := by
  have hempty : (([] : List CookieDef).map key).Nodup := List.nodup_nil
  have hnodup := nodup_loadCalls hempty h
  refine ⟨pairwise_sameKey hnodup, ?_⟩
  intro env headers it list' hkeep hname hexpired hload d hd
  obtain ⟨list₁, hbefore, hit⟩ := load_before hload
  exact not_namedBy (nodup_loadFromHeaders hnodup hbefore) hkeep hname hexpired hit hd

open CookieDefList in
theorem cookie_store_forgets_one :
    let host := List.map ascii ['h']
    let url : HTTPAddress := ⟨⟨List.map ascii ['h', 't', 't', 'p', ':', '/', '/', 'h', '/'],
      ⟨⟨true, httpScheme, false, [], true, host, false, [], true, defaultPath, false, [], false,
      []⟩, host⟩⟩, .http, true, 80, false, true⟩
    let env : Env Unit := ⟨fun _ => .ok Time.zero, url, ⟨1, 0⟩, false⟩
    let n : CookieDef := ⟨[ascii 'n'], [ascii 'v'], host, defaultPath, Time.zero, false⟩
    let m : CookieDef := ⟨[ascii 'm'], [ascii 'w'], host, defaultPath, Time.zero, false⟩
    let last := List.map ascii ['N', '=', ';', ' ', 'n', '=', ';', ' ', 'E', 'x', 'p', 'i', 'r',
      'e', 's', '=', 'T', 'h', 'u', ',', ' ',
      '0', '1', '-', 'J', 'a', 'n', '-', '1', '9', '7', '0', ' ', '0', '0', ':', '0', '0', ':', '0', '0', ' ', 'G', 'M', 'T']
    ([n, m].Pairwise fun a b => ¬ SameKey a b) ∧ loadFromHeaders env ([] ++ [⟨setCookieName, last⟩]) [n, m] = .ok [m] ∧
      ∀ d ∈ [m], ¬ NamedBy url last d := by
  intro host url env n m last
  have hcalls : loadCalls [(env, [⟨setCookieName, List.map ascii ['m', '=', 'w']⟩]),
      (env, [⟨setCookieName, List.map ascii ['n', '=', 'v']⟩])] [] = .ok [n, m] := by decide
  have hload : loadFromHeaders env ([] ++ [⟨setCookieName, last⟩]) [n, m] = .ok [m] := by decide
  have hexpired : Expired env (attributes last) := ⟨_, rfl, Time.zero, rfl, by decide⟩
  have hstore := cookie_store_forgets hcalls
  exact ⟨hstore.1, hload, hstore.2 env [] ⟨setCookieName, last⟩ [m] rfl (by decide) hexpired hload⟩

end UnixCommons.HTTP
