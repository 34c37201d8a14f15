import UnixCommons.HTTP.Lemmas.UrlCopy

/-!
# アドレスの写しの定理


-/

namespace UnixCommons.HTTP

open Lib Lib.Uri String.AsciiStringManip String.Tokenizer

/-! ## URL を分けることの定理 -/

/-- 成分は、RFC 3986 の付録 B の正規表現の括弧である。 -/
structure SplitRight (url : Bytes) (parts : ExtendedUrlParts) (g : Groups UInt8) : Prop where
  groups : delims.regex.fullMatch url = some g
  scheme : g 2 = if parts.hasScheme then some parts.scheme else none
  authority : (g 4).getD [] = parts.authority
  path : g 5 = some parts.path
  query : g 7 = if parts.hasQuery then some parts.query else none
  fragment : g 9 = if parts.hasFragment then some parts.fragment else none
  parts : AuthoritySplit parts.authority parts.userinfo parts.host parts.port

theorem isSome_getD (x : Option Bytes) : x = if x.isSome then some (x.getD []) else none := by
  cases x <;> rfl

theorem split_url_components (url : Bytes) (h : url.head? ≠ some (ascii ':')) :
    ∃ parts g, splitUrl url = .ok parts ∧ SplitRight url parts g := by
  obtain ⟨hasPath, userinfo, host, port, hsplit, hauth⟩ := splitUrl_spec url
  rw [urlComponents_eq h] at hsplit hauth
  obtain ⟨g, hmatch, h2, h4, h5, h7, h9⟩ := regex_groups delims url
  refine ⟨_, g, hsplit, hmatch, ?_, ?_, ?_, ?_, ?_, hauth⟩
  · exact h2.trans (isSome_getD _)
  · rw [h4]
    rfl
  · exact h5
  · exact h7.trans (isSome_getD _)
  · exact h9.trans (isSome_getD _)

theorem split_url_components_authority :
    let url := List.map ascii ['/', '/', 'u', '@', 'h', ':', '1', '?']
    ∃ parts g, splitUrl url = .ok parts ∧ SplitRight url parts g :=
  split_url_components _ (by decide)

/-! ## ホストの検査の定理 -/

/-- 終わりに空のラベルがないホストの検査は、空のホストを、利用者とポートもない時に通し、空でないホストを、正しいラベルの並びである時に通す。 -/
theorem check_host_iff (url : Bytes) (parts : UrlParts) (h : ¬ EndsEmpty parts.host) :
    checkHost url parts = .ok () ↔ (parts.host = [] ∧ parts.userinfo = [] ∧ parts.port = []) ∨
      (parts.host ≠ [] ∧ HostRight parts.host) := by
  rw [checkHost_iff, tokens_labelText h]
  by_cases hne : parts.host = []
  · simp [hne, isValidChars, labelText, fields, maxHostnameSize]
  · have htext : labelText parts.host ≠ [] := by
      intro hnil
      rcases labelText_cases parts.host with ⟨heq, -⟩ | heq
      · exact hne (heq ▸ hnil)
      · exact h (Or.inl (by rw [heq, hnil]; rfl))
    have hfields : fields (· == ascii '.') (labelText parts.host) ≠ [] := by
      rw [fields, if_neg htext]
      exact List.splitOnP_ne_nil _ _
    constructor
    · rintro ⟨hsize, -, hlabels, -⟩
      exact Or.inr ⟨hne, hsize, hfields, fun label hlabel => (labelValid_iff label).mp (hlabels label hlabel)⟩
    · rintro (⟨hnil, -⟩ | ⟨-, hright⟩)
      · exact absurd hnil hne
      · exact ⟨hright.size, hright.hostChars, fun label hlabel => (labelValid_iff label).mpr
          (hright.labels label hlabel), fun hnil => absurd hnil hne⟩

theorem check_host_plain :
    checkHost [] { ExtendedUrlParts.cleared.toUrlParts with host := List.map ascii ['a', '-', 'b',
      '.', 'c', '.'] } = .ok () ↔
      (List.map ascii ['a', '-', 'b', '.', 'c', '.'] = [] ∧ ([] : Bytes) = [] ∧ ([] : Bytes) = []) ∨
        (List.map ascii ['a', '-', 'b', '.', 'c', '.'] ≠ [] ∧
        HostRight (List.map ascii ['a', '-', 'b', '.', 'c', '.'])) := by
  refine check_host_iff [] _ ?_
  rintro (h | ⟨rest, h⟩)
  · exact absurd h (by decide)
  · have hlast := congrArg (fun l => l.reverse.take 2) h
    simp at hlast
    exact absurd hlast (by decide)

/-- ホストのない URL と、`a..` を通す。 -/
theorem check_host_accepts :
    ¬ (∀ url parts, checkHost url parts = .ok () ↔ HostRight parts.host) ∧
      checkHost [] ExtendedUrlParts.cleared.toUrlParts = .ok () ∧ ¬ HostRight [] ∧
      checkHost [] { ExtendedUrlParts.cleared.toUrlParts with host := List.map ascii ['a', '.',
      '.'] } = .ok () ∧ ¬ HostRight (List.map ascii ['a', '.', '.']) := by
  have hempty : ¬ HostRight [] := fun h => h.nonempty rfl
  refine ⟨fun h => hempty ((h [] ExtendedUrlParts.cleared.toUrlParts).mp (by decide)),
    by decide, hempty, by decide, fun h => ?_⟩
  exact absurd (h.labels [] (by decide)).size (by decide)

/-! ## URL の組み立ての定理 -/

section

variable {scheme userinfo host port path query fragment : Bytes}

def RoundTrip (a : URLAddress) (components : List Bytes) : Prop :=
  a.components = components ∧ ∃ parts, splitUrl a.url = .ok parts ∧ URLAddress.components ⟨a.url, parts⟩ = components

theorem not_roundTrip_of_colonPath
    (hv : (UrlParts.of scheme userinfo host port path query fragment).Valid) (hcolon : ColonPath scheme host path) :
    ¬ RoundTrip ⟨assembleUrl (UrlParts.of scheme userinfo host port path query fragment),
      adjusted (UrlParts.of scheme userinfo host port path query fragment)⟩
      [scheme, userinfo, host, port, path, query, fragment] := by
  rintro ⟨-, parts, hsplit, hcomp⟩
  have hc := UrlParts.of_consistent scheme userinfo host port path query fragment
  obtain ⟨hs, hh, seg, rest, hpath, hslash⟩ := hcolon
  have hnone : ¬ hasAuthority (UrlParts.of scheme userinfo host port path query fragment) = true := by
    rw [hasAuthority_iff hc hv]
    exact not_not.mpr hh
  have hurl : assembleUrl (UrlParts.of scheme userinfo host port path query fragment) =
      path ++ ((present (query ≠ []) query).elim [] (delims.question :: ·) ++
      (present (fragment ≠ []) fragment).elim [] (delims.hash :: ·)) := by
    rw [assembleUrl_eq, Delims.recompose]
    simp only [UrlParts.toComponents, hnone]
    simp [UrlParts.of, hs, present]
  have hseg : ∀ b ∈ seg, b ≠ ascii '/' ∧ delims.inPath b = true := by
    intro b hb
    refine ⟨fun h => hslash (h ▸ hb), hv.path_mem b ?_⟩
    show b ∈ path
    rw [hpath]
    exact List.mem_append_left _ hb
  obtain ⟨hasPath, userinfo', host', port', hsplit', -⟩ :=
    splitUrl_spec (assembleUrl (UrlParts.of scheme userinfo host port path query fragment))
  have hsome : (urlComponents
      (assembleUrl (UrlParts.of scheme userinfo host port path query fragment))).scheme.isSome = true := by
    rw [hurl, hpath, List.append_assoc, List.cons_append]
    exact urlComponents_scheme hseg
  have hlen := length_urlComponents (assembleUrl (UrlParts.of scheme userinfo host port path query fragment))
  have hlen' := congrArg List.length hurl
  rw [List.length_append, List.length_append] at hlen'
  generalize assembleUrl (UrlParts.of scheme userinfo host port path query fragment) = url at *
  rw [hsplit'] at hsplit
  obtain rfl := Except.ok.inj hsplit
  simp only [URLAddress.components, withAuthority, ofComponents, List.cons.injEq, and_true] at hcomp
  obtain ⟨-, -, -, -, hp, hq, hf⟩ := hcomp
  obtain ⟨x, hx⟩ := Option.isSome_iff_exists.mp hsome
  have hq' := elim_length_le delims.question hq
  have hf' := elim_length_le delims.hash hf
  rw [hp, hx] at hlen
  simp only [Option.elim_some, List.length_append, List.length_singleton] at hlen
  omega

theorem url_assemble_split_iff (scheme userinfo host port path query fragment : Bytes) (a : URLAddress)
    (h : URLAddress.ofParts scheme userinfo host port path query fragment = .ok a) :
    RoundTrip a [scheme, userinfo, host, port, path, query, fragment] ↔ ¬ ColonPath scheme host path := by
  have hc := UrlParts.of_consistent scheme userinfo host port path query fragment
  obtain ⟨hv, rfl⟩ := (assignUrlParts_checked hc a).mp h
  constructor
  · exact fun hr hcolon => not_roundTrip_of_colonPath hv hcolon hr
  · intro hcolon
    obtain ⟨hasPath, hsplit⟩ := splitUrl_assembleUrl hc hv hcolon
    refine ⟨rfl, _, hsplit, ?_⟩
    simp only [URLAddress.components, withAuthority, ofComponents, UrlParts.toComponents, UrlParts.of, getD_present]
    exact congrArg (· :: [userinfo, host, port, path, query, fragment]) (getD_present scheme)

/-- 経路 `a:b` は、方式 `a` と経路 `b` に分かれる。 -/
theorem url_assemble_split_colon :
    let path := List.map ascii ['a', ':', 'b']
    ∃ a, URLAddress.ofParts [] [] [] [] path [] [] = .ok a ∧ ¬ RoundTrip a [[], [], [], [], path, [], []] := by
  refine ⟨⟨List.map ascii ['a', ':', 'b'],
    adjusted (UrlParts.of [] [] [] [] (List.map ascii ['a', ':', 'b']) [] [])⟩, by decide, ?_⟩
  rintro ⟨-, parts, hsplit, hcomp⟩
  have hparts : splitUrl (List.map ascii ['a', ':', 'b']) =
      .ok ⟨⟨true, [ascii 'a'], false, [], false, [], false, [], true, [ascii 'b'], false, [], false, []⟩, []⟩ := by decide
  obtain rfl := Except.ok.inj (hparts.symm.trans hsplit)
  exact absurd hcomp (by decide)

theorem url_assemble_split_host :
    let host := [ascii 'h']
    let path := List.map ascii ['/', 'a', ':', 'b']
    ∃ a, URLAddress.ofParts [] [] host [] path [] [] = .ok a ∧
      (RoundTrip a [[], [], host, [], path, [], []] ↔ ¬ ColonPath [] host path) :=
  ⟨⟨List.map ascii ['/', '/', 'h', '/', 'a', ':', 'b'],
    adjusted (UrlParts.of [] [] [ascii 'h'] [] (List.map ascii ['/', 'a', ':', 'b']) [] [])⟩,
    by decide, url_assemble_split_iff _ _ _ _ _ _ _ _ (by decide)⟩

end

/-- 写しで失われるもののないアドレス。自分への代入は成分を消し、写しの文字列は、空の利用者、ホスト、ポートの区切りを落とし、補った経路を
書き加える。 -/
structure Recoverable (way : Copying) (a : URLAddress) : Prop where
  distinct : way = .selfAssign → a.components = [[], [], [], [], [], [], []]
  separators : ∀ x ∈ (urlComponents a.url).authority, KeepsSeparators x
  path : a.parts.path = (urlComponents a.url).path

def SameUrl (a b : URLAddress) : Prop := b.url = a.url ∧ b.components = a.components

/-- HTTP のアドレスの写しは、ポートの番号、安全であること、既定のポートであることも同じである。 -/
def SameAddress (a b : HTTPAddress) : Prop :=
  SameUrl a.toURLAddress b.toURLAddress ∧ b.portNumber = a.portNumber ∧ b.secure = a.secure ∧ b.defaultPort = a.defaultPort

theorem copy_sameUrl_iff {a : URLAddress} (h : Stored a) (way : Copying) : ∃ b, a.copy way = .ok b ∧
    (SameUrl a b ↔ Recoverable way a) := by
  obtain ⟨b, hb, hurl, hcomp⟩ := copy_spec h.consistent way
  refine ⟨b, hb, ?_⟩
  unfold SameUrl
  rw [hurl, assembleUrl_eq_url_iff h, hcomp]
  constructor
  · rintro ⟨⟨hsep, hpath⟩, hc⟩
    refine ⟨?_, hsep, hpath⟩
    rintro rfl
    exact hc.symm
  · rintro ⟨hself, hsep, hpath⟩
    refine ⟨⟨hsep, hpath⟩, ?_⟩
    split
    next hway => exact (hself hway).symm
    next => rfl

theorem copy_keeps_address_iff (lowerAndNormalize : List Nat → Bool → Option (List Nat)) :
    (∀ value a, URLAddress.ofUrl value = .ok a → ∀ way, ∃ b, a.copy way = .ok b ∧ (SameUrl a b ↔ Recoverable way a)) ∧
    (∀ kind value a, HTTPAddress.ofUrl lowerAndNormalize kind value = .ok a → ∀ way, ∃ b, a.copy way = .ok b ∧
      (SameAddress a b ↔ Recoverable way a.toURLAddress)) := by
  refine ⟨fun value a h way => copy_sameUrl_iff (stored_of_urlOfUrl h) way, ?_⟩
  intro kind value a h way
  obtain ⟨b, hb, hiff⟩ := copy_sameUrl_iff (stored_of_ofUrl h) way
  refine ⟨{ a with toURLAddress := b }, ?_, ?_⟩
  · rw [HTTPAddress.copy, hb]
    rfl
  · rw [← hiff]
    exact ⟨fun hs => hs.1, fun hs => ⟨hs, rfl, rfl, rfl⟩⟩

/-- `http://h` の写しの文字列は `http://h/` である。 -/
theorem copy_keeps_address_no_path :
    let url := List.map ascii ['h', 't', 't', 'p', ':', '/', '/', 'h']
    ∃ a b, HTTPAddress.ofUrl (fun _ _ => none) .http url = .ok a ∧ a.copy .construct = .ok b ∧ ¬ SameAddress a b := by
  refine ⟨⟨⟨List.map ascii ['h', 't', 't', 'p', ':', '/', '/', 'h'],
      ⟨⟨true, httpScheme, false, [], true, [ascii 'h'], false, [], false, defaultPath, false, [],
      false, []⟩, [ascii 'h']⟩⟩, .http, true, 80, false, true⟩,
    ⟨⟨List.map ascii ['h', 't', 't', 'p', ':', '/', '/', 'h', '/'],
      ⟨⟨true, httpScheme, false, [], true, [ascii 'h'], false, [], true, defaultPath, false, [],
      false, []⟩, [ascii 'h']⟩⟩, .http, true, 80, false, true⟩,
    by decide, by decide, ?_⟩
  rintro ⟨⟨hurl, -⟩, -⟩
  exact absurd hurl (by decide)

theorem copy_keeps_address_slash :
    let url := List.map ascii ['h', 't', 't', 'p', ':', '/', '/', 'h', '/']
    ∃ a, HTTPAddress.ofUrl (fun _ _ => none) .http url = .ok a ∧
      ∀ way, ∃ b, a.copy way = .ok b ∧ (SameAddress a b ↔ Recoverable way a.toURLAddress) := by
  have h : HTTPAddress.ofUrl (fun _ _ => none) .http (List.map ascii ['h', 't', 't', 'p', ':', '/', '/', 'h', '/']) =
      .ok ⟨⟨List.map ascii ['h', 't', 't', 'p', ':', '/', '/', 'h', '/'],
        ⟨⟨true, httpScheme, false, [], true, [ascii 'h'], false, [], true, defaultPath, false, [],
        false, []⟩, [ascii 'h']⟩⟩, .http, true, 80, false, true⟩ := by decide
  exact ⟨_, h, (copy_keeps_address_iff _).2 _ _ _ h⟩

end UnixCommons.HTTP
