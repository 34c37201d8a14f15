import UnixCommons.HTTP.Lemmas.HttpPort

/-!
# アドレスの正規化の補題

検査を通る成分の `unmime` は失敗せず、小文字と、集合に属さない文字の符号だけからなる正規形 `Unmimed` になる。
-/

namespace UnixCommons.HTTP

open Lib Lib.Uri String.AsciiStringManip String.Punycode

/-! ## 正規形 -/

inductive Unmimed (valid : Bytes) : Bytes → Prop
  | nil : Unmimed valid []
  | plain {ch : UInt8} {rest : Bytes} (h : isOwned valid ch = true) (hlower : toLower ch = ch)
      (hrest : Unmimed valid rest) : Unmimed valid (ch :: rest)
  | escape {a b : UInt8} {rest : Bytes} (ha : isOwned hexNumber a = true)
      (hb : isOwned hexNumber b = true) (hla : toLower a = a)
      (hlb : toLower b = b) (hchar : isOwned valid (hexToChar a b) = false)
      (hrest : Unmimed valid rest) : Unmimed valid (ascii '%' :: a :: b :: rest)

structure Foldable (valid : Bytes) : Prop where
  percent : isOwned valid (ascii '%') = false
  lower : ∀ ch, isOwned valid ch = true → isOwned valid (toLower ch) = true

theorem foldable_path : Foldable pathChars := ⟨by decide, forall_isOwned (by decide)⟩

theorem foldable_query : Foldable queryChars := ⟨by decide, forall_isOwned (by decide)⟩

variable {valid str : Bytes}

theorem hexNumber_toLower {ch : UInt8} (h : isOwned hexNumber ch = true) : isOwned hexNumber
    (toLower ch) = true ∧ hexToInt (toLower ch) = hexToInt ch := by
  have hchar : ∀ b : UInt8, isOwned hexNumber b = true → isOwned hexNumber (toLower b) = true ∧
      hexToInt (toLower b) = hexToInt b :=
    forall_isOwned (by decide)
  exact hchar ch h

theorem hexNumber_ne_percent {ch : UInt8} (h : isOwned hexNumber ch = true) : ch ≠ ascii '%' := by
  rintro rfl
  exact absurd h (by decide)

theorem unmime_plain {ch : UInt8} {rest : Bytes} (h : ch ≠ ascii '%') :
    unmime valid (ch :: rest) = (unmime valid rest).map (toLower ch :: ·) := by
  rw [unmime.eq_def]
  dsimp only
  rw [if_pos h]
  cases unmime valid rest <;> rfl

theorem unmime_escape {a b : UInt8} {rest : Bytes} (ha : isOwned hexNumber a = true) :
    unmime valid (ascii '%' :: a :: b :: rest) = (unmime valid rest).map (unmimeEscape valid a b ++ ·) := by
  rw [unmime.eq_def]
  dsimp only
  rw [if_neg (by simp), if_pos ha]
  cases unmime valid rest <;> rfl

theorem unmime_encoded (hv : Foldable valid) (h : Encoded valid str) :
    ∃ text, unmime valid str = .ok text ∧ Unmimed valid text := by
  induction h with
  | nil => exact ⟨[], rfl, .nil⟩
  | @plain ch rest hch _ ih =>
      obtain ⟨text, htext, hn⟩ := ih
      have hne : ch ≠ ascii '%' := by
        rintro rfl
        rw [hv.percent] at hch
        cases hch
      rw [unmime_plain hne, htext]
      exact ⟨_, rfl, .plain (hv.lower ch hch) (toLower_toLower ch) hn⟩
  | @escape a b rest ha hb _ ih =>
      obtain ⟨text, htext, hn⟩ := ih
      rw [unmime_escape ha, htext]
      refine ⟨_, rfl, ?_⟩
      unfold unmimeEscape
      split
      next hchar => exact .plain (hv.lower _ hchar) (toLower_toLower _) hn
      next hchar =>
          obtain ⟨ha', hca⟩ := hexNumber_toLower ha
          obtain ⟨hb', hcb⟩ := hexNumber_toLower hb
          refine .escape ha' hb' (toLower_toLower a) (toLower_toLower b) ?_ hn
          rw [hexToChar, hca, hcb]
          exact eq_false_of_ne_true hchar

theorem Unmimed.unmime_eq (hv : Foldable valid) (h : Unmimed valid str) : unmime valid str = .ok str := by
  induction h with
  | nil => rfl
  | @plain ch rest hch hlower _ ih =>
      have hne : ch ≠ ascii '%' := by
        rintro rfl
        rw [hv.percent] at hch
        cases hch
      rw [unmime_plain hne, ih, hlower]
      rfl
  | @escape a b rest ha hb hla hlb hchar _ ih =>
      rw [unmime_escape ha, ih, unmimeEscape, if_neg (by rw [hchar]; decide), hla, hlb]
      rfl

theorem Unmimed.encoded (h : Unmimed valid str) : Encoded valid str := by
  induction h with
  | nil => exact .nil
  | plain hch _ _ ih => exact .plain hch ih
  | escape ha hb _ _ _ _ ih => exact .escape ha hb ih

theorem Unmimed.lower (h : Unmimed valid str) : ∀ b ∈ str, toLower b = b := by
  induction h with
  | nil => simp
  | plain _ hlower _ ih => exact List.forall_mem_cons.mpr ⟨hlower, ih⟩
  | escape _ _ hla hlb _ _ ih =>
      exact List.forall_mem_cons.mpr ⟨by decide, List.forall_mem_cons.mpr ⟨hla, List.forall_mem_cons.mpr ⟨hlb, ih⟩⟩⟩

def NoLegalEscape (valid str : Bytes) : Prop :=
  ∀ pre a b post, str = pre ++ ascii '%' :: a :: b :: post → isOwned valid (hexToChar a b) = false

theorem Unmimed.noLegalEscape (hv : Foldable valid) (h : Unmimed valid str) : NoLegalEscape valid str := by
  intro pre
  induction h generalizing pre with
  | nil =>
      intro a b post he
      have := congrArg List.length he
      simp at this
  | @plain ch rest hch _ _ ih =>
      intro a b post he
      cases pre with
      | nil =>
          obtain ⟨rfl, -⟩ := List.cons.inj he
          rw [hv.percent] at hch
          cases hch
      | cons c pre => exact ih pre a b post (List.cons.inj he).2
  | @escape a' b' rest ha hb _ _ hchar _ ih =>
      intro a b post he
      -- `%` は符号の先頭にだけ現れる。
      match pre, he with
      | [], he =>
          simp only [List.nil_append, List.cons.injEq] at he
          rw [← he.2.1, ← he.2.2.1]
          exact hchar
      | [_], he =>
          simp only [List.cons_append, List.nil_append, List.cons.injEq] at he
          exact absurd he.2.1 (hexNumber_ne_percent ha)
      | [_, _], he =>
          simp only [List.cons_append, List.nil_append, List.cons.injEq] at he
          exact absurd he.2.2.1 (hexNumber_ne_percent hb)
      | _ :: _ :: _ :: pre, he =>
          simp only [List.cons_append, List.cons.injEq] at he
          exact ih pre a b post he.2.2.2

theorem unmime_head {ch : UInt8} {rest text : Bytes} (hne : ch ≠ ascii '%')
    (h : unmime valid (ch :: rest) = .ok text) : ∃ tail, text = toLower ch :: tail := by
  rw [unmime_plain hne] at h
  obtain ⟨tail, hr, h⟩ := bind_eq_ok.mp h
  exact ⟨tail, (Except.ok.inj h).symm⟩

/-! ## 構築したアドレス -/

variable {lowerAndNormalize : List Nat → Bool → Option (List Nat)} {url host : Bytes} {a : HTTPAddress}

def browserParts (url host : Bytes) : UrlParts :=
  (fixedParts false (URLAddress.withHost ⟨url, splitResult url⟩ host).parts.toUrlParts).1

theorem prepared_browser (url host : Bytes) :
    prepared .browser false url host = ⟨assembleUrl (browserParts url host), adjusted (browserParts url host)⟩ := rfl

theorem ofUrl_browser (hne : url ≠ []) : HTTPAddress.ofUrl lowerAndNormalize .browser url = .ok a ↔
    ∃ hosts n, idnaNormalizeHost lowerAndNormalize (splitResult (target false url)).host
      [] = .ok hosts ∧ WebParts false (splitResult (target false url)).scheme hosts.ascii ∧
      (adjusted (browserParts (target false url) hosts.ascii)).toUrlParts.Valid ∧
      readPort (caselessEqual (splitResult (target false url)).scheme httpsScheme)
      (splitResult (target false url)).port = some n ∧
      a = finished (HTTPAddress.initial .browser false)
        ⟨assembleUrl (browserParts (target false url) hosts.ascii),
        adjusted (browserParts (target false url) hosts.ascii)⟩ n := by
  have hread : ∀ host, (adjusted (browserParts (target false url) host)).scheme = (splitResult (target false url)).scheme ∧
      (adjusted (browserParts (target false url) host)).port = (splitResult (target false url)).port := fun host =>
    prepared_scheme .browser false (target false url) host
  rw [HTTPAddress.ofUrl, if_neg hne, constructed_eq_ok]
  have hends : Ends (assign lowerAndNormalize url) (HTTPAddress.initial .browser false) () a ↔
      url ≠ [] ∧ ∃ x n, Accepted lowerAndNormalize .browser false url x ∧
      readPort (caselessEqual x.parts.scheme httpsScheme) x.parts.port = some n ∧
        a = finished (HTTPAddress.initial .browser false) x n := ends_assign
  rw [show (decide (AddressClass.browser = AddressClass.http)) = false from rfl, hends]
  constructor
  · rintro ⟨-, x, n, ⟨host, ⟨hosts, hh, rfl⟩, hweb, rfl, hv⟩, hn, rfl⟩
    rw [prepared_browser] at hv hn ⊢
    rw [(hread _).1, (hread _).2] at hn
    exact ⟨hosts, n, stop_mapError.mp hh, hweb, hv, hn, rfl⟩
  · rintro ⟨hosts, n, hh, hweb, hv, hn, rfl⟩
    refine ⟨hne, _, n, ⟨hosts.ascii, ⟨hosts, stop_mapError.mpr hh, rfl⟩, hweb, (prepared_browser _ _).symm, hv⟩, ?_, rfl⟩
    dsimp only
    rw [(hread _).1, (hread _).2]
    exact hn

theorem withDefaultPath_path {parts : ExtendedUrlParts} (hv : parts.toUrlParts.Valid) (hhost : parts.host ≠ []) :
    Encoded pathChars (withDefaultPath parts).path ∧ ∃ rest, (withDefaultPath parts).path = ascii '/' :: rest := by
  unfold withDefaultPath
  split
  next => exact ⟨.plain (by decide) .nil, [], rfl⟩
  next hne =>
      obtain ⟨ch, rest, he⟩ := List.exists_cons_of_ne_nil hne
      refine ⟨hv.path, rest, ?_⟩
      rw [he, hv.rooted hhost ch rest he]
      rfl

/-! ## 正規化した文字列 -/

def normalParts (host path query : Bytes) : UrlParts := UrlParts.of httpScheme [] host [] path query []

theorem assembleUrl_normalParts {path query : Bytes} (hne : host ≠ []) : assembleUrl (normalParts host path query) =
    httpPrefix ++ [ascii '/', ascii '/'] ++ host ++ path ++ if query ≠ [] then ascii '?' :: query else [] := by
  have hprefix : httpScheme ++ [ascii ':'] = httpPrefix := rfl
  have hs : httpScheme ≠ [] := by decide
  simp only [assembleUrl, normalParts, UrlParts.of, hasAuthority, authorityText, ← hprefix]
  by_cases hq : query = [] <;> simp [hq, hne, hs]

theorem unmime_eq_nil {text : Bytes} (h : unmime valid str = .ok text) : text = [] ↔ str = [] := by
  cases str with
  | nil =>
      obtain rfl := Except.ok.inj h
      simp
  | cons ch rest =>
      refine iff_of_false ?_ (by simp)
      rintro rfl
      by_cases hch : ch = ascii '%'
      · subst hch
        rw [unmime.eq_def] at h
        dsimp only at h
        rw [if_neg (by simp)] at h
        split at h
        next a b tail =>
            split at h
            · obtain ⟨text, hr, h⟩ := bind_eq_ok.mp h
              have hnil := Except.ok.inj h
              unfold unmimeEscape at hnil
              split at hnil <;> cases hnil
            · cases h
        · cases h
      · obtain ⟨tail, he⟩ := unmime_head hch h
        cases he

theorem normalizeHttpAddress_spec {n : Bytes} (h : normalizeHttpAddress lowerAndNormalize url = .ok n) (hn : n ≠ []) :
    ∃ a path query, HTTPAddress.ofUrl lowerAndNormalize .browser url = .ok a ∧
      a.portNumber = defaultHttpPort ∧ unmime pathChars a.parts.path = .ok path ∧
      unmime queryChars a.parts.query = .ok query ∧ n = httpPrefix ++ [ascii '/', ascii '/'] ++
      a.parts.host.map toLower ++ path ++ if query ≠ [] then ascii '?' :: query else [] := by
  unfold normalizeHttpAddress at h
  obtain ⟨a, ha, h⟩ := bind_eq_ok.mp h
  split at h
  next hport =>
      obtain ⟨path, hp, h⟩ := bind_eq_ok.mp h
      by_cases hq : a.parts.query = []
      · have hquery : unmime queryChars a.parts.query = .ok [] := by
          rw [hq]
          rfl
        refine ⟨a, path, [], ha, hport.2, stop_mapError.mp hp, hquery, ?_⟩
        simp only [orFault, Except.mapError, hq] at h
        rw [if_neg (by simp), List.append_nil]
        exact (Except.ok.inj h).symm
      · cases hquery : unmime queryChars a.parts.query with
        | error e => simp [orFault, Except.mapError, hq, hquery] at h
        | ok query =>
            refine ⟨a, path, query, ha, hport.2, stop_mapError.mp hp, hquery, ?_⟩
            have hne : query ≠ [] := fun hnil => hq ((unmime_eq_nil hquery).mp hnil)
            simp only [orFault, Except.mapError, ok_bind, hquery] at h
            rw [if_pos hq] at h
            rw [if_pos hne]
            exact (Except.ok.inj h).symm
  · exact absurd (Except.ok.inj h).symm hn

/-! ## 正規化を繰り返す -/

theorem map_toLower_eq {str : Bytes} (h : ∀ b ∈ str, toLower b = b) : str.map toLower = str := by
  conv_rhs => rw [← List.map_id str]
  exact List.map_congr_left fun b hb => (h b hb).trans rfl

theorem caselessStart_lower (start label : Bytes) : caselessStart start (label.map toLower) = caselessStart start label := by
  unfold caselessStart caselessEqual
  rw [← List.map_take, List.map_map]
  congr 2
  exact List.map_congr_left fun b _ => toLower_toLower b

theorem tokens_lower (host : Bytes) : tokens labelSeparator []
    (host.map toLower) = (tokens labelSeparator [] host).map (List.map toLower) := by
  have hsep : ∀ b : UInt8, toLower b = labelSeparator ↔ b = labelSeparator := fun b => toLower_eq_iff (by decide)
  have hmap := tokens_map hsep [] host
  rwa [List.map_nil] at hmap

theorem PlainHost.lower (h : PlainHost host) : PlainHost (host.map toLower) where
  ascii := by
    have hlower : ∀ b : UInt8, b.toNat < 128 → (toLower b).toNat < 128 := by
      intro b hb
      rw [toLower_toNat]
      split
      · omega
      · exact hb
    intro b hb
    obtain ⟨c, hc, rfl⟩ := List.mem_map.mp hb
    exact hlower c (h.ascii c hc)
  labels := by
    rw [tokens_lower]
    intro label hlabel
    obtain ⟨l, hl, rfl⟩ := List.mem_map.mp hlabel
    rw [caselessStart_lower]
    exact h.labels l hl

structure Normal (host path query : Bytes) : Prop where
  valid : (normalParts host path query).Valid
  plain : PlainHost host
  lower : ∀ b ∈ host, toLower b = b
  nonempty : host ≠ []
  size : host.length < maxHostnameSize
  labels : ∀ label ∈ tokens labelSeparator [] host, label ≠ [] ∧ label.length ≤ maxHostnameLabelSize
  path : Unmimed pathChars path
  query : Unmimed queryChars query

variable {path query : Bytes}

theorem httpFixPart_encoded (hp : isOwned valid (ascii '%') = false) (h : Encoded valid str) :
    (httpFixPart str valid).getD str = str := by
  rw [httpFixPart, h.findInvalid_eq hp]
  rfl

theorem fixParts_valid {parts : UrlParts} (h : parts.Valid) : (fixParts parts).1 = parts := by
  have h₁ := httpFixPart_encoded (by decide) h.userinfo
  have h₂ := httpFixPart_encoded (by decide) h.path
  have h₃ := httpFixPart_encoded (by decide) h.query
  have h₄ := httpFixPart_encoded (by decide) h.fragment
  unfold fixParts
  dsimp only
  rw [h₁, h₂, h₃, h₄]

theorem ofUrl_normal (hascii : LowersAscii lowerAndNormalize) (h : Normal host path query) (hpath : path ≠ []) :
    ∃ a, HTTPAddress.ofUrl lowerAndNormalize .browser (assembleUrl (normalParts host path query)) =
      .ok a ∧ a.secure = false ∧
      a.portNumber = defaultHttpPort ∧ a.parts.host = host ∧ a.parts.path = path ∧ a.parts.query = query := by
  have hc : (normalParts host path query).Consistent := UrlParts.of_consistent _ _ _ _ _ _ _
  have hscheme : httpScheme ≠ [] := by decide
  obtain ⟨q, hq, hqv, h₁, h₂, h₃, h₄, h₅, h₆, h₇⟩ := splitResult_assembleUrl hc h.valid hscheme
  have hne : assembleUrl (normalParts host path query) ≠ [] := by
    rw [assembleUrl_normalParts h.nonempty]
    simp [httpPrefix]
  generalize assembleUrl (normalParts host path query) = url at hq hne
  have hhost : q.host = host := h₃
  have htarget : target false url = url := by
    unfold target
    rw [if_neg]
    rw [hq, httpUrlNeedsPrefix, hhost]
    simp [h.nonempty]
  have hidna : idnaNormalizeHost lowerAndNormalize q.host [] = .ok ⟨host, host⟩ := by
    rw [hhost, idnaNormalizeHost_plain h.plain hascii, map_toLower_eq h.lower]
    exact ⟨rfl, h.nonempty, h.size, h.labels⟩
  have hparts : browserParts url host = q.toUrlParts := by
    have hsame : (URLAddress.withHost ⟨url, splitResult url⟩ host).parts.toUrlParts = q.toUrlParts := by
      rw [hq, ← hhost]
      rfl
    unfold browserParts
    rw [hsame]
    exact fixParts_valid hqv
  have hqs : q.scheme = httpScheme := h₁
  have hqp : q.port = [] := h₄
  have hdefault : withDefaultPath (adjusted q.toUrlParts) = adjusted q.toUrlParts := by
    refine if_neg ?_
    show q.path ≠ []
    rw [h₅]
    exact hpath
  refine ⟨_, (ofUrl_browser hne).mpr ⟨⟨host, host⟩, defaultHttpPort, ?_, ?_, ?_, ?_, rfl⟩, ?_, rfl, ?_, ?_, ?_⟩
  · rw [htarget, hq]
    exact hidna
  · rw [htarget, hq, hqs]
    exact ⟨.inl (by decide), h.nonempty⟩
  · rw [htarget]
    dsimp only
    rw [hparts]
    exact hqv.congr (fun hnil => decide_eq_false (not_not.mpr hnil)) rfl rfl rfl rfl rfl rfl rfl
  · rw [htarget, hq, hqs, hqp]
    decide
  all_goals
    rw [htarget]
    dsimp only [finished]
    rw [hparts]
  · show caselessEqual q.scheme httpsScheme = false
    rw [hqs]
    decide
  all_goals rw [hdefault]
  · exact hhost
  · exact h₅
  · exact h₆

theorem normalizeHttpAddress_normal (hascii : LowersAscii lowerAndNormalize)
    (h : Normal host path query) (hpath : path ≠ []) :
    normalizeHttpAddress lowerAndNormalize (assembleUrl (normalParts host path query)) = .ok
      (assembleUrl (normalParts host path query)) := by
  obtain ⟨a, ha, hsecure, hport, hh, hp, hq⟩ := ofUrl_normal hascii h hpath
  have hup : unmime pathChars a.parts.path = .ok path := by
    rw [hp]
    exact h.path.unmime_eq foldable_path
  have huq : unmime queryChars query = .ok query := h.query.unmime_eq foldable_query
  rw [normalizeHttpAddress, ha, ok_bind, if_pos ⟨by simp [hsecure], hport⟩, hup, hh, hq, huq,
    map_toLower_eq h.lower, assembleUrl_normalParts h.nonempty]
  by_cases hne : query = []
  · simp [hne, orFault, Except.mapError, pure, Except.pure]
  · simp [hne, orFault, Except.mapError, pure, Except.pure]

end UnixCommons.HTTP
