import UnixCommons.HTTP.Lemmas.HttpPort

/-! # 失敗した代入の補題 -/

namespace UnixCommons.HTTP

open Lib Lib.Uri String.AsciiStringManip String.StrToInt

variable {lowerAndNormalize : List Nat → Bool → Option (List Nat)} {s a : HTTPAddress} {value : Bytes} {e : Error}

/-! ## 失敗する段階 -/

theorem fails_setUrl {x : Except Error URLAddress} : Fails (setUrl x) s e a ↔ x = .error e ∧ a = s := by
  unfold setUrl
  rw [fails_bind]
  constructor
  · rintro (h | ⟨address, s₁, -, h⟩)
    · exact fails_lift.mp h
    · exact absurd h fails_modify
  · exact fun h => .inl (fails_lift.mpr h)

theorem fails_addScheme : ¬ Fails addScheme s e a := by
  unfold addScheme
  rw [fails_bind]
  rintro (h | ⟨t, s₁, h₁, h₂⟩)
  · exact fails_get h
  · obtain ⟨rfl, rfl⟩ := ends_get.mp h₁
    have hne : httpAddScheme s₁.url ≠ [] := by simp [httpAddScheme, httpScheme]
    split at h₂
    · rw [fails_setUrl, urlWithoutCheck_eq hne] at h₂
      cases h₂.1
    · exact fails_pure h₂

theorem fails_additionalChecks (h : Fails (additionalChecks lowerAndNormalize) s e a) :
    s.kind = .browser ∧ idnaHostNormalize lowerAndNormalize s.url s.parts.host = .error e ∧ a = s := by
  unfold additionalChecks at h
  rcases fails_bind.mp h with h | ⟨t, s₁, h₁, h₂⟩
  · exact absurd h fails_get
  · obtain ⟨rfl, rfl⟩ := ends_get.mp h₁
    cases hk : s₁.kind with
    | http =>
        rw [hk] at h₂
        exact absurd h₂ fails_pure
    | browser =>
        rw [hk] at h₂
        rcases fails_bind.mp h₂ with h₃ | ⟨host, s₂, -, h₃⟩
        · unfold processHost at h₃
          rcases fails_bind.mp h₃ with h₄ | ⟨t', s₃, h₄, h₅⟩
          · exact absurd h₄ fails_get
          · obtain ⟨rfl, rfl⟩ := ends_get.mp h₄
            rcases fails_bind.mp h₅ with h₆ | ⟨hosts, s₄, -, h₆⟩
            · exact ⟨rfl, fails_lift.mp h₆⟩
            · rcases fails_bind.mp h₆ with h₇ | ⟨_, _, -, h₇⟩
              · exact absurd h₇ fails_set
              · exact absurd h₇ fails_pure
        · exact absurd h₃ fails_pure

theorem fails_rebuildParts {rebuild : Bool} (hc : s.parts.toUrlParts.Consistent) : ¬ Fails (rebuildParts rebuild) s e a := by
  have hfixed := fixedParts_consistent s.strict hc
  unfold rebuildParts
  rw [fails_bind]
  rintro (h | ⟨t, s₁, h₁, h₂⟩)
  · exact fails_get h
  · obtain ⟨rfl, rfl⟩ := ends_get.mp h₁
    dsimp only at h₂
    split at h₂
    · rw [fails_setUrl, assignUrlParts_eq hfixed] at h₂
      cases h₂.1
    · exact fails_pure h₂

theorem fails_assignPort (h : Fails assignPort s e a) : readPort s.secure s.parts.port = none ∧
    a.toURLAddress = s.toURLAddress := by
  unfold assignPort at h
  rcases fails_bind.mp h with h | ⟨t, s₁, h₁, h₂⟩
  · exact absurd h fails_get
  · obtain ⟨rfl, rfl⟩ := ends_get.mp h₁
    by_cases hp : s₁.parts.port = []
    · rw [if_neg (not_not.mpr hp)] at h₂
      exact absurd h₂ fails_set
    · rw [if_pos hp] at h₂
      rcases fails_bind.mp h₂ with h₃ | ⟨_, s₂, h₃, h₄⟩
      · exact absurd h₃ fails_set
      · obtain rfl := ends_set.mp h₃
        split at h₄
        · exact absurd h₄ fails_modify
        next hread =>
            obtain ⟨-, rfl⟩ := fails_throw.mp h₄
            rw [strToInt_fst _ 0] at hread
            exact ⟨by rw [readPort, if_neg hp, if_neg hread], rfl⟩

/-! ## 失敗した代入の残すアドレス -/

/-- 空でない文字列 `value` の、失敗した代入の残すアドレス。 -/
inductive Left (lowerAndNormalize : List Nat → Bool → Option (List Nat)) (s : HTTPAddress)
    (value : Bytes) (e : Error) (a : HTTPAddress) : Prop
  | host (hkind : s.kind = .browser)
      (hidna : idnaHostNormalize lowerAndNormalize (target s.strict value)
      (splitResult (target s.strict value)).host = .error e)
      (ha : a = { s with toURLAddress := ⟨target s.strict value, splitResult (target s.strict value)⟩ })
  | web (host : Bytes) (hhost : HostOf lowerAndNormalize s.kind (target s.strict value)
      (splitResult (target s.strict value)).host host)
      (hweb : ¬ WebParts s.strict a.parts.scheme a.parts.host) (hurl : a.url = target s.strict value)
  | valid (host : Bytes) (hhost : HostOf lowerAndNormalize s.kind (target s.strict value)
      (splitResult (target s.strict value)).host host)
      (hne : host ≠ []) (ha : a.toURLAddress = prepared s.kind s.strict (target s.strict value)
      host) (hv : ¬ a.parts.toUrlParts.Valid)
  | port (host : Bytes) (hhost : HostOf lowerAndNormalize s.kind (target s.strict value)
      (splitResult (target s.strict value)).host host)
      (hne : host ≠ []) (ha : a.toURLAddress = prepared s.kind s.strict (target s.strict value)
      host) (secure : Bool) (hport : readPort secure a.parts.port = none)

theorem orInvalid_eq_error {x : Except Invalid Unit} (h : orInvalid x = .error e) : x ≠ .ok () := by
  rintro rfl
  cases h

theorem left_of_specificChecks (hs : s.toURLAddress = ⟨value, splitResult value⟩)
    (h : Fails (specificChecks lowerAndNormalize) s e a) : Left lowerAndNormalize s value e a := by
  unfold specificChecks at h
  rcases fails_bind.mp h with h | ⟨_, s₁, h₁, h⟩
  · exact absurd h fails_addScheme
  · obtain rfl := (ends_addScheme hs).mp h₁
    rcases fails_bind.mp h with h | ⟨r, s₂, h₂, h⟩
    · obtain ⟨hkind, hidna, rfl⟩ := fails_additionalChecks h
      exact .host hkind hidna rfl
    · obtain ⟨rfl, host, hhost, rfl⟩ := ends_additionalChecks.mp h₂
      rcases fails_bind.mp h with h | ⟨t, s₃, h₃, h⟩
      · exact absurd h fails_get
      · obtain ⟨rfl, rfl⟩ := ends_get.mp h₃
        rcases fails_bind.mp h with h | ⟨_, s₄, h₄, h⟩
        · obtain ⟨hchk, rfl⟩ := fails_lift.mp h
          exact .web host hhost (fun hweb => orInvalid_eq_error hchk (checkHttpUrlComponents_iff.mpr hweb)) rfl
        · obtain ⟨-, rfl⟩ := ends_lift.mp h₄
          have hc := splitResult_consistent (target s.strict value)
          exact absurd h (fails_rebuildParts ⟨hc.userinfo, hc.port, hc.query, hc.fragment⟩)

theorem left_of_assign (hne : value ≠ []) (h : Fails (assign lowerAndNormalize value) s e a) :
    Left lowerAndNormalize s value e a := by
  unfold assign at h
  rw [if_neg hne] at h
  rcases fails_bind.mp h with h | ⟨_, s₁, h₁, h⟩
  · unfold assignUrl at h
    rcases fails_bind.mp h with h | ⟨_, s₁, h₁, h⟩
    · rw [fails_setUrl, urlWithoutCheck_eq hne] at h
      cases h.1
    · obtain ⟨x, hx, rfl⟩ := ends_setUrl.mp h₁
      rw [urlWithoutCheck_eq hne] at hx
      obtain rfl := Except.ok.inj hx
      rcases fails_bind.mp h with h | ⟨_, s₂, h₂, h⟩
      · cases left_of_specificChecks rfl h with
        | host hkind hidna ha => exact .host hkind hidna ha
        | web host hhost hweb hurl => exact .web host hhost hweb hurl
        | valid host hhost hne ha hv => exact .valid host hhost hne ha hv
        | port host hhost hne ha secure hport => exact .port host hhost hne ha secure hport
      · obtain ⟨host, hhost, hweb, rfl⟩ := (ends_specificChecks rfl).mp h₂
        rcases fails_bind.mp h with h | ⟨t, s₃, h₃, h⟩
        · exact absurd h fails_get
        · obtain ⟨rfl, rfl⟩ := ends_get.mp h₃
          obtain ⟨hchk, rfl⟩ := fails_lift.mp h
          exact .valid host hhost hweb.2 rfl fun hv => orInvalid_eq_error hchk (urlPartsChecker_iff.mpr hv)
  · obtain ⟨x, ⟨host, hhost, hweb, rfl, -⟩, rfl⟩ := (ends_assignUrl hne).mp h₁
    rcases fails_bind.mp h with h | ⟨_, s₂, h₂, h⟩
    · exact absurd h fails_modify
    · obtain rfl := ends_modify.mp h₂
      rcases fails_bind.mp h with h | ⟨_, s₃, -, h⟩
      · obtain ⟨hport, ha⟩ := fails_assignPort h
        exact .port host hhost hweb.2 ha _ (by rw [ha]; exact hport)
      · exact absurd h fails_modify

/-! ## 代入の前と同じアドレス -/

structure Intact (a a' : HTTPAddress) : Prop where
  url : a'.url = a.url
  components : a'.components = a.components
  portNumber : a'.portNumber = a.portNumber
  secure : a'.secure = a.secure
  defaultPort : a'.defaultPort = a.defaultPort

inductive Usable (a : HTTPAddress) : Prop
  | empty (hurl : a.url = []) (hc : a.parts.toUrlParts.Consistent) (htext : assembleUrl a.parts.toUrlParts = [])
  | checked (hweb : WebParts a.strict a.parts.scheme a.parts.host) (hv : a.parts.toUrlParts.Valid)
      (hs : Stored a.toURLAddress) (hport : readPort a.secure a.parts.port ≠ none)

def Error.isInvalidUrl : Error → Bool
  | .invalid _ | .nilUrl | .invalidPort _ | .idna _ _ => true
  | .fault _ | .punycode _ => false

/-- 分ける文字列がアドレスの文字列のままであり、そのホストの正規化に失敗する。 -/
structure Retries (lowerAndNormalize : List Nat → Bool → Option (List Nat)) (a : HTTPAddress) (value : Bytes) : Prop where
  kind : a.kind = .browser
  target : target a.strict value = a.url
  split : (⟨a.url, splitResult a.url⟩ : URLAddress).components = a.components
  idna : ∃ e, idnaHostNormalize lowerAndNormalize a.url a.parts.host = .error (.idna e a.url)

theorem components_eq {x y : URLAddress} (h : x.components = y.components) :
    x.parts.scheme = y.parts.scheme ∧ x.parts.userinfo = y.parts.userinfo ∧
    x.parts.host = y.parts.host ∧ x.parts.port = y.parts.port ∧ x.parts.path = y.parts.path ∧ x.parts.query = y.parts.query ∧
    x.parts.fragment = y.parts.fragment := by
  simpa [URLAddress.components] using h

theorem idna_of_invalidUrl {url host : Bytes}
    (h : idnaHostNormalize lowerAndNormalize url host = .error e) (he : e.isInvalidUrl = true) :
    ∃ e', e = .idna e' url := by
  unfold idnaHostNormalize at h
  cases hx : idnaNormalizeHost lowerAndNormalize host [] with
  | ok hosts =>
      rw [hx] at h
      cases h
  | error stop =>
      rw [hx] at h
      cases stop with
      | error e' => exact ⟨e', (Except.error.inj h).symm⟩
      | punycode f =>
          rw [← Except.error.inj h] at he
          cases he
      | pastEnd =>
          rw [← Except.error.inj h] at he
          cases he

theorem target_ne_nil (strict : Bool) (hne : value ≠ []) : target strict value ≠ [] := by
  unfold target
  split
  · simp [httpAddScheme, httpScheme]
  · exact hne

theorem assembleUrl_ne_nil {parts : UrlParts} (h : parts.host ≠ []) : assembleUrl parts ≠ [] := by
  have hauth : hasAuthority parts = true := by simp [hasAuthority, h]
  rw [assembleUrl_eq, Delims.recompose]
  simp [UrlParts.toComponents, present, hauth]

theorem prepared_url_ne_nil {kind : AddressClass} (strict : Bool) {url host : Bytes}
    (hurl : url ≠ []) (h : HostOf lowerAndNormalize kind url (splitResult url).host host)
    (hne : host ≠ []) : (prepared kind strict url host).url ≠ [] := by
  rcases prepared_cases strict h with ⟨p, -, hp, heq⟩ | ⟨heq, -⟩
  · rw [heq]
    exact assembleUrl_ne_nil (hp ▸ hne)
  · rw [heq]
    exact hurl

theorem prepared_hasScheme {kind : AddressClass} (strict : Bool) {url host : Bytes} {x : URLAddress} (hs : Stored x)
    (h : HostOf lowerAndNormalize kind url (splitResult url).host host) (hurl : (prepared kind strict url host).url = x.url)
    (hscheme : (prepared kind strict url host).parts.scheme = x.parts.scheme) :
    (prepared kind strict url host).parts.scheme = [] → (prepared kind strict url host).parts.hasScheme = false := by
  rcases prepared_cases strict h with ⟨p, -, -, heq⟩ | ⟨heq, -⟩
  · rw [heq]
    intro hnil
    exact decide_eq_false (not_not.mpr hnil)
  · rw [heq] at hurl hscheme ⊢
    intro hnil
    have hstored := hs.scheme
    obtain ⟨_, _, _, _, hsplit, -⟩ := splitResult_eq url
    have hflag : (splitResult url).hasScheme = (urlComponents url).scheme.isSome := by rw [hsplit]; rfl
    have hempty : x.parts.scheme = [] := hscheme.symm.trans hnil
    rw [← hurl, hempty] at hstored
    show (splitResult url).hasScheme = false
    rw [hflag, ← hstored]
    rfl

theorem readPort_eq_none {secure secure' : Bool} {port : Bytes} (h : readPort secure port = none) :
    readPort secure' port = none := by
  unfold readPort at h ⊢
  split at h
  · cases h
  next hne => rw [if_neg hne]; exact h

theorem retries_of_intact (hu : Usable s) (hne : value ≠ [])
    (h : Left lowerAndNormalize s value e a) (he : e.isInvalidUrl = true)
    (hi : Intact s a) : Retries lowerAndNormalize s value := by
  have htarget := target_ne_nil s.strict hne
  obtain ⟨hscheme, huserinfo, hhost, hport, hpath, hquery, hfragment⟩ := components_eq hi.components
  cases h with
  | host hkind hidna ha =>
      subst ha
      have hurl : target s.strict value = s.url := hi.url
      have hcomp : (⟨target s.strict value, splitResult
          (target s.strict value)⟩ : URLAddress).components = s.components := hi.components
      obtain ⟨e', rfl⟩ := idna_of_invalidUrl hidna he
      rw [hurl] at hidna hcomp
      have hsame : (splitResult s.url).host = s.parts.host := (components_eq hcomp).2.2.1
      rw [hsame] at hidna
      exact ⟨hkind, hurl, hcomp, e', hidna⟩
  | web host hhost' hweb hurl =>
      cases hu with
      | empty hnil => exact absurd (hurl.symm.trans (hi.url.trans hnil)) htarget
      | checked hweb' =>
          rw [hscheme, hhost] at hweb
          exact absurd hweb' hweb
  | valid host hhost' hne' ha hv =>
      cases hu with
      | empty hnil =>
          have hurl := hi.url
          rw [ha] at hurl
          exact absurd (hurl.trans hnil) (prepared_url_ne_nil s.strict htarget hhost' hne')
      | checked _ hv' hs =>
          refine absurd (hv'.congr ?_ hscheme huserinfo hhost hport hpath hquery hfragment) hv
          have hurl := hi.url
          rw [ha] at hurl hscheme ⊢
          exact prepared_hasScheme s.strict hs hhost' hurl hscheme
  | port host hhost' hne' ha secure hread =>
      cases hu with
      | empty hnil =>
          have hurl := hi.url
          rw [ha] at hurl
          exact absurd (hurl.trans hnil) (prepared_url_ne_nil s.strict htarget hhost' hne')
      | checked _ _ _ hread' =>
          rw [hport] at hread
          exact absurd (readPort_eq_none hread) hread'

theorem intact_of_retries (h : Left lowerAndNormalize s value e a)
    (hr : Retries lowerAndNormalize s value) : Intact s a := by
  obtain ⟨hkind, htarget, hsplit, e', hidna⟩ := hr
  have hhost : (splitResult s.url).host = s.parts.host := (components_eq hsplit).2.2.1
  -- 正規化に失敗するので、後の段階には進まない。
  have hstop : ∀ host, ¬ HostOf lowerAndNormalize s.kind (target s.strict value)
      (splitResult (target s.strict value)).host host := by
    intro host hof
    rw [hkind, htarget, hhost] at hof
    obtain ⟨hosts, hok, -⟩ := hof
    rw [hidna] at hok
    cases hok
  cases h with
  | host _ _ ha =>
      subst ha
      refine ⟨htarget, ?_, rfl, rfl, rfl⟩
      show (⟨target s.strict value, splitResult (target s.strict value)⟩ : URLAddress).components = s.components
      rw [htarget, hsplit]
  | web host hof => exact absurd hof (hstop host)
  | valid host hof => exact absurd hof (hstop host)
  | port host hof => exact absurd hof (hstop host)

end UnixCommons.HTTP
