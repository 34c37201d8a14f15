import UnixCommons.HTTP.Lemmas.HttpPort

/-!
# 二つの構築と既定のポートの定理
-/

namespace UnixCommons.HTTP

open Lib Lib.Uri String.AsciiStringManip String.StrToInt

/-! ## 構築の手順 -/

/-- アドレスを作る手順。 -/
inductive Construction
  | url (kind : AddressClass) (value : Bytes)
  | parts (kind : AddressClass) (host path query fragment : Bytes) (port : UInt16) (secure : Bool) (userinfo : Bytes)
  | copy (way : Copying) (c : Construction)
  | assign (c : Construction) (value : Bytes)

section
variable (lowerAndNormalize : List Nat → Bool → Option (List Nat))

def Construction.build : Construction → Except Error HTTPAddress
  | .url kind value => HTTPAddress.ofUrl lowerAndNormalize kind value
  | .parts kind host path query fragment port secure userinfo =>
      HTTPAddress.ofParts lowerAndNormalize kind host path query fragment port secure userinfo
  | .copy way c => do (← c.build).copy way
  | .assign c value => do constructed (HTTP.assign lowerAndNormalize value) (← c.build)

end

def Construction.strict : Construction → Bool
  | .url kind _ => kind = .http
  | .parts kind _ _ _ _ _ _ _ => kind = .browser
  | .copy _ c => c.strict
  | .assign c _ => c.strict

def NoDefaultPortText (strict : Bool) (value : Bytes) : Prop :=
  let parts := splitResult (target strict value)
  parts.port ≠ [] → decimalFrom 0 parts.port ≠ getDefaultPort (caselessEqual parts.scheme httpsScheme)

def Construction.PlainPort : Construction → Prop
  | .url kind value => value ≠ [] ∧ NoDefaultPortText (kind = .http) value
  | .parts _ host _ _ _ _ _ _ => host ≠ []
  | .copy _ c => c.PlainPort
  | .assign c value => NoDefaultPortText c.strict value

structure DefaultPortRight (a : HTTPAddress) : Prop where
  flag : a.defaultPort = true ↔ a.portNumber = getDefaultPort a.secure
  view : a.portNumber = getDefaultPort a.secure →
    getView vwFull a = .ok (protocolView vwFull a ++ hostView vwFull a ++ a.parts.path ++
    queryView vwFull a ++ fragmentView vwFull a)

variable {lowerAndNormalize : List Nat → Bool → Option (List Nat)} {s a : HTTPAddress} {value : Bytes}

theorem defaultPortRight_iff : DefaultPortRight a ↔ (a.defaultPort = true ↔ a.portNumber = getDefaultPort a.secure) := by
  refine ⟨DefaultPortRight.flag, fun h => ⟨h, fun hport => ?_⟩⟩
  have hflag := h.mpr hport
  have hview : portView vwFull a = [] := by
    rw [portView, if_neg]
    rintro (hp | hp)
    · exact absurd hp (by decide)
    · exact hp.1 hflag
  have hpath : pathView vwFull a = .ok a.parts.path := by
    rw [pathView, if_pos (by decide), if_neg (by decide)]
    rfl
  rw [getView, hpath, hview, List.append_nil]
  rfl

theorem defaultPortRight_assign (h : Ends (assign lowerAndNormalize value) s () a) :
    DefaultPortRight a ↔ NoDefaultPortText s.strict value := by
  obtain ⟨-, x, n, ⟨host, -, -, rfl, hv⟩, hn, rfl⟩ := ends_assign.mp h
  obtain ⟨hscheme, hport⟩ := prepared_scheme s.kind s.strict (target s.strict value) host
  rw [readPort_eq_some hv.port] at hn
  rw [hscheme, hport] at hn
  unfold NoDefaultPortText
  rw [defaultPortRight_iff, finished]
  dsimp only
  rw [hscheme, hport]
  by_cases hnil : (splitResult (target s.strict value)).port = []
  · rw [if_pos hnil] at hn
    simp [hnil, hn]
  · rw [if_neg hnil] at hn
    simp [hnil, hn.1]

theorem strict_build {c : Construction} (h : c.build lowerAndNormalize = .ok a) : a.strict = c.strict := by
  induction c generalizing a with
  | url kind value =>
      rw [Construction.build, HTTPAddress.ofUrl] at h
      split at h
      · obtain rfl := Except.ok.inj h
        rfl
      · obtain ⟨-, x, n, -, -, rfl⟩ := ends_assign.mp (constructed_eq_ok.mp h)
        rfl
  | parts kind host path query fragment port secure userinfo =>
      have hset : ∀ {s : HTTPAddress} {host : Bytes} {port : Nat},
          Ends (setParts secure userinfo host port path query fragment) s () a →
          a.strict = s.strict := by
        intro s host port hends
        by_cases hne : host = []
        · subst hne
          rw [ends_setParts_nil.mp hends]
        · rw [((ends_setParts hne).mp hends).2]
      cases kind with
      | http =>
          rw [Construction.build, HTTPAddress.ofParts] at h
          exact hset (constructed_eq_ok.mp h)
      | browser =>
          rw [Construction.build, HTTPAddress.ofParts] at h
          obtain ⟨fixed, s₁, h₁, h₂⟩ := ends_bind.mp (constructed_eq_ok.mp h)
          obtain ⟨hosts, -, -, rfl⟩ := ends_processHost.mp h₁
          exact hset h₂
  | copy way c ih =>
      rw [Construction.build] at h
      obtain ⟨b, hb, h⟩ := bind_eq_ok.mp h
      rw [HTTPAddress.copy] at h
      obtain ⟨x, hx, h⟩ := bind_eq_ok.mp h
      obtain rfl := Except.ok.inj h
      have hstrict := ih hb
      exact hstrict
  | assign c value ih =>
      rw [Construction.build] at h
      obtain ⟨b, hb, h⟩ := bind_eq_ok.mp h
      obtain ⟨-, x, n, -, -, rfl⟩ := ends_assign.mp (constructed_eq_ok.mp h)
      have hstrict := ih hb
      exact hstrict

theorem defaultPortRight_build {c : Construction} (h : c.build lowerAndNormalize = .ok a) :
    DefaultPortRight a ↔ c.PlainPort := by
  induction c generalizing a with
  | url kind value =>
      rw [Construction.build, HTTPAddress.ofUrl] at h
      split at h
      next hnil =>
          obtain rfl := Except.ok.inj h
          rw [defaultPortRight_iff]
          exact iff_of_false (by simp [HTTPAddress.initial, getDefaultPort, defaultHttpPort]) fun hp => hp.1 hnil
      next hne =>
          rw [defaultPortRight_assign (constructed_eq_ok.mp h)]
          exact ⟨fun hp => ⟨hne, hp⟩, fun hp => hp.2⟩
  | parts kind host path query fragment port secure userinfo =>
      have hset : ∀ {s : HTTPAddress} {host : Bytes} {port : Nat}, host ≠ [] →
          Ends (setParts secure userinfo host port path query fragment) s () a → DefaultPortRight a := by
        intro s host port hne hends
        rw [defaultPortRight_iff, ((ends_setParts hne).mp hends).2]
        exact decide_eq_true_iff
      cases kind with
      | http =>
          rw [Construction.build, HTTPAddress.ofParts] at h
          by_cases hne : host = []
          · subst hne
            rw [defaultPortRight_iff, ends_setParts_nil.mp (constructed_eq_ok.mp h)]
            exact iff_of_false (by decide) fun hp => hp rfl
          · exact iff_of_true (hset hne (constructed_eq_ok.mp h)) hne
      | browser =>
          rw [Construction.build, HTTPAddress.ofParts] at h
          obtain ⟨fixed, s₁, h₁, h₂⟩ := ends_bind.mp (constructed_eq_ok.mp h)
          obtain ⟨hosts, hn, rfl, rfl⟩ := ends_processHost.mp h₁
          have hidna := stop_mapError.mp hn
          refine iff_of_true (hset (idnaNormalizeHost_ne_nil hidna) h₂) ?_
          rintro rfl
          cases hidna
  | copy way c ih =>
      rw [Construction.build] at h
      obtain ⟨b, hb, h⟩ := bind_eq_ok.mp h
      rw [HTTPAddress.copy] at h
      obtain ⟨x, hx, h⟩ := bind_eq_ok.mp h
      obtain rfl := Except.ok.inj h
      rw [Construction.PlainPort, ← ih hb, defaultPortRight_iff, defaultPortRight_iff]
  | assign c value ih =>
      rw [Construction.build] at h
      obtain ⟨b, hb, h⟩ := bind_eq_ok.mp h
      rw [defaultPortRight_assign (constructed_eq_ok.mp h), strict_build hb]
      rfl

/-! ## 二つの構築 -/

structure Agrees (a b : HTTPAddress) : Prop where
  host : b.parts.host = a.parts.host
  path : b.parts.path = a.parts.path
  query : b.parts.query = a.parts.query
  fragment : b.parts.fragment = a.parts.fragment
  userinfo : b.parts.userinfo = a.parts.userinfo
  portNumber : b.portNumber = a.portNumber
  secure : b.secure = a.secure

theorem reparse_agrees {host path query fragment userinfo : Bytes} {port : UInt16} {secure : Bool}
    (h : HTTPAddress.ofParts lowerAndNormalize .http host path query fragment port secure userinfo = .ok a) :
    ∃ b, HTTPAddress.ofUrl lowerAndNormalize .http a.url = .ok b ∧ Agrees a b := by
  rw [HTTPAddress.ofParts] at h
  generalize hport : (if port ≠ 0 then port.toNat else getDefaultPort secure) = number at h
  have hlt : number < 65536 := by
    rw [← hport]
    split
    · exact port.toNat_lt
    · cases secure <;> decide
  by_cases hne : host = []
  · subst hne
    rw [ends_setParts_nil.mp (constructed_eq_ok.mp h)]
    exact ⟨_, rfl, rfl, rfl, rfl, rfl, rfl, rfl, rfl⟩
  · obtain ⟨hv, rfl⟩ := (ends_setParts hne).mp (constructed_eq_ok.mp h)
    have hscheme : (setPartsOf secure userinfo host number path query fragment).scheme ≠ [] := schemeText_ne_nil secure
    have hc : (setPartsOf secure userinfo host number path query fragment).Consistent := UrlParts.of_consistent _ _ _ _ _ _ _
    obtain ⟨q, hq, hqv, h₁, h₂, h₃, h₄, h₅, h₆, h₇⟩ := splitResult_assembleUrl hc hv hscheme
    have hurl : assembleUrl (setPartsOf secure userinfo host number path query fragment) ≠ [] := by
      intro hnil
      rw [hnil] at hq
      rw [← h₁, ← hq] at hscheme
      exact hscheme rfl
    have hhttps : caselessEqual (schemeText secure) httpsScheme = secure := by cases secure <;> decide
    have hweb : caselessEqual (schemeText secure) httpScheme = true ∨
        caselessEqual (schemeText secure) httpsScheme = true := by
      cases secure <;> decide
    have htarget : target true (assembleUrl (setPartsOf secure userinfo host number path query fragment)) =
        assembleUrl (setPartsOf secure userinfo host number path query fragment) := if_neg (by simp)
    have hprepared : prepared .http true (assembleUrl (setPartsOf secure userinfo host number path query fragment)) q.host =
        ⟨assembleUrl (setPartsOf secure userinfo host number path query fragment), q⟩ := by
      rw [← hq]
      rfl
    have haccepted : Accepted lowerAndNormalize .http true
        (assembleUrl (setPartsOf secure userinfo host number path query fragment))
        ⟨assembleUrl (setPartsOf secure userinfo host number path query fragment), q⟩ := by
      refine ⟨q.host, ?_, ?_, ?_, hqv⟩
      · rw [htarget, hq]
        rfl
      · rw [htarget, hq]
        refine ⟨?_, by rw [h₃]; exact hne⟩
        rw [h₁]
        exact hweb.imp id .inl
      · rw [htarget]
        exact hprepared.symm
    have hread : readPort (caselessEqual q.scheme httpsScheme) q.port = some number := by
      rw [h₁, h₄]
      show readPort (caselessEqual (schemeText secure) httpsScheme) (portText secure number) = _
      rw [hhttps]
      exact readPort_portText hlt hv.port
    have hpathne : q.path ≠ [] := by
      rw [h₅]
      show pathText path ≠ []
      unfold pathText
      split
      · decide
      next hp => exact hp
    refine ⟨finished (HTTPAddress.initial .http true)
      ⟨assembleUrl (setPartsOf secure userinfo host number path query fragment), q⟩ number, ?_, ?_⟩
    · rw [HTTPAddress.ofUrl, if_neg hurl, constructed_eq_ok]
      exact ends_assign.mpr ⟨hurl, _, number, haccepted, hread, rfl⟩
    · have hdefault : withDefaultPath q = q := if_neg hpathne
      unfold finished
      dsimp only
      rw [hdefault]
      refine ⟨h₃, h₅, h₆, h₇, h₂, rfl, ?_⟩
      show caselessEqual q.scheme httpsScheme = secure
      rw [h₁]
      exact hhttps

theorem http_constructors_iff (lowerAndNormalize : List Nat → Bool → Option (List Nat)) :
    (∀ host path query fragment port secure userinfo a,
      HTTPAddress.ofParts lowerAndNormalize .http host path query fragment port secure userinfo =
      .ok a → ∃ b, HTTPAddress.ofUrl lowerAndNormalize .http a.url = .ok b ∧ Agrees a b) ∧
    (∀ (c : Construction) a, c.build lowerAndNormalize = .ok a → (DefaultPortRight a ↔ c.PlainPort)) :=
  ⟨fun _ _ _ _ _ _ _ _ h => reparse_agrees h, fun _ _ h => defaultPortRight_build h⟩

/-- `http://h:80/` のポートは既定のポートであるが、印はそうでない。 -/
theorem http_constructors_port_80 :
    let url := List.map ascii ['h', 't', 't', 'p', ':', '/', '/', 'h', ':', '8', '0', '/']
    ∃ a, (Construction.url .http url).build (fun _ _ => none) = .ok a ∧ ¬ DefaultPortRight a := by
  refine ⟨⟨⟨List.map ascii ['h', 't', 't', 'p', ':', '/', '/', 'h', ':', '8', '0', '/'],
    ⟨⟨true, httpScheme, false, [], true, [ascii 'h'], true, [ascii '8', ascii '0'], true, defaultPath, false, [], false, []⟩,
      List.map ascii ['h', ':', '8', '0']⟩⟩, .http, true, 80, false, false⟩, by decide, ?_⟩
  intro h
  exact absurd (h.flag.mpr rfl) (by decide)

theorem http_constructors_port_8080 :
    let host := [ascii 'h']
    ∃ a, HTTPAddress.ofParts (fun _ _ => none) .http host [] [] [] 8080 false [] = .ok a ∧
      (∃ b, HTTPAddress.ofUrl (fun _ _ => none) .http a.url = .ok b ∧ Agrees a b) ∧
      (DefaultPortRight a ↔ (Construction.parts .http host [] [] [] 8080 false []).PlainPort) := by
  have h : HTTPAddress.ofParts (fun _ _ => none) .http [ascii 'h'] [] [] [] 8080 false [] =
      .ok ⟨⟨List.map ascii ['h', 't', 't', 'p', ':', '/', '/', 'h', ':', '8', '0', '8', '0', '/'],
        adjusted (setPartsOf false [] [ascii 'h'] 8080 [] [] [])⟩, .http, false, 8080, false, false⟩ := by decide
  exact ⟨_, h, (http_constructors_iff _).1 _ _ _ _ _ _ _ _ h, (http_constructors_iff _).2
    (.parts .http [ascii 'h'] [] [] [] 8080 false []) _ h⟩

end UnixCommons.HTTP
