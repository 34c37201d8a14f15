import UnixCommons.Lib.Attempt
import UnixCommons.HTTP.HttpAddress
import UnixCommons.HTTP.Lemmas.UrlAddress

/-! # HTTP のアドレスの補題 -/

namespace UnixCommons.HTTP

open Lib Lib.Uri String.AsciiStringManip String.StrToInt

/-! ## 分けた成分 -/

def splitResult (url : Bytes) : ExtendedUrlParts :=
  match splitUrl url with
  | .ok parts => parts
  | .error _ => ExtendedUrlParts.cleared

theorem splitUrl_eq (url : Bytes) : splitUrl url = .ok (splitResult url) := by
  obtain ⟨_, _, _, _, h, -⟩ := splitUrl_spec url
  rw [splitResult, h]

theorem splitResult_eq (url : Bytes) : ∃ hasPath userinfo host port,
    splitResult url = withAuthority (ofComponents (urlComponents url) hasPath) userinfo host port ∧
      AuthoritySplit ((urlComponents url).authority.getD []) userinfo host port := by
  obtain ⟨hasPath, userinfo, host, port, h, hsplit⟩ := splitUrl_spec url
  rw [splitUrl_eq] at h
  exact ⟨hasPath, userinfo, host, port, Except.ok.inj h, hsplit⟩

theorem splitResult_consistent (url : Bytes) : (splitResult url).toUrlParts.Consistent := by
  obtain ⟨_, _, _, _, h, -⟩ := splitResult_eq url
  rw [h]
  exact withAuthority_consistent _ _ _ _ _

theorem urlWithoutCheck_eq {value : Bytes} (h : value ≠ []) : urlWithoutCheck value = .ok ⟨value, splitResult value⟩ := by
  rw [urlWithoutCheck, if_neg h, splitUrl_eq]
  rfl

/-! ## 直した成分 -/

theorem httpFixPart_ne_nil {part checker fixed : Bytes}
    (h : httpFixPart part checker = some fixed) : part ≠ [] ∧ fixed ≠ [] := by
  have hgrow : ∀ fuel str newPart, newPart ≠ [] → fixLoop fuel str newPart ≠ [] := by
    intro fuel
    induction fuel with
    | zero => exact fun str newPart hne => by rw [fixLoop]; exact hne
    | succ fuel ih =>
        intro str newPart hne
        cases str with
        | nil =>
            rw [fixLoop]
            exact hne
        | cons ch old =>
            rw [fixLoop]
            exact ih _ _ (by simp [escapeChar])
  rw [httpFixPart] at h
  split at h
  · cases h
  next hne =>
      obtain rfl := Option.some.inj h
      cases part with
      | nil => exact absurd rfl hne
      | cons ch rest =>
          refine ⟨by simp, ?_⟩
          cases hstr : findInvalid checker (ch :: rest) with
          | nil => exact absurd hstr hne
          | cons c old =>
              rw [List.length_cons, fixLoop]
              exact hgrow _ _ _ (by simp [escapeChar])

theorem getD_fix_eq_nil {part checker : Bytes} : (httpFixPart part checker).getD part = [] ↔ part = [] := by
  cases h : httpFixPart part checker with
  | none => rfl
  | some fixed =>
      obtain ⟨h₁, h₂⟩ := httpFixPart_ne_nil h
      simp [h₁, h₂]

variable {parts : UrlParts}

theorem fixParts_consistent (h : parts.Consistent) : (fixParts parts).1.Consistent where
  userinfo := by
    show parts.hasUserinfo = decide ((httpFixPart parts.userinfo userInfo).getD parts.userinfo ≠ [])
    rw [h.userinfo]
    simp only [ne_eq, getD_fix_eq_nil]
  port := h.port
  query := fun hf => getD_fix_eq_nil.mpr (h.query hf)
  fragment := fun hf => getD_fix_eq_nil.mpr (h.fragment hf)

theorem fixedParts_consistent (strict : Bool) (h : parts.Consistent) : (fixedParts strict parts).1.Consistent := by
  unfold fixedParts
  split
  · exact h
  · exact fixParts_consistent h

/-! ## 代入の段階 -/

section
variable {lowerAndNormalize : List Nat → Bool → Option (List Nat)} {s a : HTTPAddress} {u : Unit}

theorem ends_setUrl {x : Except Error URLAddress} : Ends (setUrl x) s u a ↔ ∃ address,
    x = .ok address ∧ a = { s with toURLAddress := address } := by
  unfold setUrl
  rw [ends_bind]
  constructor
  · rintro ⟨address, s₁, h₁, h₂⟩
    obtain ⟨rfl, rfl⟩ := ends_lift.mp h₁
    exact ⟨address, rfl, ends_modify.mp h₂⟩
  · rintro ⟨address, rfl, rfl⟩
    exact ⟨address, s, ends_lift.mpr ⟨rfl, rfl⟩, ends_modify.mpr rfl⟩

def target (strict : Bool) (url : Bytes) : Bytes :=
  if ¬ strict ∧ httpUrlNeedsPrefix (splitResult url).scheme (splitResult url).host then httpAddScheme url else url

theorem ends_addScheme {url : Bytes} (hs : s.toURLAddress = ⟨url, splitResult url⟩) :
    Ends addScheme s u a ↔ a = { s with toURLAddress := ⟨target s.strict url, splitResult (target s.strict url)⟩ } := by
  have hurl : s.url = url := by rw [hs]
  have hparts : s.parts = splitResult url := by rw [hs]
  unfold addScheme target
  rw [ends_bind]
  have hne : httpAddScheme url ≠ [] := by simp [httpAddScheme, httpScheme]
  constructor
  · rintro ⟨t, s₁, h₁, h₂⟩
    obtain ⟨rfl, rfl⟩ := ends_get.mp h₁
    rw [hurl, hparts] at h₂
    split at h₂
    next hc =>
        rw [if_pos hc]
        obtain ⟨address, h, rfl⟩ := ends_setUrl.mp h₂
        rw [urlWithoutCheck_eq hne] at h
        obtain rfl := Except.ok.inj h
        rfl
    next hc =>
        rw [if_neg hc, ← hs]
        exact (ends_pure.mp h₂).2
  · intro h
    refine ⟨s, s, ends_get.mpr ⟨rfl, rfl⟩, ?_⟩
    rw [hurl, hparts]
    split
    next hc =>
        rw [if_pos hc] at h
        exact ends_setUrl.mpr ⟨_, urlWithoutCheck_eq hne, h⟩
    next hc =>
        rw [if_neg hc, ← hs] at h
        exact ends_pure.mpr ⟨rfl, h⟩

theorem ends_processHost {host fixed : Bytes} : Ends (processHost lowerAndNormalize host) s fixed a ↔
    ∃ hosts, idnaHostNormalize lowerAndNormalize s.url host = .ok hosts ∧ fixed = hosts.ascii ∧
      a = { s with parts := { s.parts with host := hosts.ascii } } := by
  unfold processHost
  simp only [ends_bind]
  constructor
  · rintro ⟨t, s₁, h₁, hosts, s₂, h₂, _, s₃, h₃, h₄⟩
    obtain ⟨rfl, rfl⟩ := ends_get.mp h₁
    obtain ⟨hn, rfl⟩ := ends_lift.mp h₂
    obtain ⟨rfl, rfl⟩ := ends_pure.mp h₄
    exact ⟨hosts, hn, rfl, ends_set.mp h₃⟩
  · rintro ⟨hosts, hn, rfl, rfl⟩
    exact ⟨s, s, ends_get.mpr ⟨rfl, rfl⟩, hosts, s, ends_lift.mpr ⟨hn, rfl⟩, ⟨⟩, _,
      ends_set.mpr rfl, ends_pure.mpr ⟨rfl, rfl⟩⟩

def HostOf (lowerAndNormalize : List Nat → Bool → Option (List Nat)) (kind : AddressClass) (url host fixed : Bytes) : Prop :=
  match kind with
  | .http => fixed = host
  | .browser => ∃ hosts, idnaHostNormalize lowerAndNormalize url host = .ok hosts ∧ fixed = hosts.ascii

def URLAddress.withHost (x : URLAddress) (host : Bytes) : URLAddress := { x with parts := { x.parts with host := host } }

theorem ends_additionalChecks {r : Bool} : Ends (additionalChecks lowerAndNormalize) s r a ↔
    r = decide (s.kind = .browser) ∧
      ∃ host, HostOf lowerAndNormalize s.kind s.url s.parts.host host ∧
      a = { s with toURLAddress := s.toURLAddress.withHost host } := by
  unfold additionalChecks
  rw [ends_bind]
  obtain ⟨x, kind, strict, portNumber, secure, defaultPort⟩ := s
  cases kind with
  | http =>
      constructor
      · rintro ⟨t, s₁, h₁, h₂⟩
        obtain ⟨rfl, rfl⟩ := ends_get.mp h₁
        obtain ⟨rfl, rfl⟩ := ends_pure.mp h₂
        exact ⟨rfl, _, rfl, rfl⟩
      · rintro ⟨rfl, host, rfl, rfl⟩
        exact ⟨_, _, ends_get.mpr ⟨rfl, rfl⟩, ends_pure.mpr ⟨rfl, rfl⟩⟩
  | browser =>
      constructor
      · rintro ⟨t, s₁, h₁, h₂⟩
        obtain ⟨rfl, rfl⟩ := ends_get.mp h₁
        obtain ⟨host, s₂, h₃, h₄⟩ := ends_bind.mp h₂
        obtain ⟨rfl, rfl⟩ := ends_pure.mp h₄
        obtain ⟨hosts, hn, -, rfl⟩ := ends_processHost.mp h₃
        exact ⟨rfl, _, ⟨hosts, hn, rfl⟩, rfl⟩
      · rintro ⟨rfl, host, ⟨hosts, hn, rfl⟩, rfl⟩
        exact ⟨_, _, ends_get.mpr ⟨rfl, rfl⟩,
          ends_bind.mpr ⟨_, _, ends_processHost.mpr ⟨hosts, hn, rfl, rfl⟩, ends_pure.mpr ⟨rfl, rfl⟩⟩⟩

def rebuilt (rebuild strict : Bool) (x : URLAddress) : URLAddress :=
  let fixed := fixedParts strict x.parts.toUrlParts
  if rebuild || fixed.2 then ⟨assembleUrl fixed.1, adjusted fixed.1⟩ else x

theorem ends_rebuildParts {rebuild : Bool} (hc : s.parts.toUrlParts.Consistent) :
    Ends (rebuildParts rebuild) s u a ↔ a = { s with toURLAddress := rebuilt rebuild s.strict s.toURLAddress } := by
  have hfixed := fixedParts_consistent s.strict hc
  unfold rebuildParts rebuilt
  dsimp only
  rw [ends_bind]
  constructor
  · rintro ⟨t, s₁, h₁, h₂⟩
    obtain ⟨rfl, rfl⟩ := ends_get.mp h₁
    split at h₂
    next hr =>
        rw [if_pos hr]
        obtain ⟨x, hx, rfl⟩ := ends_setUrl.mp h₂
        rw [assignUrlParts_eq hfixed] at hx
        obtain rfl := Except.ok.inj hx
        rfl
    next hr =>
        rw [if_neg hr]
        exact (ends_pure.mp h₂).2
  · intro h
    refine ⟨s, s, ends_get.mpr ⟨rfl, rfl⟩, ?_⟩
    split
    next hr =>
        rw [if_pos hr] at h
        exact ends_setUrl.mpr ⟨_, assignUrlParts_eq hfixed, h⟩
    next hr =>
        rw [if_neg hr] at h
        exact ends_pure.mpr ⟨rfl, h⟩

def WebParts (strict : Bool) (scheme host : Bytes) : Prop :=
  (caselessEqual scheme httpScheme = true ∨ caselessEqual scheme httpsScheme = true ∨
    strict = false ∧ scheme = []) ∧ host ≠ []

theorem checkHttpUrlComponents_iff {url scheme host : Bytes} {strict : Bool} :
    checkHttpUrlComponents url scheme host strict = .ok () ↔ WebParts strict scheme host := by
  unfold checkHttpUrlComponents WebParts
  split
  next h =>
      refine iff_of_false (by simp [makeInvalid, throw, throwThe, MonadExceptOf.throw]) ?_
      rintro ⟨h₁ | h₁ | ⟨h₁, h₂⟩, -⟩
      · exact h.1 h₁
      · exact h.2.1 h₁
      · rcases h.2.2 with h₃ | h₃
        · rw [h₁] at h₃
          cases h₃
        · exact h₃ h₂
  next h =>
      have hs : caselessEqual scheme httpScheme = true ∨ caselessEqual scheme httpsScheme = true ∨
          strict = false ∧ scheme = [] := by
        simp only [not_and_or, not_or, not_not] at h
        simpa using h
      by_cases hh : host = []
      · rw [if_pos hh]
        exact iff_of_false (by simp [makeInvalid, throw, throwThe, MonadExceptOf.throw]) fun hw => hw.2 hh
      · rw [if_neg hh]
        exact iff_of_true rfl ⟨hs, hh⟩

def prepared (kind : AddressClass) (strict : Bool) (url host : Bytes) : URLAddress :=
  rebuilt (kind = .browser) strict (URLAddress.withHost ⟨url, splitResult url⟩ host)

def Accepted (lowerAndNormalize : List Nat → Bool → Option (List Nat)) (kind : AddressClass)
    (strict : Bool) (value : Bytes) (x : URLAddress) : Prop :=
  let url := target strict value
  ∃ host, HostOf lowerAndNormalize kind url (splitResult url).host host ∧ WebParts strict (splitResult url).scheme host ∧
    x = prepared kind strict url host ∧ x.parts.toUrlParts.Valid

theorem ends_specificChecks {url : Bytes} (hs : s.toURLAddress = ⟨url, splitResult url⟩) :
    Ends (specificChecks lowerAndNormalize) s u a ↔
      ∃ host, HostOf lowerAndNormalize s.kind (target s.strict url) (splitResult (target s.strict url)).host host ∧
        WebParts s.strict (splitResult (target s.strict url)).scheme host ∧
        a = { s with toURLAddress := prepared s.kind s.strict (target s.strict url) host } := by
  unfold specificChecks
  simp only [ends_bind, ends_addScheme hs, ends_additionalChecks]
  have hc : ∀ host, (URLAddress.withHost ⟨target s.strict url, splitResult (target s.strict url)⟩
      host).parts.toUrlParts.Consistent := fun _ =>
    have h := splitResult_consistent (target s.strict url)
    ⟨h.userinfo, h.port, h.query, h.fragment⟩
  constructor
  · rintro ⟨_, s₁, rfl, r, s₂, ⟨rfl, host, hhost, rfl⟩, t, s₃, h₁, v, s₄, h₂, h₃⟩
    obtain ⟨rfl, rfl⟩ := ends_get.mp h₁
    obtain ⟨hchk, rfl⟩ := ends_lift.mp h₂
    refine ⟨host, hhost, ?_, (ends_rebuildParts (hc host)).mp h₃⟩
    exact checkHttpUrlComponents_iff.mp (orInvalid_eq_ok.mp hchk)
  · rintro ⟨host, hhost, hweb, rfl⟩
    refine ⟨⟨⟩, _, rfl, _, _, ⟨rfl, host, hhost, rfl⟩, _, _, ends_get.mpr ⟨rfl, rfl⟩, (), _,
      ends_lift.mpr ⟨?_, rfl⟩, (ends_rebuildParts (hc host)).mpr rfl⟩
    exact orInvalid_eq_ok.mpr (checkHttpUrlComponents_iff.mpr hweb)

theorem ends_assignUrl {value : Bytes} (hne : value ≠ []) : Ends (assignUrl lowerAndNormalize value) s u a ↔
    ∃ x, Accepted lowerAndNormalize s.kind s.strict value x ∧ a = { s with toURLAddress := x } := by
  unfold assignUrl
  simp only [ends_bind, ends_setUrl, urlWithoutCheck_eq hne]
  constructor
  · rintro ⟨_, s₁, ⟨x, hx, rfl⟩, _, s₂, h₁, t, s₃, h₂, h₃⟩
    obtain rfl := Except.ok.inj hx
    obtain ⟨host, hhost, hweb, rfl⟩ := (ends_specificChecks rfl).mp h₁
    obtain ⟨rfl, rfl⟩ := ends_get.mp h₂
    obtain ⟨hchk, rfl⟩ := ends_lift.mp h₃
    exact ⟨_, ⟨host, hhost, hweb, rfl, urlPartsChecker_iff.mp (orInvalid_eq_ok.mp hchk)⟩, rfl⟩
  · rintro ⟨x, ⟨host, hhost, hweb, rfl, hv⟩, rfl⟩
    refine ⟨⟨⟩, _, ⟨_, rfl, rfl⟩, ⟨⟩, _, (ends_specificChecks rfl).mpr ⟨host, hhost, hweb, rfl⟩, _,
      _, ends_get.mpr ⟨rfl, rfl⟩, ends_lift.mpr ⟨?_, rfl⟩⟩
    exact orInvalid_eq_ok.mpr (urlPartsChecker_iff.mpr hv)

def readPort (secure : Bool) (port : Bytes) : Option Nat :=
  if port = [] then some (getDefaultPort secure)
  else if (strToInt unsignedShort port 0).1 then some (strToInt unsignedShort port 0).2.toNat else none

theorem strToInt_eq {T : IntegerType} {str : Bytes} (v w : Int) (h : (strToInt T str v).1 = true) :
    strToInt T str w = strToInt T str v := by
  unfold strToInt at h ⊢
  split
  · cases h
  next ch src =>
      dsimp only at h ⊢
      split_ifs at h ⊢ <;> rfl

theorem strToInt_fst {T : IntegerType} {str : Bytes} (v w : Int) : (strToInt T str v).1 = (strToInt T str w).1 := by
  unfold strToInt
  split
  · rfl
  · split_ifs <;> rfl

theorem ends_assignPort : Ends assignPort s u a ↔ ∃ n, readPort s.secure s.parts.port = some n ∧
    a = { s with portNumber := n, defaultPort := decide (s.parts.port = []) } := by
  unfold assignPort readPort
  rw [ends_bind]
  by_cases hp : s.parts.port = []
  · simp only [hp]
    constructor
    · rintro ⟨t, s₁, h₁, h₂⟩
      obtain ⟨rfl, rfl⟩ := ends_get.mp h₁
      rw [if_neg (by simp [hp])] at h₂
      exact ⟨_, rfl, ends_set.mp h₂⟩
    · rintro ⟨n, hn, rfl⟩
      refine ⟨s, s, ends_get.mpr ⟨rfl, rfl⟩, ?_⟩
      rw [if_neg (by simp [hp])]
      obtain rfl := Option.some.inj hn
      exact ends_set.mpr rfl
  · rw [if_neg hp]
    constructor
    · rintro ⟨t, s₁, h₁, h₂⟩
      obtain ⟨rfl, rfl⟩ := ends_get.mp h₁
      rw [if_pos hp] at h₂
      obtain ⟨_, s₂, h₃, h₄⟩ := ends_bind.mp h₂
      obtain rfl := ends_set.mp h₃
      split at h₄
      next hok =>
          rw [strToInt_fst _ 0] at hok
          rw [strToInt_eq 0 _ hok] at h₄
          rw [if_pos hok]
          exact ⟨_, rfl, by simpa [hp] using ends_modify.mp h₄⟩
      · exact absurd h₄ ends_throw
    · rintro ⟨n, hn, rfl⟩
      refine ⟨s, s, ends_get.mpr ⟨rfl, rfl⟩, ?_⟩
      rw [if_pos hp]
      split at hn
      next hok =>
          obtain rfl := Option.some.inj hn
          refine ends_bind.mpr ⟨⟨⟩, _, ends_set.mpr rfl, ?_⟩
          rw [strToInt_eq 0 _ hok, if_pos hok]
          exact ends_modify.mpr (by simp [hp])
      · cases hn

def withDefaultPath (parts : ExtendedUrlParts) : ExtendedUrlParts :=
  if parts.path = [] then { parts with path := defaultPath } else parts

def finished (s : HTTPAddress) (x : URLAddress) (n : Nat) : HTTPAddress :=
  { s with toURLAddress := ⟨x.url, withDefaultPath x.parts⟩, portNumber := n, secure :=
    caselessEqual x.parts.scheme httpsScheme,
           defaultPort := decide (x.parts.port = []) }

theorem ends_assign {value : Bytes} : Ends (assign lowerAndNormalize value) s u a ↔ value ≠ [] ∧
    ∃ x n, Accepted lowerAndNormalize s.kind s.strict value x ∧
      readPort (caselessEqual x.parts.scheme httpsScheme) x.parts.port = some n ∧ a = finished s x n := by
  unfold assign
  by_cases hne : value = []
  · rw [if_pos hne]
    refine iff_of_false ?_ fun h => h.1 hne
    intro h
    obtain ⟨_, s₁, h₁, -⟩ := ends_bind.mp h
    exact ends_throw h₁
  · rw [if_neg hne]
    simp only [ends_bind, ends_assignUrl hne, ends_modify, ends_assignPort]
    have hpath : ∀ b : HTTPAddress,
      (if b.parts.path = [] then { b with parts := { b.parts with path := defaultPath } } else b) =
        { b with parts := withDefaultPath b.parts } := by
      intro b
      unfold withDefaultPath
      split <;> rfl
    constructor
    · rintro ⟨_, s₁, ⟨x, hx, rfl⟩, _, s₂, rfl, _, s₃, ⟨n, hn, rfl⟩, h⟩
      rw [hpath] at h
      exact ⟨hne, x, n, hx, hn, h⟩
    · rintro ⟨-, x, n, hx, hn, rfl⟩
      exact ⟨⟨⟩, _, ⟨x, hx, rfl⟩, ⟨⟩, _, rfl, ⟨⟩, _, ⟨n, hn, rfl⟩, by rw [hpath]; rfl⟩

end

theorem constructed_eq_ok {x : Change Unit} {s a : HTTPAddress} : constructed x s = .ok a ↔ Ends x s () a := by
  unfold constructed Ends
  rcases x.run.run s with ⟨r, t⟩
  cases r with
  | ok u =>
      constructor
      · intro h
        rw [Except.ok.inj h]
      · intro h
        cases h
        rfl
  | error e => exact iff_of_false (fun h => by cases h) fun h => by cases h

end UnixCommons.HTTP
