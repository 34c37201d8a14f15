import UnixCommons.HTTP.Lemmas.Idna
import UnixCommons.HTTP.Lemmas.UrlCopy
import UnixCommons.String.Lemmas.IntText

/-!
# ポートの補題

文字列からの構築は、ポートの文字列の値か、方式の既定のポートを番号とする。
-/

namespace UnixCommons.HTTP

open Lib Lib.Uri String.AsciiStringManip String.StrToInt

variable {lowerAndNormalize : List Nat → Bool → Option (List Nat)} {kind : AddressClass}
    {strict : Bool} {value : Bytes} {s a : HTTPAddress}

/-! ## 読んだポート -/

theorem digit_of_port {ch : UInt8} (h : isOwned portChars ch = true) : digit ch ≤ 9 := by
  have hchar : ∀ b : UInt8, isOwned portChars b = true → digit b ≤ 9 := forall_isOwned (by decide)
  exact hchar ch h

theorem readPort_eq_some {secure : Bool} {port : Bytes} {n : Nat}
    (hv : isValidChars port portChars = true) : readPort secure port = some n ↔
    if port = [] then n = getDefaultPort secure else decimalFrom 0 port = n ∧ n < 65536 := by
  unfold readPort
  split
  next => exact ⟨fun h => (Option.some.inj h).symm, fun h => by rw [h]⟩
  next hne =>
      have hdigits : ∀ ch ∈ port, digit ch ≤ 9 := fun ch hch => digit_of_port (isValidChars_iff.mp hv ch hch)
      have hiff : ∀ w : Int, strToInt unsignedShort port 0 = (true, w) ↔ w = decimalFrom 0 port ∧
          w ≤ unsignedShort.max := fun w =>
        strToInt_iff (by decide) hne hdigits
      have hnonneg : 0 ≤ decimalFrom 0 port := le_decimalFrom _ (Int.le_refl 0)
      have hmax : unsignedShort.max = 65535 := by decide
      constructor
      · intro h
        split at h
        next hok =>
            obtain ⟨hw, hle⟩ := (hiff (strToInt unsignedShort port 0).2).mp (by rw [← hok])
            obtain rfl := Option.some.inj h
            rw [hw] at hle ⊢
            omega
        next => cases h
      · rintro ⟨hn, hlt⟩
        have hread := (hiff n).mpr ⟨hn.symm, by omega⟩
        rw [hread, if_pos rfl]
        rfl

theorem fixedParts_scheme (strict : Bool) (parts : UrlParts) :
    (fixedParts strict parts).1.scheme = parts.scheme ∧ (fixedParts strict parts).1.port = parts.port := by
  unfold fixedParts
  split <;> exact ⟨rfl, rfl⟩

theorem prepared_scheme (kind : AddressClass) (strict : Bool) (url host : Bytes) :
    (prepared kind strict url host).parts.scheme = (splitResult url).scheme ∧
    (prepared kind strict url host).parts.port = (splitResult url).port := by
  unfold prepared rebuilt
  dsimp only
  split
  · exact fixedParts_scheme strict _
  · exact ⟨rfl, rfl⟩

/-! ## 成分からの構築 -/

variable {secure : Bool} {userinfo host path query fragment : Bytes} {port : Nat} {u : Unit}

def schemeText (secure : Bool) : Bytes := if secure then httpsScheme else httpScheme

def portText (secure : Bool) (port : Nat) : Bytes := if port = getDefaultPort secure then [] else decimalText port

def pathText (path : Bytes) : Bytes := if path = [] then defaultPath else path

def setPartsOf (secure : Bool) (userinfo host : Bytes) (port : Nat) (path query fragment : Bytes) : UrlParts :=
  UrlParts.of (schemeText secure) userinfo host (portText secure port) (pathText path) query fragment

theorem ends_setParts (hne : host ≠ []) :
    Ends (setParts secure userinfo host port path query fragment) s u a ↔
      (setPartsOf secure userinfo host port path query fragment).Valid ∧ a = { s with
        toURLAddress :=
          ⟨assembleUrl (setPartsOf secure userinfo host port path query fragment),
            adjusted (setPartsOf secure userinfo host port path query fragment)⟩
        secure := secure, portNumber := port, defaultPort := port = getDefaultPort secure } := by
  have hc : (setPartsOf secure userinfo host port path query fragment).Consistent := UrlParts.of_consistent _ _ _ _ _ _ _
  have hparts : UrlParts.of (if secure = true then httpsScheme else httpScheme) userinfo host
      (if port = getDefaultPort secure then [] else decimalText port)
      (if path = [] then defaultPath else path) query fragment =
      setPartsOf secure userinfo host port path query fragment := rfl
  unfold setParts
  rw [if_neg hne]
  dsimp only
  rw [hparts]
  simp only [ends_bind, ends_modify, ends_setUrl, assignUrlParts_checked hc]
  constructor
  · rintro ⟨_, s₁, rfl, x, ⟨hv, rfl⟩, rfl⟩
    exact ⟨hv, rfl⟩
  · rintro ⟨hv, rfl⟩
    exact ⟨⟨⟩, _, rfl, _, ⟨hv, rfl⟩, rfl⟩

theorem ends_setParts_nil : Ends (setParts secure userinfo [] port path query fragment) s u a ↔
    a = { s with defaultPort := true, portNumber := 0 } := by
  unfold setParts
  rw [if_pos rfl]
  exact ends_modify

theorem schemeText_ne_nil (secure : Bool) : schemeText secure ≠ [] := by
  cases secure <;> decide

theorem UrlParts.Valid.congr {p q : UrlParts} (h : p.Valid) (hflag : q.scheme = [] →
    q.hasScheme = false) (hs : q.scheme = p.scheme) (hui : q.userinfo = p.userinfo)
    (hhost : q.host = p.host) (hport : q.port = p.port) (hpath : q.path = p.path)
    (hq : q.query = p.query) (hf : q.fragment = p.fragment) : q.Valid where
  scheme := hflag
  schemeChars := by rw [hs]; exact h.schemeChars
  userinfo := by rw [hui]; exact h.userinfo
  hostSize := by rw [hhost]; exact h.hostSize
  host := by rw [hhost]; exact h.host
  labels := by rw [hhost]; exact h.labels
  noHost := by rw [hhost, hui, hport]; exact h.noHost
  port := by rw [hport]; exact h.port
  path := by rw [hpath]; exact h.path
  start := by
    unfold pathStart
    rw [hpath, hhost]
    exact h.start
  query := by rw [hq]; exact h.query
  fragment := by rw [hf]; exact h.fragment

theorem splitResult_assembleUrl {p : UrlParts} (hc : p.Consistent) (hv : p.Valid) (hne : p.scheme ≠ []) :
    ∃ q : ExtendedUrlParts, splitResult (assembleUrl p) = q ∧ q.toUrlParts.Valid ∧
      q.scheme = p.scheme ∧ q.userinfo = p.userinfo ∧
      q.host = p.host ∧ q.port = p.port ∧ q.path = p.path ∧ q.query = p.query ∧ q.fragment = p.fragment := by
  obtain ⟨hasPath, hsplit⟩ := splitUrl_assembleUrl hc hv fun h => hne h.1
  rw [splitUrl_eq] at hsplit
  have hget : ∀ {flag : Bool} {text : Bytes}, (flag = false → text = []) → (present flag text).getD [] = text := by
    intro flag text hflag
    cases flag with
    | true => rfl
    | false => rw [hflag rfl]; rfl
  have hscheme : (present (p.scheme ≠ []) p.scheme).getD [] = p.scheme := getD_present p.scheme
  have hquery : (present p.hasQuery p.query).getD [] = p.query := hget hc.query
  have hfragment : (present p.hasFragment p.fragment).getD [] = p.fragment := hget hc.fragment
  refine ⟨_, Except.ok.inj hsplit, ?_, hscheme, rfl, rfl, rfl, rfl, hquery, hfragment⟩
  refine hv.congr (fun hnil => absurd ?_ hne) hscheme rfl rfl rfl rfl hquery hfragment
  rw [← hscheme]
  exact hnil

theorem readPort_portText (hlt : port < 65536) (hv : isValidChars (portText secure port) portChars = true) :
    readPort secure (portText secure port) = some port := by
  rw [readPort_eq_some hv]
  unfold portText
  by_cases hd : port = getDefaultPort secure
  · rw [if_pos hd, if_pos rfl, hd]
  · have hne : decimalText port ≠ [] := by
      unfold decimalText
      intro h
      have hlen := congrArg List.length h
      rw [List.length_map, length_natText, List.length_nil] at hlen
      omega
    rw [if_neg hd, if_neg hne]
    exact ⟨decimalFrom_natText port, hlt⟩

end UnixCommons.HTTP
