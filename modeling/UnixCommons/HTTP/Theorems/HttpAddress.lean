import UnixCommons.HTTP.Lemmas.FailedAssign
import UnixCommons.HTTP.Lemmas.FixPart
import UnixCommons.HTTP.Lemmas.NormalizeAddress
import UnixCommons.HTTP.Theorems.HttpPort

/-!
# HTTP のアドレスの定理
-/

namespace UnixCommons.HTTP

open Lib Lib.Uri String.AsciiStringManip String.StrToInt

/-! ## 成分を直すことの定理 -/

/-- 直した経路、問い合わせ、断片は検査を通る。直した利用者は、最初の正しくない文字の後に括弧などの文字がない時、しかもその時に限って、検査を通る。 -/
theorem http_fix_part_iff (url : Bytes) : ∃ parts, splitUrl url = .ok parts ∧ FixSound parts.path pathChars ∧
    FixSound parts.query queryChars ∧ FixSound parts.fragment fragmentChars ∧
    (FixSound parts.userinfo userInfo ↔ ∀ b ∈ (findInvalid userInfo parts.userinfo).tail, b ∉ braces) := by
  refine ⟨splitResult url, splitUrl_eq url, ?_, ?_, ?_, ?_⟩
  · exact (fixSound_iff _ checker_path).mpr (keepsChecker_path url)
  · exact (fixSound_iff _ checker_query).mpr fun _ _ hown => hown
  · exact (fixSound_iff _ checker_fragment).mpr fun _ _ hown => hown
  · rw [fixSound_iff _ checker_userInfo, keepsChecker_userinfo_iff]

/-- `//[[@h/` の利用者は、二つ目の `[` が残る。 -/
theorem http_fix_part_brackets :
    ¬ ∀ url parts, splitUrl url = .ok parts → FixSound parts.userinfo userInfo := by
  intro h
  have hsound := h (List.map ascii ['/', '/', '[', '[', '@', 'h', '/'])
    ⟨⟨false, [], true, List.map ascii ['[', '['], true, [ascii 'h'], false, [], true, [ascii '/'], false, [], false, []⟩,
      List.map ascii ['[', '[', '@', 'h']⟩ (by decide)
  exact absurd hsound.valid (by decide)

/-! ## 失敗した代入の定理 -/

section

variable {lowerAndNormalize : List Nat → Bool → Option (List Nat)} {s a : HTTPAddress} {value : Bytes}

def Construction.Sound : Construction → Prop
  | .url _ _ => True
  | .parts _ _ _ _ _ _ _ _ => True
  | .copy way c => way ≠ .selfAssign ∧ c.Sound
  | .assign c _ => c.Sound

theorem valid_withDefaultPath {parts : ExtendedUrlParts} (hv : parts.toUrlParts.Valid)
    (hhost : parts.host ≠ []) : (withDefaultPath parts).toUrlParts.Valid := by
  obtain ⟨hpath, rest, hstart⟩ := withDefaultPath_path hv hhost
  unfold withDefaultPath at hpath hstart ⊢
  split at hstart
  next hnil =>
      rw [if_pos hnil] at hpath ⊢
      exact { hv with path := hpath, start := fun _ => by simp [pathStart, hhost, defaultPath] }
  next hne =>
      rw [if_neg hne]
      exact hv

theorem withDefaultPath_same (parts : ExtendedUrlParts) :
    (withDefaultPath parts).scheme = parts.scheme ∧ (withDefaultPath parts).host = parts.host ∧
    (withDefaultPath parts).port = parts.port := by
  unfold withDefaultPath
  split <;> exact ⟨rfl, rfl, rfl⟩

theorem prepared_host {kind : AddressClass} (strict : Bool) {url host : Bytes}
    (h : HostOf lowerAndNormalize kind url (splitResult url).host host) :
    (prepared kind strict url host).parts.host = host := by
  rcases prepared_cases strict h with ⟨p, -, hp, heq⟩ | ⟨heq, hp⟩
  · rw [heq]
    exact hp
  · rw [heq]
    exact hp.symm

theorem usable_assign (h : Ends (assign lowerAndNormalize value) s () a) : Usable a := by
  obtain ⟨-, x, n, hx, hread, rfl⟩ := ends_assign.mp h
  have hstored := stored_of_accepted hx
  obtain ⟨host, hhost, hweb, rfl, hv⟩ := hx
  have hscheme := (prepared_scheme s.kind s.strict (target s.strict value) host).1
  have hname := prepared_host s.strict hhost
  obtain ⟨hs, hh, hp⟩ := withDefaultPath_same (prepared s.kind s.strict (target s.strict value) host).parts
  refine .checked ?_ (valid_withDefaultPath hv ?_) hstored.withDefaultPath ?_
  · show WebParts s.strict (withDefaultPath _).scheme (withDefaultPath _).host
    rw [hs, hh, hscheme, hname]
    exact hweb
  · rw [hname]
    exact hweb.2
  · show readPort (caselessEqual _ httpsScheme) (withDefaultPath _).port ≠ none
    rw [hp, hread]
    exact Option.some_ne_none n

theorem usable_setParts {secure : Bool} {userinfo host path query fragment : Bytes} {port : Nat}
    (hne : host ≠ []) (hport : port < 65536)
    (h : Ends (setParts secure userinfo host port path query fragment) s () a) : Usable a := by
  obtain ⟨hv, rfl⟩ := (ends_setParts hne).mp h
  have hc : (setPartsOf secure userinfo host port path query fragment).Consistent := UrlParts.of_consistent _ _ _ _ _ _ _
  have hscheme : caselessEqual (schemeText secure) httpScheme = true ∨
      caselessEqual (schemeText secure) httpsScheme = true := by
    cases secure <;> decide
  have hadjusted : (adjusted (setPartsOf secure userinfo host port path query fragment)).toUrlParts.Valid :=
    hv.congr (fun hnil => decide_eq_false (not_not.mpr hnil)) rfl rfl rfl rfl rfl rfl rfl
  refine .checked ⟨?_, hne⟩ hadjusted (stored_assembled (adjusted_consistent hc) hadjusted hne rfl) ?_
  · exact hscheme.elim .inl fun h => .inr (.inl h)
  · show readPort secure (portText secure port) ≠ none
    rw [readPort_portText hport hv.port]
    exact Option.some_ne_none port

theorem usable_copy {way : Copying} (hu : Usable s) (hway : way ≠ .selfAssign) (h : s.copy way = .ok a) : Usable a := by
  have hcopy : ∀ hc : s.parts.toUrlParts.Consistent,
      a = { s with toURLAddress := ⟨assembleUrl s.parts.toUrlParts, adjusted s.parts.toUrlParts⟩ } := by
    intro hc
    have haliased : decide (way = .selfAssign) = false := decide_eq_false hway
    rw [HTTPAddress.copy, URLAddress.copy, haliased, assignUrlParts_eq hc] at h
    exact (Except.ok.inj h).symm
  cases hu with
  | empty _ hc htext =>
      rw [hcopy hc]
      exact .empty htext (adjusted_consistent hc) htext
  | checked hweb hv hs hread =>
      rw [hcopy hs.consistent]
      have hadjusted : (adjusted s.parts.toUrlParts).toUrlParts.Valid :=
        hv.congr (fun hnil => decide_eq_false (not_not.mpr hnil)) rfl rfl rfl rfl rfl rfl rfl
      exact .checked hweb hadjusted (stored_assembled (adjusted_consistent hs.consistent) hadjusted hweb.2 rfl) hread

theorem usable_initial (kind : AddressClass) (strict : Bool) : Usable (HTTPAddress.initial kind strict) :=
  .empty rfl ⟨rfl, rfl, fun _ => rfl, fun _ => rfl⟩ rfl

theorem usable_build {c : Construction} (hc : c.Sound) (h : c.build lowerAndNormalize = .ok a) : Usable a := by
  induction c generalizing a with
  | url kind value =>
      rw [Construction.build, HTTPAddress.ofUrl] at h
      split at h
      · obtain rfl := Except.ok.inj h
        exact usable_initial _ _
      · exact usable_assign (constructed_eq_ok.mp h)
  | parts kind host path query fragment port secure userinfo =>
      have hport : (if port ≠ 0 then port.toNat else getDefaultPort secure) < 65536 := by
        have hlt := port.toNat_lt
        split
        · omega
        · cases secure <;> decide
      cases kind with
      | http =>
          rw [Construction.build, HTTPAddress.ofParts] at h
          by_cases hne : host = []
          · subst hne
            rw [ends_setParts_nil.mp (constructed_eq_ok.mp h)]
            exact .empty rfl ⟨rfl, rfl, fun _ => rfl, fun _ => rfl⟩ rfl
          · exact usable_setParts hne hport (constructed_eq_ok.mp h)
      | browser =>
          rw [Construction.build, HTTPAddress.ofParts] at h
          obtain ⟨fixed, s₁, h₁, h₂⟩ := ends_bind.mp (constructed_eq_ok.mp h)
          obtain ⟨hosts, hn, rfl, rfl⟩ := ends_processHost.mp h₁
          exact usable_setParts (idnaNormalizeHost_ne_nil (stop_mapError.mp hn)) hport h₂
  | copy way c ih =>
      rw [Construction.build] at h
      obtain ⟨b, hb, h⟩ := bind_eq_ok.mp h
      exact usable_copy (ih hc.2 hb) hc.1 h
  | assign c value ih =>
      rw [Construction.build] at h
      obtain ⟨b, hb, h⟩ := bind_eq_ok.mp h
      exact usable_assign (constructed_eq_ok.mp h)

/-- 失敗した代入がアドレスを変えないのは、文字列が空の時と、同じ文字列を分けてホストの正規化に失敗する時だけである。 -/
theorem failed_assign_intact_iff {c : Construction} (hc : c.Sound) (hbuild : c.build lowerAndNormalize = .ok s) {e : Error}
    (he : e.isInvalidUrl = true) (h : (assign lowerAndNormalize value).run.run s = (.error e, a)) :
    Intact s a ↔ value = [] ∨ Retries lowerAndNormalize s value := by
  have hu := usable_build hc hbuild
  by_cases hne : value = []
  · subst hne
    refine iff_of_true ?_ (.inl rfl)
    cases h
    exact ⟨rfl, rfl, rfl, rfl, rfl⟩
  · have hleft := left_of_assign hne h
    constructor
    · exact fun hi => .inr (retries_of_intact hu hne hleft he hi)
    · rintro (hnil | hr)
      · exact absurd hnil hne
      · exact intact_of_retries hleft hr

theorem failed_assign_intact_unprotocolled :
    let url := List.map ascii ['h', 't', 't', 'p', ':', '/', '/', 'h']
    ∃ s a e, HTTPAddress.ofUrl (fun _ _ => none) .http url = .ok s ∧
      (assign (fun _ _ => none) [ascii 'x']).run.run s = (.error e, a) ∧ e.isInvalidUrl = true ∧
      (Intact s a ↔ [ascii 'x'] = [] ∨ Retries (fun _ _ => none) s [ascii 'x']) := by
  have hbuild : HTTPAddress.ofUrl (fun _ _ => none) .http
      (List.map ascii ['h', 't', 't', 'p', ':', '/', '/', 'h']) =
      .ok ⟨⟨List.map ascii ['h', 't', 't', 'p', ':', '/', '/', 'h'],
        ⟨⟨true, httpScheme, false, [], true, [ascii 'h'], false, [], false, defaultPath, false, [],
          false, []⟩, [ascii 'h']⟩⟩, .http, true, 80, false, true⟩ := by decide
  refine ⟨_, _, _, hbuild, rfl, rfl, ?_⟩
  exact failed_assign_intact_iff
    (c := .url .http (List.map ascii ['h', 't', 't', 'p', ':', '/', '/', 'h'])) trivial hbuild rfl rfl

/-- `http://h` に `x` を代入すると、失敗して、文字列は `x` になる。 -/
theorem failed_assign_overwrites :
    let url := List.map ascii ['h', 't', 't', 'p', ':', '/', '/', 'h']
    ∃ s a e, HTTPAddress.ofUrl (fun _ _ => none) .http url = .ok s ∧
      (assign (fun _ _ => none) [ascii 'x']).run.run s = (.error e, a) ∧
      e.isInvalidUrl = true ∧ ¬ Intact s a := by
  refine ⟨⟨⟨List.map ascii ['h', 't', 't', 'p', ':', '/', '/', 'h'],
      ⟨⟨true, httpScheme, false, [], true, [ascii 'h'], false, [], false, defaultPath, false, [],
      false, []⟩, [ascii 'h']⟩⟩, .http, true, 80, false, true⟩,
    ⟨⟨[ascii 'x'], ⟨⟨false, [], false, [], false, [], false, [], true, [ascii 'x'], false, [],
      false, []⟩, []⟩⟩, .http, true, 80, false, true⟩,
    .invalid ⟨"unexpected protocol in url", [ascii 'x']⟩, by decide, rfl, rfl, ?_⟩
  intro hi
  exact absurd hi.url (by decide)

end

end UnixCommons.HTTP
