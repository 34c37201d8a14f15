import UnixCommons.HTTP.Lemmas.HttpAddress

/-!
# アドレスの写しの補題

成分が文字列から得られたアドレス `Stored` では、写しの文字列が元に戻る条件が決まる。
-/

namespace UnixCommons.HTTP

open Lib Lib.Uri String.AsciiStringManip String.StrToInt

variable {parts : UrlParts} {a : URLAddress}

theorem adjustParts_cleared (parts : UrlParts) : ∃ authority,
    adjustParts (assembleUrl parts) (hasAuthority parts) (authorityText parts).length ExtendedUrlParts.cleared.toUrlParts =
      .ok { ExtendedUrlParts.cleared with hasPath := true, authority := authority } := by
  have hscheme : adjustScheme (assembleUrl parts) ExtendedUrlParts.cleared.toUrlParts
      ExtendedUrlParts.cleared = .ok (ExtendedUrlParts.cleared, 0) := rfl
  unfold adjustParts
  rw [hscheme, ok_bind]
  dsimp only
  have hpath : ∀ ptr authority, ptr ≤ (assembleUrl parts).length →
      adjustPath (assembleUrl parts) ExtendedUrlParts.cleared.toUrlParts
      { ExtendedUrlParts.cleared with authority := authority } ptr =
        .ok { ExtendedUrlParts.cleared with hasPath := true, authority := authority } := by
    intro ptr authority hle
    have hassign : assignAt (assembleUrl parts) ptr ExtendedUrlParts.cleared.path.length = .ok [] := by
      rw [assignAt, if_pos (by simpa [ExtendedUrlParts.cleared] using hle)]
      simp [ExtendedUrlParts.cleared, pure, Except.pure]
    unfold adjustPath
    rw [hassign]
    rfl
  by_cases ha : hasAuthority parts = true
  · have hlen : 2 + (authorityText parts).length ≤ (assembleUrl parts).length := by
      rw [assembleUrl_eq, Delims.recompose]
      simp [UrlParts.toComponents, present, ha]
      omega
    have hassign : assignAt (assembleUrl parts) (0 + 2) (authorityText parts).length =
        .ok (((assembleUrl parts).drop 2).take (authorityText parts).length) := by
      rw [assignAt, if_pos (by omega)]
      rfl
    have hsize : (((assembleUrl parts).drop 2).take (authorityText parts).length).length = (authorityText parts).length := by
      rw [List.length_take, List.length_drop]
      omega
    refine ⟨((assembleUrl parts).drop 2).take (authorityText parts).length, ?_⟩
    have hauth : adjustAuthority (assembleUrl parts) (hasAuthority parts)
        (authorityText parts).length ExtendedUrlParts.cleared.toUrlParts
        ExtendedUrlParts.cleared 0 =
        .ok ({ ExtendedUrlParts.cleared with authority := ((assembleUrl parts).drop 2).take (authorityText parts).length },
          2 + (authorityText parts).length) := by
      unfold adjustAuthority
      rw [if_pos ha, hassign, ok_bind]
      show Except.ok (_, 0 + 2 + List.length _) = _
      rw [hsize]
    rw [hauth, ok_bind]
    exact hpath _ _ hlen
  · refine ⟨[], ?_⟩
    have hauth : adjustAuthority (assembleUrl parts) (hasAuthority parts)
        (authorityText parts).length ExtendedUrlParts.cleared.toUrlParts
        ExtendedUrlParts.cleared 0 = .ok (ExtendedUrlParts.cleared, 0) := by
      unfold adjustAuthority
      rw [if_neg ha]
      rfl
    rw [hauth, ok_bind]
    exact hpath 0 [] (Nat.zero_le _)

theorem copy_spec (h : a.parts.toUrlParts.Consistent) (way : Copying) : ∃ b, a.copy way = .ok b ∧
    b.url = assembleUrl a.parts.toUrlParts ∧
    b.components = if way = .selfAssign then [[], [], [], [], [], [], []] else a.components := by
  have hplain : assignUrlParts a.parts.toUrlParts false false = .ok ⟨assembleUrl a.parts.toUrlParts,
      adjusted a.parts.toUrlParts⟩ :=
    assignUrlParts_eq h
  cases way with
  | construct => exact ⟨_, hplain, rfl, rfl⟩
  | assign => exact ⟨_, hplain, rfl, rfl⟩
  | selfAssign =>
      obtain ⟨authority, hadj⟩ := adjustParts_cleared a.parts.toUrlParts
      refine ⟨⟨assembleUrl a.parts.toUrlParts,
        { ExtendedUrlParts.cleared with hasPath := true, authority := authority }⟩, ?_, rfl, rfl⟩
      show assignUrlParts a.parts.toUrlParts false true = _
      unfold assignUrlParts
      dsimp only
      rw [if_pos rfl, hadj]
      rfl

/-! ## 文字列から得られた成分 -/

structure Stored (a : URLAddress) : Prop where
  consistent : a.parts.toUrlParts.Consistent
  scheme : present (a.parts.scheme ≠ []) a.parts.scheme = (urlComponents a.url).scheme
  authority : AuthoritySplit ((urlComponents a.url).authority.getD []) a.parts.userinfo a.parts.host a.parts.port
  path : a.parts.path = (urlComponents a.url).path ∨ (urlComponents a.url).path = [] ∧ a.parts.path = defaultPath
  query : present a.parts.hasQuery a.parts.query = (urlComponents a.url).query
  fragment : present a.parts.hasFragment a.parts.fragment = (urlComponents a.url).fragment

def KeepsSeparators (authority : Bytes) : Prop :=
  authority ≠ [] ∧ authority.head? ≠ some (ascii '@') ∧ authority.getLast? ≠ some (ascii ':')

theorem hasAuthority_eq (hc : parts.Consistent) : hasAuthority parts = decide
    (¬ (parts.userinfo = [] ∧ parts.host = [] ∧ parts.port = [])) := by
  rw [hasAuthority, hc.userinfo, hc.port]
  by_cases h₁ : parts.userinfo = [] <;> by_cases h₂ : parts.host = [] <;> by_cases h₃ : parts.port = [] <;> simp [h₁, h₂, h₃]

theorem authorityText_of_keeps {x : Bytes} (hc : parts.Consistent)
    (hs : AuthoritySplit x parts.userinfo parts.host parts.port)
    (hk : KeepsSeparators x) : hasAuthority parts = true ∧ authorityText parts = x := by
  obtain ⟨hne, hhead, hlast⟩ := hk
  obtain ⟨rest, hui, hport⟩ := hs
  have hrest : (parts.host ++ if parts.port = [] then [] else ascii ':' :: parts.port) = rest := by
    rcases hport with ⟨he, -⟩ | ⟨-, he, hp⟩
    · have hp : parts.port ≠ [] := by
        intro hp
        rw [hp] at he
        apply hlast
        rcases hui with ⟨hx, -⟩ | ⟨-, -, hx⟩
        · rw [hx, he, ← List.cons_append, ← List.append_assoc, List.getLast?_append]
          rfl
        · rw [← hx, he, List.getLast?_append]
          rfl
      rw [if_neg hp, he]
    · rw [if_pos hp, he, List.append_nil]
  have htext : authorityText parts = x := by
    rw [authorityText_eq hc, hrest]
    rcases hui with ⟨hx, -⟩ | ⟨-, hu, hx⟩
    · have hu : parts.userinfo ≠ [] := by
        intro hu
        rw [hu] at hx
        exact hhead (by rw [hx]; rfl)
      rw [if_neg hu, hx, List.append_assoc, List.singleton_append]
    · rw [if_pos hu, hx, List.nil_append]
  refine ⟨?_, htext⟩
  rw [hasAuthority_eq hc, decide_eq_true_iff]
  rintro ⟨h₁, h₂, h₃⟩
  rw [authorityText_eq hc, h₁, h₂, h₃] at htext
  exact hne htext.symm

theorem keeps_of_authorityText {x : Bytes} (hc : parts.Consistent)
    (hs : AuthoritySplit x parts.userinfo parts.host parts.port)
    (ha : hasAuthority parts = true) (htext : authorityText parts = x) : KeepsSeparators x := by
  have hlen := congrArg List.length htext
  rw [authorityText_eq hc, List.length_append, List.length_append] at hlen
  obtain ⟨rest, hui, hport⟩ := hs
  have hrest : (parts.host ++ if parts.port = [] then [] else ascii ':' :: parts.port).length ≤ rest.length := by
    rcases hport with ⟨he, -⟩ | ⟨-, he, hp⟩
    · rw [he]
      split <;> simp
    · rw [he, if_pos hp, List.append_nil]
  rw [List.length_append] at hrest
  refine ⟨?_, ?_, ?_⟩
  · rintro rfl
    rw [hasAuthority_eq hc, decide_eq_true_iff] at ha
    rw [authorityText_eq hc] at htext
    simp only [List.append_eq_nil_iff] at htext
    refine ha ⟨?_, htext.2.1, ?_⟩
    · by_contra hne
      rw [if_neg hne] at htext
      simp at htext
    · by_contra hne
      rw [if_neg hne] at htext
      simp at htext
  · intro hhead
    rcases hui with ⟨hx, hn⟩ | ⟨hn, -, -⟩
    · -- 先頭の `@` が最初の `@` なので、利用者は空である。
      have hu : parts.userinfo = [] := by
        cases hu : parts.userinfo with
        | nil => rfl
        | cons b t =>
            rw [hx, hu] at hhead
            rw [hu] at hn
            exact absurd (by rw [Option.some.inj hhead]; exact List.mem_cons_self) hn
      rw [hx, hu, if_pos rfl] at hlen
      simp only [List.nil_append, List.length_cons, List.length_nil] at hlen
      omega
    · refine hn (List.mem_of_mem_head? hhead)
  · intro hlast
    have hrl : rest.getLast? = some (ascii ':') := by
      rcases hui with ⟨hx, -⟩ | ⟨-, -, hx⟩
      · cases hr : rest with
        | nil =>
            rw [hx, hr, List.getLast?_append] at hlast
            exact absurd (Option.some.inj hlast) (by decide)
        | cons b t =>
            rw [hx, hr, List.getLast?_append, List.getLast?_cons_cons, List.getLast?_cons] at hlast
            rw [List.getLast?_cons]
            exact hlast
      · rw [hx, hlast]
    rcases hport with ⟨he, hn⟩ | ⟨hn, -, -⟩
    · -- 終わりの `:` が最後の `:` なので、ポートは空である。
      have hp : parts.port = [] := by
        cases hp : parts.port with
        | nil => rfl
        | cons b t =>
            rw [he, hp, List.getLast?_append, List.getLast?_cons_cons, List.getLast?_cons] at hrl
            rw [hp] at hn
            refine absurd (List.mem_of_getLast? ?_) hn
            rw [List.getLast?_cons]
            exact hrl
      have hr : rest.length = parts.host.length + 1 := by
        rw [he, hp]
        simp
      rw [if_pos hp, List.length_nil] at hlen
      rcases hui with ⟨hx, -⟩ | ⟨-, hu, hx⟩
      · have hle : (if parts.userinfo = [] then [] else parts.userinfo ++ [ascii '@']).length ≤
            parts.userinfo.length + 1 := by
          split <;> simp
        rw [hx, List.length_append, List.length_cons] at hlen
        omega
      · rw [if_pos hu, List.length_nil, ← hx] at hlen
        omega
    · exact hn (List.mem_of_getLast? hrl)

theorem assembleUrl_eq_url_iff (h : Stored a) : assembleUrl a.parts.toUrlParts = a.url ↔
    (∀ x ∈ (urlComponents a.url).authority, KeepsSeparators x) ∧ a.parts.path = (urlComponents a.url).path := by
  have hmem := urlComponents_authority a.url
  have hurl := recompose_urlComponents a.url
  obtain ⟨hc, hscheme, hauth, hpath, hquery, hfragment⟩ := h
  generalize urlComponents a.url = c at *
  obtain ⟨scheme, authority, path, query, fragment⟩ := c
  have hcomp : a.parts.toUrlParts.toComponents =
      ⟨scheme, present (hasAuthority a.parts.toUrlParts) (authorityText a.parts.toUrlParts),
      a.parts.path, query, fragment⟩ := by
    rw [UrlParts.toComponents, hscheme, hquery, hfragment]
  rw [assembleUrl_eq, hcomp, ← hurl]
  dsimp only at *
  constructor
  · intro heq
    simp only [Delims.recompose, List.append_cancel_left_eq] at heq
    generalize query.elim [] (delims.question :: ·) ++ fragment.elim [] (delims.hash :: ·) = rest at heq
    rw [← List.append_assoc, ← List.append_assoc, List.append_cancel_right_eq] at heq
    have hp : a.parts.path = path := by
      rcases hpath with hp | ⟨hp, hd⟩
      · exact hp
      · -- 補った `/` は、権限の中にはない。
        exfalso
        rw [hp, hd, List.append_nil] at heq
        cases authority with
        | none => simp [defaultPath] at heq
        | some x =>
            have hlast := congrArg List.getLast? heq
            rw [defaultPath, List.getLast?_append, Option.elim_some] at hlast
            cases x with
            | nil =>
                have hlen := congrArg List.length heq
                cases ha : hasAuthority a.parts.toUrlParts <;> simp [present, defaultPath, ha] at hlen
            | cons b t =>
                rw [List.getLast?_cons_cons, List.getLast?_cons_cons] at hlast
                have := hmem _ rfl _ (List.mem_of_getLast? hlast.symm)
                exact absurd this (by decide)
    refine ⟨?_, hp⟩
    rw [hp, List.append_cancel_right_eq] at heq
    rintro x rfl
    cases ha : hasAuthority a.parts.toUrlParts with
    | false => simp [present, ha] at heq
    | true =>
        refine keeps_of_authorityText hc hauth ha ?_
        simpa [present, ha] using heq
  · rintro ⟨hkeep, hp⟩
    have hsame : present (hasAuthority a.parts.toUrlParts) (authorityText a.parts.toUrlParts) = authority := by
      cases authority with
      | some x =>
          obtain ⟨ha, ht⟩ := authorityText_of_keeps hc hauth (hkeep x rfl)
          rw [ha, ht]
          rfl
      | none =>
          have hnil : AuthoritySplit [] [] [] [] := ⟨[], .inr ⟨by simp, rfl, rfl⟩, .inr ⟨by simp, rfl, rfl⟩⟩
          obtain ⟨h₁, h₂, h₃⟩ := AuthoritySplit.unique hauth hnil
          rw [hasAuthority_eq hc]
          simp [h₁, h₂, h₃, present]
    rw [hsame, hp]

/-! ## 構築したアドレス -/

theorem stored_split {url : Bytes} (hv : (splitResult url).toUrlParts.Valid) : Stored ⟨url, splitResult url⟩ := by
  obtain ⟨hasPath, userinfo, host, port, he, hsplit⟩ := splitResult_eq url
  have hpresent : ∀ x : Option Bytes, present x.isSome (x.getD []) = x := by
    intro x
    cases x <;> rfl
  refine ⟨splitResult_consistent url, ?_, ?_, ?_, ?_, ?_⟩
  · have hs := hv.scheme
    rw [he] at hs ⊢
    show present ((urlComponents url).scheme.getD [] ≠ []) ((urlComponents url).scheme.getD []) = _
    cases hc : (urlComponents url).scheme with
    | none => rfl
    | some x =>
        have hne : x ≠ [] := by
          rintro rfl
          have hflag : (urlComponents url).scheme.isSome = false :=
            hs (by show (urlComponents url).scheme.getD [] = []; rw [hc]; rfl)
          rw [hc] at hflag
          cases hflag
        simp [present, hne]
  · rw [he]
    exact hsplit
  · rw [he]
    exact .inl rfl
  · rw [he]
    exact hpresent _
  · rw [he]
    exact hpresent _

theorem stored_empty : Stored URLAddress.empty where
  consistent := ⟨rfl, rfl, fun _ => rfl, fun _ => rfl⟩
  scheme := rfl
  authority := ⟨[], .inr ⟨List.not_mem_nil, rfl, rfl⟩, .inr ⟨List.not_mem_nil, rfl, rfl⟩⟩
  path := .inl rfl
  query := rfl
  fragment := rfl

theorem stored_assembled {x : URLAddress} (hc : x.parts.toUrlParts.Consistent)
    (hv : x.parts.toUrlParts.Valid) (hhost : x.parts.host ≠ [])
    (hurl : x.url = assembleUrl x.parts.toUrlParts) : Stored x := by
  have hcomp : urlComponents x.url = x.parts.toComponents := by
    rw [hurl]
    exact urlComponents_assembleUrl hc hv fun h => hhost h.2.1
  refine ⟨hc, ?_, ?_, ?_, ?_, ?_⟩
  all_goals rw [hcomp]
  · rfl
  · exact toComponents_split hc hv
  · exact .inl rfl
  · rfl
  · rfl

theorem Stored.withDefaultPath {x : URLAddress} (h : Stored x) : Stored ⟨x.url, HTTP.withDefaultPath x.parts⟩ := by
  unfold HTTP.withDefaultPath
  split
  next hp =>
      have hnil : (urlComponents x.url).path = [] := by
        rcases h.path with h₁ | ⟨h₁, -⟩
        · rw [← h₁, hp]
        · exact h₁
      exact ⟨⟨h.consistent.userinfo, h.consistent.port, h.consistent.query, h.consistent.fragment⟩,
        h.scheme, h.authority, .inr ⟨hnil, rfl⟩, h.query, h.fragment⟩
  next => exact h

theorem adjusted_consistent (h : parts.Consistent) : (adjusted parts).toUrlParts.Consistent :=
  ⟨h.userinfo, h.port, h.query, h.fragment⟩

theorem prepared_cases {lowerAndNormalize : List Nat → Bool → Option (List Nat)}
    {kind : AddressClass} (strict : Bool) {url host : Bytes}
    (h : HostOf lowerAndNormalize kind url (splitResult url).host host) :
    (∃ p : UrlParts, p.Consistent ∧ p.host = host ∧ prepared kind strict url host = ⟨assembleUrl p, adjusted p⟩) ∨
      prepared kind strict url host = ⟨url, splitResult url⟩ ∧ host = (splitResult url).host := by
  have hc : (URLAddress.withHost ⟨url, splitResult url⟩ host).parts.toUrlParts.Consistent :=
    have h := splitResult_consistent url
    ⟨h.userinfo, h.port, h.query, h.fragment⟩
  have hhost : (fixedParts strict (URLAddress.withHost ⟨url, splitResult url⟩ host).parts.toUrlParts).1.host = host := by
    unfold fixedParts
    split <;> rfl
  unfold prepared rebuilt
  dsimp only
  split
  next => exact .inl ⟨_, fixedParts_consistent strict hc, hhost, rfl⟩
  next hr =>
      right
      cases kind with
      | http =>
          obtain rfl : host = (splitResult url).host := h
          exact ⟨rfl, rfl⟩
      | browser => simp at hr

theorem stored_of_accepted {lowerAndNormalize : List Nat → Bool → Option (List Nat)}
    {kind : AddressClass} {strict : Bool} {value : Bytes}
    {x : URLAddress} (h : Accepted lowerAndNormalize kind strict value x) : Stored x := by
  obtain ⟨host, hhost, hweb, rfl, hv⟩ := h
  rcases prepared_cases strict hhost with ⟨p, hc, hph, he⟩ | ⟨he, -⟩
  · rw [he] at hv ⊢
    refine stored_assembled (adjusted_consistent hc) hv ?_ rfl
    show p.host ≠ []
    rw [hph]
    exact hweb.2
  · rw [he] at hv ⊢
    exact stored_split hv

theorem stored_of_ofUrl {lowerAndNormalize : List Nat → Bool → Option (List Nat)}
    {kind : AddressClass} {value : Bytes} {b : HTTPAddress}
    (h : HTTPAddress.ofUrl lowerAndNormalize kind value = .ok b) : Stored b.toURLAddress := by
  rw [HTTPAddress.ofUrl] at h
  split at h
  · obtain rfl := Except.ok.inj h
    exact stored_empty
  · obtain ⟨-, x, n, hx, -, rfl⟩ := ends_assign.mp (constructed_eq_ok.mp h)
    exact (stored_of_accepted hx).withDefaultPath

theorem stored_of_urlOfUrl {value : Bytes} (h : URLAddress.ofUrl value = .ok a) : Stored a := by
  rw [URLAddress.ofUrl] at h
  by_cases hne : value = []
  · have hempty : a = URLAddress.empty := by
      rw [urlWithoutCheck, if_pos hne] at h
      have hchk : urlPartsChecker URLAddress.empty.url URLAddress.empty.parts.toUrlParts = .ok () := by decide
      simp only [pure, Except.pure, ok_bind, hchk, orInvalid, Except.mapError] at h
      exact (Except.ok.inj h).symm
    rw [hempty]
    exact stored_empty
  · rw [urlWithoutCheck_eq hne, ok_bind] at h
    cases hchk : urlPartsChecker value (splitResult value).toUrlParts with
    | error e => simp [hchk, orInvalid, Except.mapError] at h
    | ok u =>
        simp only [hchk, orInvalid, Except.mapError, ok_bind, pure, Except.pure] at h
        rw [← Except.ok.inj h]
        exact stored_split (urlPartsChecker_iff.mp hchk)

end UnixCommons.HTTP
