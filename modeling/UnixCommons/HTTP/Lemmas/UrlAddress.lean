import UnixCommons.HTTP.UrlAddress
import UnixCommons.HTTP.Lemmas.UrlChecker

/-! # URL の組み立ての補題 -/

namespace UnixCommons.HTTP

open Lib Lib.Uri String.AsciiStringManip

variable {parts : UrlParts}

/-! ## 組み立て -/

def present (flag : Bool) (text : Bytes) : Option Bytes := if flag then some text else none

theorem getD_present (text : Bytes) : (present (text ≠ []) text).getD [] = text := by
  by_cases ht : text = [] <;> simp [present, ht]

def UrlParts.toComponents (parts : UrlParts) : Components UInt8 where
  scheme := present (parts.scheme ≠ []) parts.scheme
  authority := present (hasAuthority parts) (authorityText parts)
  path := parts.path
  query := present parts.hasQuery parts.query
  fragment := present parts.hasFragment parts.fragment

theorem assembleUrl_eq (parts : UrlParts) : assembleUrl parts = delims.recompose parts.toComponents := by
  simp only [assembleUrl, Delims.recompose, UrlParts.toComponents, present, delims]
  split_ifs <;> simp_all

structure UrlParts.Consistent (parts : UrlParts) : Prop where
  userinfo : parts.hasUserinfo = decide (parts.userinfo ≠ [])
  port : parts.hasPort = decide (parts.port ≠ [])
  query : parts.hasQuery = false → parts.query = []
  fragment : parts.hasFragment = false → parts.fragment = []

theorem UrlParts.of_consistent (scheme userinfo host port path query fragment : Bytes) :
    (UrlParts.of scheme userinfo host port path query fragment).Consistent :=
  ⟨rfl, rfl, by simp [UrlParts.of], by simp [UrlParts.of]⟩

theorem withAuthority_consistent (c : Components UInt8) (hasPath : Bool) (userinfo host port : Bytes) :
    (withAuthority (ofComponents c hasPath) userinfo host port).toUrlParts.Consistent := by
  refine ⟨rfl, rfl, ?_, ?_⟩
  · show c.query.isSome = false → c.query.getD [] = []
    cases c.query <;> simp
  · show c.fragment.isSome = false → c.fragment.getD [] = []
    cases c.fragment <;> simp

/-! ## 作り直し -/

theorem assignAt_mid (before text after : Bytes) :
    assignAt (before ++ (text ++ after)) before.length text.length = .ok text := by
  rw [assignAt, if_pos (by simp), List.drop_left, List.take_left]
  rfl

theorem substr_mid (before text after : Bytes) :
    substr (before ++ (text ++ after)) before.length text.length = .ok text := by
  have hmin : min text.length ((before ++ (text ++ after)).length - before.length) = text.length := by simp
  rw [substr_eq (by simp), hmin, List.drop_left, List.take_left]

def adjusted (parts : UrlParts) : ExtendedUrlParts where
  toUrlParts := ⟨parts.scheme ≠ [], parts.scheme, parts.hasUserinfo, parts.userinfo,
    parts.host ≠ [], parts.host, parts.hasPort,
    parts.port, true, parts.path, parts.hasQuery, parts.query, parts.hasFragment, parts.fragment⟩
  authority := if hasAuthority parts then authorityText parts else []

theorem adjustScheme_eq (parts : UrlParts) (rest : Bytes) :
    adjustScheme (parts.toComponents.scheme.elim [] (· ++ [ascii ':']) ++ rest) parts ExtendedUrlParts.cleared =
      .ok ({ ExtendedUrlParts.cleared with hasScheme := parts.scheme ≠ [], scheme := parts.scheme },
        (parts.toComponents.scheme.elim [] (· ++ [ascii ':'])).length) := by
  unfold adjustScheme
  by_cases hs : parts.scheme = []
  · simp [hs, UrlParts.toComponents, present, ExtendedUrlParts.cleared, pure, Except.pure]
  · have hassign := assignAt_mid [] parts.scheme (ascii ':' :: rest)
    rw [List.nil_append, List.length_nil] at hassign
    simp [hs, UrlParts.toComponents, present, hassign, pure, Except.pure]

theorem adjustHost_eq {p : ExtendedUrlParts} (h : parts.Consistent)
    (hp : p.authority = authorityText parts) (hclear : p.hasUserinfo = false ∧ p.userinfo = [] ∧
    p.hasHost = false ∧ p.host = [] ∧ p.hasPort = false ∧ p.port = []) : adjustHost parts p = .ok
      { p with hasUserinfo := parts.hasUserinfo, userinfo := parts.userinfo, hasHost := parts.host ≠ [],
                                       host := parts.host, hasPort := parts.hasPort, port := parts.port } := by
  obtain ⟨hui, hport, -, -⟩ := h
  obtain ⟨c₁, c₂, c₃, c₄, c₅, c₆⟩ := hclear
  have htext : authorityText parts =
      (if parts.userinfo ≠ [] then parts.userinfo ++ [ascii '@'] else []) ++
      (parts.host ++ if parts.port ≠ [] then ascii ':' :: parts.port else []) := by
    simp only [authorityText, hui, hport, decide_eq_true_eq]
    split_ifs <;> simp
  have h₁ : parts.userinfo ≠ [] → substr (authorityText parts) 0 parts.userinfo.length = .ok parts.userinfo := by
    intro hne
    rw [htext, if_pos hne, List.append_assoc]
    exact substr_mid [] parts.userinfo _
  have h₂ : substr (authorityText parts) (if parts.userinfo ≠ [] then parts.userinfo.length +
      1 else 0) parts.host.length = .ok parts.host := by
    rw [htext]
    by_cases hne : parts.userinfo ≠ []
    · have hmid := substr_mid (parts.userinfo ++ [ascii '@']) parts.host
          (if parts.port ≠ [] then ascii ':' :: parts.port else [])
      rw [if_pos hne, if_pos hne]
      rwa [List.length_append, List.length_singleton] at hmid
    · rw [if_neg hne, if_neg hne]
      exact substr_mid [] parts.host _
  have h₃ : parts.port ≠ [] → parts.port.length ≤ (authorityText parts).length ∧
      substr (authorityText parts) ((authorityText parts).length - parts.port.length)
      parts.port.length = .ok parts.port := by
    intro hne
    obtain ⟨before, hb⟩ : ∃ before, authorityText parts = before ++ (parts.port ++ []) := by
      rw [htext, if_pos hne]
      exact ⟨(if parts.userinfo ≠ [] then parts.userinfo ++ [ascii '@'] else []) ++ (parts.host ++ [ascii ':']), by simp⟩
    have hlen : (authorityText parts).length - parts.port.length = before.length := by
      rw [hb, List.append_nil, List.length_append, Nat.add_sub_cancel]
    refine ⟨by rw [hb]; simp, ?_⟩
    rw [hlen, hb]
    exact substr_mid before parts.port []
  clear htext
  obtain ⟨⟨_, _, _, _, _, _, _, _, _, _, _, _, _, _⟩, _⟩ := p
  dsimp only at hp c₁ c₂ c₃ c₄ c₅ c₆
  subst hp c₁ c₂ c₃ c₄ c₅ c₆
  unfold adjustHost
  rw [hui, hport]
  by_cases hu : parts.userinfo = [] <;> by_cases hh : parts.host = [] <;>
    by_cases hpo : parts.port = [] <;> simp_all [pure, Except.pure, difference_eq]

theorem adjustAuthority_eq {p : ExtendedUrlParts} (h : parts.Consistent) (hauth : p.authority = [])
    (hclear : p.hasUserinfo = false ∧ p.userinfo = [] ∧ p.hasHost = false ∧ p.host = [] ∧
    p.hasPort = false ∧ p.port = []) (before rest : Bytes) :
    adjustAuthority
      (before ++ (parts.toComponents.authority.elim [] (ascii '/' :: ascii '/' :: ·) ++ rest)) (hasAuthority parts)
        (authorityText parts).length parts p before.length =
      .ok ({ p with hasUserinfo := parts.hasUserinfo, userinfo := parts.userinfo, hasHost :=
      parts.host ≠ [], host := parts.host,
                    hasPort := parts.hasPort, port := parts.port, authority :=
        if hasAuthority parts then authorityText parts else [] },
        (before ++ parts.toComponents.authority.elim [] (ascii '/' :: ascii '/' :: ·)).length) := by
  unfold adjustAuthority
  by_cases ha : hasAuthority parts = true
  · have helim : parts.toComponents.authority.elim [] (ascii '/' :: ascii '/' :: ·) =
        ascii '/' :: ascii '/' :: authorityText parts := by
      simp [UrlParts.toComponents, present, ha]
    have hassign : assignAt (before ++ (ascii '/' :: ascii '/' :: authorityText parts ++ rest))
        (before.length + 2) (authorityText parts).length = .ok (authorityText parts) := by
      have hmid := assignAt_mid (before ++ [ascii '/', ascii '/']) (authorityText parts) rest
      rw [List.append_assoc, List.length_append] at hmid
      exact hmid
    have hhost := adjustHost_eq (p := { p with authority := authorityText parts }) h rfl hclear
    rw [if_pos ha, if_pos ha, helim, hassign, ok_bind]
    dsimp only
    rw [hhost, ok_bind, List.length_append]
    simp only [pure, Except.pure, List.length_cons]
    congr 2
    omega
  · have hnone : parts.hasUserinfo = false ∧ parts.host = [] ∧ parts.hasPort = false := by
      simpa [hasAuthority, and_assoc] using ha
    have helim : parts.toComponents.authority.elim [] (ascii '/' :: ascii '/' :: ·) = [] := by
      simp [UrlParts.toComponents, present, ha]
    have hui : parts.userinfo = [] := by
      have := h.userinfo
      rw [hnone.1] at this
      simpa using this
    have hport : parts.port = [] := by
      have := h.port
      rw [hnone.2.2] at this
      simpa using this
    obtain ⟨c₁, c₂, c₃, c₄, c₅, c₆⟩ := hclear
    rw [if_neg ha, if_neg ha, helim, hui, hport, hnone.1, hnone.2.1, hnone.2.2, List.append_nil]
    obtain ⟨⟨_, _, _, _, _, _, _, _, _, _, _, _, _, _⟩, _⟩ := p
    dsimp only at hauth c₁ c₂ c₃ c₄ c₅ c₆
    subst hauth c₁ c₂ c₃ c₄ c₅ c₆
    rfl

theorem adjustPath_eq {p : ExtendedUrlParts} (h : parts.Consistent)
    (hclear : p.hasQuery = false ∧ p.query = [] ∧ p.hasFragment = false ∧ p.fragment = []) (before : Bytes) :
    adjustPath (before ++ (parts.path ++ (parts.toComponents.query.elim [] (ascii '?' :: ·) ++
        parts.toComponents.fragment.elim [] (ascii '#' :: ·)))) parts p before.length =
      .ok { p with hasPath := true, path := parts.path, hasQuery := parts.hasQuery, query :=
        parts.query, hasFragment := parts.hasFragment,
                   fragment := parts.fragment } := by
  have hq : parts.hasQuery = true →
      assignAt (before ++ (parts.path ++ (parts.toComponents.query.elim [] (ascii '?' :: ·) ++
      parts.toComponents.fragment.elim [] (ascii '#' :: ·))))
        (before.length + parts.path.length + 1) parts.query.length = .ok parts.query := by
    intro hflag
    have hmid := assignAt_mid (before ++ parts.path ++ [ascii '?']) parts.query
        (parts.toComponents.fragment.elim [] (ascii '#' :: ·))
    simp only [List.length_append, List.append_assoc, List.singleton_append, List.length_singleton] at hmid
    simpa [UrlParts.toComponents, present, hflag, Nat.add_assoc] using hmid
  have hf : parts.hasFragment = true →
      assignAt (before ++ (parts.path ++ (parts.toComponents.query.elim [] (ascii '?' :: ·) ++
      parts.toComponents.fragment.elim [] (ascii '#' :: ·))))
        ((if parts.hasQuery then before.length + parts.path.length + 1 + parts.query.length
        else before.length + parts.path.length) + 1)
        parts.fragment.length = .ok parts.fragment := by
    intro hflag
    have hmid := assignAt_mid (before ++ parts.path ++ parts.toComponents.query.elim []
        (ascii '?' :: ·) ++ [ascii '#']) parts.fragment []
    have hlen : (before ++ parts.path ++ parts.toComponents.query.elim [] (ascii '?' :: ·) ++
        [ascii '#']).length = (if parts.hasQuery then before.length + parts.path.length + 1 +
        parts.query.length else before.length + parts.path.length) + 1 := by
      cases hqf : parts.hasQuery <;> simp [UrlParts.toComponents, present, hqf] <;> omega
    rw [hlen] at hmid
    simp only [List.append_assoc, List.singleton_append, List.append_nil] at hmid
    simpa [UrlParts.toComponents, present, hflag] using hmid
  unfold adjustPath
  rw [assignAt_mid, ok_bind]
  obtain ⟨c₁, c₂, c₃, c₄⟩ := hclear
  obtain ⟨⟨_, _, _, _, _, _, _, _, _, _, _, _, _, _⟩, _⟩ := p
  dsimp only at c₁ c₂ c₃ c₄
  subst c₁ c₂ c₃ c₄
  generalize before ++ (parts.path ++ (parts.toComponents.query.elim [] (ascii '?' :: ·) ++
    parts.toComponents.fragment.elim [] (ascii '#' :: ·))) = url at hq hf
  cases hqf : parts.hasQuery <;> cases hff : parts.hasFragment
  · simp [h.query hqf, h.fragment hff, pure, Except.pure]
  · rw [hqf] at hf
    simp at hf
    simp [h.query hqf, hf hff, pure, Except.pure]
  · simp [hq hqf, h.fragment hff, pure, Except.pure]
  · rw [hqf] at hf
    simp at hf
    simp [hq hqf, hf hff, pure, Except.pure]

theorem adjustParts_eq (h : parts.Consistent) :
    adjustParts (assembleUrl parts) (hasAuthority parts) (authorityText parts).length parts = .ok (adjusted parts) := by
  rw [assembleUrl_eq, adjustParts]
  unfold Delims.recompose
  rw [show delims.colon = ascii ':' from rfl, adjustScheme_eq, ok_bind]
  dsimp only
  rw [show delims.slash = ascii '/' from rfl, adjustAuthority_eq h rfl ⟨rfl, rfl, rfl, rfl, rfl, rfl⟩, ok_bind]
  dsimp only
  rw [← List.append_assoc]
  exact adjustPath_eq h ⟨rfl, rfl, rfl, rfl⟩ _

theorem assignUrlParts_eq (h : parts.Consistent) :
    assignUrlParts parts false false = .ok ⟨assembleUrl parts, adjusted parts⟩ := by
  rw [assignUrlParts]
  simp [adjustParts_eq h, orFault, Except.mapError, pure, Except.pure]

theorem orInvalid_eq_ok {x : Except Invalid Unit} : orInvalid x = .ok () ↔ x = .ok () := by
  cases x <;> simp [orInvalid, Except.mapError]

theorem assignUrlParts_checked (hc : parts.Consistent) (a : URLAddress) :
    assignUrlParts parts true false = .ok a ↔ parts.Valid ∧ a = ⟨assembleUrl parts, adjusted parts⟩ := by
  rw [assignUrlParts]
  dsimp only
  rw [if_pos rfl, if_neg (by simp), adjustParts_eq hc]
  cases hchk : urlPartsChecker (assembleUrl parts) parts with
  | ok u =>
      have hv : parts.Valid := urlPartsChecker_iff.mp hchk
      simp [orInvalid, orFault, Except.mapError, hv, pure, Except.pure, eq_comm]
  | error e =>
      have hv : ¬ parts.Valid := fun h => by
        rw [urlPartsChecker_iff.mpr h] at hchk
        cases hchk
      simp [orInvalid, Except.mapError, hv]

/-! ## 組み立てて分ける -/

def ColonPath (scheme host path : Bytes) : Prop :=
  scheme = [] ∧ host = [] ∧ ∃ seg rest, path = seg ++ ascii ':' :: rest ∧ ascii '/' ∉ seg

theorem hasAuthority_iff (hc : parts.Consistent) (hv : parts.Valid) : hasAuthority parts = true ↔ parts.host ≠ [] := by
  by_cases hne : parts.host = []
  · obtain ⟨hui, hport⟩ := hv.noHost hne
    simp [hasAuthority, hc.userinfo, hc.port, hui, hport, hne]
  · simp [hasAuthority, hne]

theorem authorityText_eq (hc : parts.Consistent) :
    authorityText parts = (if parts.userinfo = [] then [] else parts.userinfo ++ [ascii '@']) ++
      (parts.host ++ if parts.port = [] then [] else ascii ':' :: parts.port) := by
  simp only [authorityText, hc.userinfo, hc.port, decide_eq_true_eq]
  split_ifs <;> simp_all

theorem authorityText_mem (hc : parts.Consistent) (hv : parts.Valid) : ∀ b ∈ authorityText parts,
    delims.inAuthority b = true := by
  have hat : delims.inAuthority (ascii '@') = true := by decide
  have hcolon : delims.inAuthority (ascii ':') = true := by decide
  intro b hb
  rw [authorityText_eq hc, List.mem_append, List.mem_append] at hb
  rcases hb with hb | hb | hb
  · split at hb
    · cases hb
    · rcases List.mem_append.mp hb with hb | hb
      · exact (hv.userinfo_mem b hb).1
      · rwa [List.mem_singleton.mp hb]
  · exact (hv.host_mem b hb).1
  · split at hb
    · cases hb
    · rcases List.mem_cons.mp hb with rfl | hb
      · exact hcolon
      · exact (hv.port_mem b hb).1

theorem authorityText_split (hc : parts.Consistent) (hv : parts.Valid) :
    AuthoritySplit (authorityText parts) parts.userinfo parts.host parts.port := by
  refine ⟨parts.host ++ if parts.port = [] then [] else ascii ':' :: parts.port, ?_, ?_⟩
  · rw [authorityText_eq hc]
    by_cases hui : parts.userinfo = []
    · right
      rw [if_pos hui, List.nil_append]
      refine ⟨?_, hui, rfl⟩
      rw [List.mem_append]
      rintro (hb | hb)
      · exact (hv.host_mem _ hb).2.1 rfl
      · split at hb
        · cases hb
        · rcases List.mem_cons.mp hb with hb | hb
          · exact absurd hb (by decide)
          · exact (hv.port_mem _ hb).2.1 rfl
    · left
      rw [if_neg hui, List.append_assoc, List.singleton_append]
      exact ⟨rfl, fun hb => (hv.userinfo_mem _ hb).2 rfl⟩
  · by_cases hport : parts.port = []
    · right
      rw [if_pos hport, List.append_nil]
      exact ⟨fun hb => (hv.host_mem _ hb).2.2 rfl, rfl, hport⟩
    · left
      rw [if_neg hport]
      exact ⟨rfl, fun hb => (hv.port_mem _ hb).2.2 rfl⟩

theorem present_mem {flag : Bool} {text x : Bytes} (h : x ∈ present flag text) : flag = true ∧ x = text := by
  unfold present at h
  split at h
  next hflag => exact ⟨hflag, (Option.mem_some_iff.mp h).symm⟩
  next => cases h

theorem toComponents_unambiguous (hc : parts.Consistent) (hv : parts.Valid)
    (hcolon : ¬ ColonPath parts.scheme parts.host parts.path) :
    Unambiguous delims parts.toComponents where
  scheme := by
    intro x hx
    obtain ⟨hne, rfl⟩ := present_mem hx
    exact ⟨of_decide_eq_true hne, hv.scheme_mem⟩
  authority := by
    intro x hx
    obtain ⟨-, rfl⟩ := present_mem hx
    exact authorityText_mem hc hv
  path := hv.path_mem
  query := by
    intro x hx
    obtain ⟨-, rfl⟩ := present_mem hx
    exact hv.query_mem
  rooted := by
    intro hne
    apply hv.rooted
    rw [← hasAuthority_iff hc hv]
    by_contra h
    exact hne (by simp [UrlParts.toComponents, present, h])
  single := by
    intro hnone
    apply hv.single
    by_contra h
    have := (hasAuthority_iff hc hv).mpr h
    simp [UrlParts.toComponents, present, this] at hnone
  segment := by
    intro hs ha pre rest he hpre
    refine absurd ⟨?_, ?_, pre, rest, he, ?_⟩ hcolon
    · by_contra h
      simp [UrlParts.toComponents, present, h] at hs
    · by_contra h
      have := (hasAuthority_iff hc hv).mpr h
      simp [UrlParts.toComponents, present, this] at ha
    · intro hb
      exact absurd (hpre _ hb) (by decide)

theorem assembleUrl_head (hc : parts.Consistent) (hv : parts.Valid)
    (hcolon : ¬ ColonPath parts.scheme parts.host parts.path) :
    (assembleUrl parts).head? ≠ some (ascii ':') := by
  intro hhead
  obtain ⟨rest, he⟩ : ∃ rest, assembleUrl parts = ascii ':' :: rest := by
    cases h : assembleUrl parts with
    | nil =>
        rw [h] at hhead
        cases hhead
    | cons a rest =>
        rw [h] at hhead
        exact ⟨rest, by rw [Option.some.inj hhead]⟩
  rw [assembleUrl_eq, Delims.recompose] at he
  cases hs : parts.scheme with
  | cons ch t =>
      have := hv.scheme_mem ch (by rw [hs]; exact List.mem_cons_self)
      simp [UrlParts.toComponents, present, hs] at he
      rw [he.1] at this
      exact absurd this (by decide)
  | nil =>
      by_cases hh : parts.host = []
      · have hauth : ¬ hasAuthority parts = true := by rw [hasAuthority_iff hc hv]; exact not_not.mpr hh
        simp only [UrlParts.toComponents, present, hs, hauth] at he
        cases hp : parts.path with
        | cons ch t =>
            simp [hp] at he
            exact hcolon ⟨hs, hh, [], t, by rw [hp, he.1]; rfl, by simp⟩
        | nil =>
            rw [hp] at he
            rcases startsWith_query (D := delims) _ (startsWith_fragment _) _ _
              (by simpa using he) with h₁ | h₁ <;> exact absurd h₁ (by decide)
      · have hauth := (hasAuthority_iff hc hv).mpr hh
        simp [UrlParts.toComponents, present, hs, hauth] at he
        exact absurd he.1 (by decide)

theorem urlComponents_assembleUrl (hc : parts.Consistent) (hv : parts.Valid)
    (hcolon : ¬ ColonPath parts.scheme parts.host parts.path) :
    urlComponents (assembleUrl parts) = parts.toComponents := by
  rw [urlComponents_eq (assembleUrl_head hc hv hcolon), assembleUrl_eq,
    split_recompose (toComponents_unambiguous hc hv hcolon)]

theorem toComponents_split (hc : parts.Consistent) (hv : parts.Valid) :
    AuthoritySplit (parts.toComponents.authority.getD []) parts.userinfo parts.host parts.port := by
  by_cases hh : parts.host = []
  · obtain ⟨hui, hport⟩ := hv.noHost hh
    have hnone : ¬ hasAuthority parts = true := by rw [hasAuthority_iff hc hv]; exact not_not.mpr hh
    rw [hui, hport, hh]
    exact ⟨[], .inr (by simp [UrlParts.toComponents, present, hnone]), .inr (by simp)⟩
  · have := (hasAuthority_iff hc hv).mpr hh
    simpa [UrlParts.toComponents, present, this] using authorityText_split hc hv

theorem splitUrl_assembleUrl (hc : parts.Consistent) (hv : parts.Valid)
    (hcolon : ¬ ColonPath parts.scheme parts.host parts.path) :
    ∃ hasPath, splitUrl (assembleUrl parts) =
      .ok (withAuthority (ofComponents parts.toComponents hasPath) parts.userinfo parts.host parts.port) := by
  obtain ⟨hasPath, userinfo, host, port, hsplit, hauth⟩ := splitUrl_spec (assembleUrl parts)
  rw [urlComponents_assembleUrl hc hv hcolon] at hsplit hauth
  obtain ⟨rfl, rfl, rfl⟩ := hauth.unique (toComponents_split hc hv)
  exact ⟨hasPath, hsplit⟩

theorem urlComponents_scheme {seg rest : Bytes} (hseg : ∀ b ∈ seg, b ≠ ascii '/' ∧ delims.inPath b = true) :
    (urlComponents (seg ++ ascii ':' :: rest)).scheme.isSome = true := by
  have hcolon : ascii ':' ∈ seg ++ [ascii ':'] := by simp
  obtain ⟨pre, post, he, hpre⟩ := List.eq_append_cons_of_mem hcolon
  have hurl : seg ++ ascii ':' :: rest = pre ++ ascii ':' :: (post ++ rest) := by
    rw [← List.singleton_append, ← List.append_assoc, he, List.append_assoc, List.cons_append]
  have hin : ∀ b ∈ pre, delims.inScheme b = true := by
    intro b hb
    have hmem : b ∈ seg ++ [ascii ':'] := by rw [he]; exact List.mem_append_left _ hb
    have hne : b ≠ ascii ':' := fun h => hpre (h ▸ hb)
    rcases List.mem_append.mp hmem with hs | hs
    · have hpath : b ≠ delims.question ∧ b ≠ delims.hash := by simpa [Delims.inPath] using (hseg b hs).2
      simp only [Delims.inScheme, decide_eq_true_eq]
      exact ⟨hne, (hseg b hs).1, hpath⟩
    · exact absurd (List.mem_singleton.mp hs) hne
  rw [hurl]
  cases hnil : pre with
  | nil =>
      rw [List.nil_append, urlComponents, if_pos rfl]
      rfl
  | cons ch t =>
      rw [hnil] at hin
      have hch : (ch :: t ++ ascii ':' :: (post ++ rest)).head? ≠ some (ascii ':') := by
        intro h
        have := hin ch List.mem_cons_self
        rw [Option.some.inj h] at this
        exact absurd this (by decide)
      have hof := schemeOf_of_colon hin (List.cons_ne_nil ch t) (post ++ rest)
      rw [urlComponents_eq hch, Delims.split]
      rw [show delims.colon = ascii ':' from rfl] at hof
      simp only [hof, Delims.splitPath, Option.isSome_some]

theorem length_urlComponents (url : Bytes) : url.length =
    ((urlComponents url).scheme.elim [] (· ++ [delims.colon])).length +
    (((urlComponents url).authority.elim [] (delims.slash :: delims.slash :: ·)).length +
      ((urlComponents url).path.length + (((urlComponents url).query.elim [] (delims.question :: ·)).length +
        ((urlComponents url).fragment.elim [] (delims.hash :: ·)).length))) := by
  conv_lhs => rw [← recompose_urlComponents url]
  simp only [Delims.recompose, List.length_append]

theorem elim_length_le (sep : UInt8) {x : Option (List UInt8)} {text : List UInt8} (h : x.getD [] = text) :
    ((present (text ≠ []) text).elim [] (sep :: ·)).length ≤ (x.elim [] (sep :: ·)).length := by
  subst h
  cases x with
  | none => simp [present]
  | some y => by_cases hy : y = [] <;> simp [present, hy]

end UnixCommons.HTTP
