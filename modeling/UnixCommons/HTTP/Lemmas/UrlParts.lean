import UnixCommons.HTTP.UrlParts
import UnixCommons.Lib.Uri
import Mathlib.Data.List.GetD

/-! # URL を分けることの補題 -/

namespace UnixCommons.HTTP

open Lib Lib.Uri String.AsciiStringManip

def delims : Delims UInt8 := ⟨ascii ':', ascii '/', ascii '?', ascii '#', by decide⟩

/-! ## ポインタ -/

theorem between_dropWhile (p : UInt8 → Bool) (cur : Bytes) :
    between cur (cur.dropWhile p) = cur.takeWhile p := take_sub_dropWhile p cur

theorem findOwned_eq {set : Bytes} {p : UInt8 → Bool} (hp : ∀ ch, (!isOwned set ch) = true ↔
    p ch = true) (cur : Bytes) : findOwned set cur = cur.dropWhile p := by
  rw [findOwned, funext fun ch => Bool.eq_iff_iff.mpr (hp ch)]

theorem findOwned_scheme : ∀ cur, findOwned urlParserSchemeEnd cur = cur.dropWhile delims.inScheme := by
  have hset : urlParserSchemeEnd = [ascii ':', ascii '/', ascii '?', ascii '#'] := by decide
  refine findOwned_eq fun ch => ?_
  simp [hset, isOwned, Delims.inScheme, delims]
  exact decide_eq_true_iff.symm

theorem findOwned_authority : ∀ cur, findOwned urlParserAuthorityEnd cur = cur.dropWhile delims.inAuthority := by
  refine findOwned_eq fun ch => ?_
  simp [urlParserAuthorityEnd, isOwned, Delims.inAuthority, delims]
  exact decide_eq_true_iff.symm

theorem findOwned_path : ∀ cur, findOwned urlParserPathEnd cur = cur.dropWhile delims.inPath := by
  refine findOwned_eq fun ch => ?_
  simp [urlParserPathEnd, isOwned, Delims.inPath, delims]
  exact decide_eq_true_iff.symm

theorem findOwned_query : ∀ cur, findOwned urlParserQueryEnd cur = cur.dropWhile delims.inQuery := by
  refine findOwned_eq fun ch => ?_
  simp [urlParserQueryEnd, isOwned, Delims.inQuery, delims]
  exact decide_eq_true_iff.symm

theorem advance_one (ch : UInt8) (rest : Bytes) : advance 1 (ch :: rest) = .ok rest := by
  simp [advance, pure, Except.pure]

theorem advance_two (a b : UInt8) (rest : Bytes) : advance 2 (a :: b :: rest) = .ok rest := by
  simp [advance, pure, Except.pure]

theorem inPath_of_inScheme {a : UInt8} (h : delims.inScheme a = true) : delims.inPath a = true := by
  simp only [Delims.inScheme, Delims.inPath, decide_eq_true_eq] at h ⊢
  exact h.2.2

/-! ## 成分に分ける -/

variable {scheme authority query fragment : Option Bytes} {path cur rest : Bytes} {hasPath : Bool}

def ofComponents (c : Components UInt8) (hasPath : Bool) : ExtendedUrlParts where
  toUrlParts := ⟨c.scheme.isSome, c.scheme.getD [], false, [], false, [], false, [], hasPath,
    c.path, c.query.isSome, c.query.getD [], c.fragment.isSome, c.fragment.getD []⟩
  authority := c.authority.getD []

theorem splitFragment_eq (rest : Bytes) :
    splitFragment (ofComponents ⟨scheme, authority, path, query, none⟩ hasPath) (ascii '#' :: rest) =
      .ok (ofComponents ⟨scheme, authority, path, query, some rest⟩ hasPath) := by
  rw [splitFragment, deref]
  simp only [pure, Except.pure, ok_bind]
  rw [if_pos trivial, advance_one, ok_bind]
  rfl

theorem splitFragment_rest (scheme authority query : Option Bytes) (path : Bytes) (hasPath : Bool)
    (hs : StartsWith (· = delims.hash) cur) :
    (if cur = [] then .ok (ofComponents ⟨scheme, authority, path, query, none⟩ hasPath)
      else splitFragment (ofComponents ⟨scheme, authority, path, query, none⟩ hasPath) cur) =
      .ok (ofComponents ⟨scheme, authority, path, query, delims.fragmentOf cur⟩ hasPath) := by
  cases cur with
  | nil => rfl
  | cons a rest =>
      obtain rfl : a = ascii '#' := hs a rest rfl
      rw [if_neg (List.cons_ne_nil _ _), splitFragment_eq]
      rfl

theorem splitQuery_eq (scheme authority : Option Bytes) (path : Bytes) (hasPath : Bool)
    (hs : StartsWith (fun a => a = delims.question ∨ a = delims.hash) cur) (hne : cur ≠ []) :
    splitQuery (ofComponents ⟨scheme, authority, path, none, none⟩ hasPath) cur =
      .ok (ofComponents ⟨scheme, authority, path, (delims.queryOf cur).1, delims.fragmentOf
      (delims.queryOf cur).2⟩ hasPath) := by
  cases cur with
  | nil => exact absurd rfl hne
  | cons a rest =>
      rw [splitQuery, deref]
      simp only [pure, Except.pure, ok_bind]
      by_cases ha : a = ascii '?'
      · have hof : delims.queryOf (a :: rest) = (some (rest.takeWhile delims.inQuery), rest.dropWhile delims.inQuery) := by
          rw [Delims.queryOf, if_pos (show a = delims.question from ha)]
        have hhash : StartsWith (· = delims.hash) (rest.dropWhile delims.inQuery) := fun a t h =>
          inQuery_eq_false.mp (startsWith_dropWhile delims.inQuery rest a t h)
        rw [if_pos ha, advance_one, ok_bind, findOwned_query, between_dropWhile, hof]
        exact splitFragment_rest scheme authority (some _) path hasPath hhash
      · obtain rfl : a = ascii '#' := (hs a rest rfl).resolve_left ha
        rw [if_neg ha, splitFragment_eq]
        rfl

theorem splitPath_eq (scheme authority : Option Bytes) (hasPath : Bool) (cur : Bytes) :
    splitPath (ofComponents ⟨scheme, authority, [], none, none⟩ hasPath) cur = .ok
      (ofComponents (delims.splitPath scheme authority cur) true) := by
  have hq : StartsWith (fun a => a = delims.question ∨ a = delims.hash) (cur.dropWhile delims.inPath) := fun a t h =>
    inPath_eq_false.mp (startsWith_dropWhile delims.inPath cur a t h)
  rw [splitPath, findOwned_path, between_dropWhile, Delims.splitPath]
  by_cases hnil : cur.dropWhile delims.inPath = []
  · rw [if_pos hnil, hnil]
    rfl
  · rw [if_neg hnil]
    exact splitQuery_eq scheme authority (cur.takeWhile delims.inPath) true hq hnil

theorem splitHierarchy_eq (scheme : Option Bytes) (hne : cur ≠ []) :
    ∃ b, splitHierarchy (ofComponents ⟨scheme, none, [], none, none⟩ false) cur =
      .ok (ofComponents (delims.splitPath scheme (delims.authorityOf cur).1 (delims.authorityOf cur).2) b) := by
  cases cur with
  | nil => exact absurd rfl hne
  | cons a rest =>
      rw [splitHierarchy, deref]
      simp only [pure, Except.pure, ok_bind, advance_one]
      by_cases hq : a ≠ ascii '?' ∧ a ≠ ascii '#'
      · rw [if_pos hq]
        by_cases hs : a = ascii '/' ∧ rest ≠ [] ∧ rest.head? = some (ascii '/')
        · obtain ⟨rfl, hne', hhead⟩ := hs
          obtain ⟨b, rest, rfl⟩ := List.exists_cons_of_ne_nil hne'
          obtain rfl : b = ascii '/' := Option.some.inj hhead
          have hof : delims.authorityOf (ascii '/' :: ascii '/' :: rest) =
              (some (rest.takeWhile delims.inAuthority), rest.dropWhile delims.inAuthority) := by
            rw [Delims.authorityOf, if_pos ⟨rfl, rfl⟩]
          rw [if_pos ⟨rfl, List.cons_ne_nil _ _, rfl⟩, advance_two, ok_bind, hof, findOwned_authority, between_dropWhile]
          by_cases hnil : rest = []
          · rw [if_pos hnil, hnil]
            exact ⟨false, rfl⟩
          · rw [if_neg hnil]
            by_cases hend : rest.dropWhile delims.inAuthority = []
            · rw [if_pos hend, hend]
              exact ⟨false, rfl⟩
            · rw [if_neg hend]
              exact ⟨true, splitPath_eq scheme (some _) false _⟩
        · have hof : delims.authorityOf (a :: rest) = (none, a :: rest) := by
            cases rest with
            | nil => rfl
            | cons b rest =>
                rw [Delims.authorityOf, if_neg]
                rintro ⟨rfl, rfl⟩
                exact hs ⟨rfl, List.cons_ne_nil _ _, rfl⟩
          rw [if_neg hs, hof]
          exact ⟨true, splitPath_eq scheme none false _⟩
      · have hstart : a = ascii '?' ∨ a = ascii '#' := by
          by_contra h
          exact hq ⟨fun h₁ => h (.inl h₁), fun h₁ => h (.inr h₁)⟩
        have hne₁ : a ≠ ascii '/' := by
          rintro rfl
          revert hstart
          decide
        have hof : delims.authorityOf (a :: rest) = (none, a :: rest) := by
          cases rest with
          | nil => rfl
          | cons b rest => rw [Delims.authorityOf, if_neg fun h => hne₁ h.1]
        have hpath : (a :: rest).takeWhile delims.inPath = [] ∧ (a :: rest).dropWhile delims.inPath = a :: rest := by
          have ha : ¬ delims.inPath a = true := by
            rw [inPath_eq_false.mpr hstart]
            decide
          rw [List.takeWhile_cons_of_neg ha, List.dropWhile_cons_of_neg ha]
          exact ⟨rfl, rfl⟩
        rw [if_neg hq, hof, Delims.splitPath]
        simp only [hpath]
        refine ⟨false, splitQuery_eq scheme none [] false ?_ (List.cons_ne_nil _ _)⟩
        intro b t h
        rw [← (List.cons.inj h).1]
        exact hstart

theorem splitComponents_eq {url : Bytes} (h : url.head? ≠ some (ascii ':')) :
    ∃ b, splitComponents url = .ok (ofComponents (delims.split url) b) := by
  have hdrop := startsWith_dropWhile delims.inScheme url
  have hsplit : url.takeWhile delims.inScheme ++ url.dropWhile delims.inScheme = url := List.takeWhile_append_dropWhile
  have hpre : ∀ a ∈ url.takeWhile delims.inScheme, delims.inScheme a = true := fun a ha => List.mem_takeWhile_imp ha
  rw [splitComponents, findOwned_scheme, between_dropWhile, Delims.split]
  generalize url.takeWhile delims.inScheme = pre at *
  generalize url.dropWhile delims.inScheme = last at *
  cases last with
  | nil =>
      rw [List.append_nil] at hsplit
      subst hsplit
      have hpath : pre.takeWhile delims.inPath = pre ∧ pre.dropWhile delims.inPath = [] := by
        have hnil : (pre ++ []).takeWhile delims.inPath = pre ∧ (pre ++ []).dropWhile delims.inPath = [] :=
          splitWhile_append (fun a ha => inPath_of_inScheme (hpre a ha)) fun a t h => by cases h
        rwa [List.append_nil] at hnil
      have hscheme : delims.schemeOf pre = (none, pre) := by
        apply schemeOf_of_none
        rintro pre' rest rfl -
        have := hpre delims.colon (by simp)
        rw [inScheme_eq_false.mpr (.inl rfl)] at this
        cases this
      have hauth : delims.authorityOf pre = (none, pre) := by
        cases pre with
        | nil => rfl
        | cons a t =>
            cases t with
            | nil => rfl
            | cons b rest =>
                rw [Delims.authorityOf, if_neg]
                rintro ⟨rfl, -⟩
                have hslash := hpre delims.slash List.mem_cons_self
                rw [inScheme_eq_false.mpr (.inr (.inl rfl))] at hslash
                cases hslash
      refine ⟨true, ?_⟩
      rw [if_pos rfl, hscheme]
      dsimp only
      rw [hauth, Delims.splitPath]
      dsimp only
      rw [hpath.1, hpath.2]
      rfl
  | cons a rest =>
      rw [if_neg (List.cons_ne_nil _ _), deref]
      simp only [pure, Except.pure, ok_bind]
      by_cases ha : a = ascii ':'
      · subst ha
        have hne : pre ≠ [] := by
          rintro rfl
          rw [← hsplit] at h
          exact h rfl
        rw [if_pos rfl, advance_one, ok_bind, ← hsplit,
          show delims.schemeOf (pre ++ ascii ':' :: rest) = (some pre, rest) from
          schemeOf_of_colon hpre hne rest]
        by_cases hnil : rest = []
        · rw [if_pos hnil, hnil]
          exact ⟨false, rfl⟩
        · rw [if_neg hnil]
          exact splitHierarchy_eq (some pre) hnil
      · have hscheme : delims.schemeOf url = (none, url) := by
          apply schemeOf_of_none
          intro pre' rest' he hpre'
          have hcolon : StartsWith (fun a => delims.inScheme a = false) (delims.colon :: rest') := by
            intro b t hb
            rw [← (List.cons.inj hb).1]
            exact inScheme_eq_false.mpr (.inl rfl)
          have h₁ := (splitWhile_append hpre hdrop).2
          have h₂ := (splitWhile_append hpre' hcolon).2
          rw [hsplit, he, h₂] at h₁
          exact absurd (List.cons.inj h₁).1.symm ha
        have hurl : url ≠ [] := by
          rw [← hsplit]
          simp
        rw [if_neg ha, hscheme]
        exact splitHierarchy_eq none hurl

def urlComponents (url : Bytes) : Components UInt8 :=
  match url with
  | [] => delims.split []
  | ch :: rest =>
      if ch = ascii ':' then delims.splitPath (some []) (delims.authorityOf rest).1
        (delims.authorityOf rest).2 else delims.split (ch :: rest)

theorem urlComponents_eq {url : Bytes} (h : url.head? ≠ some (ascii ':')) : urlComponents url = delims.split url := by
  cases url with
  | nil => rfl
  | cons ch rest => rw [urlComponents, if_neg fun hch => h (by rw [hch]; rfl)]

theorem splitComponents_any (url : Bytes) : ∃ b, splitComponents url = .ok (ofComponents (urlComponents url) b) := by
  by_cases h : url.head? = some (ascii ':')
  · cases url with
    | nil => cases h
    | cons ch rest =>
        obtain rfl : ch = ascii ':' := Option.some.inj h
        have hlast : findOwned urlParserSchemeEnd (ascii ':' :: rest) = ascii ':' :: rest := by
          rw [findOwned_scheme, List.dropWhile_cons_of_neg]
          decide
        rw [splitComponents, hlast, if_neg (List.cons_ne_nil _ _), deref, urlComponents, if_pos rfl]
        simp only [pure, Except.pure, ok_bind, between, Nat.sub_self, List.take_zero, advance_one]
        by_cases hnil : rest = []
        · rw [hnil]
          exact ⟨false, rfl⟩
        · rw [if_neg hnil]
          exact splitHierarchy_eq (some []) hnil
  · rw [urlComponents_eq h]
    exact splitComponents_eq h

theorem urlComponents_authority (url : Bytes) : ∀ x ∈ (urlComponents url).authority, ∀ b ∈ x,
    delims.inAuthority b = true := by
  cases url with
  | nil => exact authorityOf_mem delims _
  | cons ch rest =>
      rw [urlComponents]
      split
      · exact authorityOf_mem delims _
      · exact authorityOf_mem delims _

theorem recompose_urlComponents (url : Bytes) : delims.recompose (urlComponents url) = url := by
  by_cases h : url.head? = some (ascii ':')
  · cases url with
    | nil => cases h
    | cons ch rest =>
        obtain rfl : ch = ascii ':' := Option.some.inj h
        rw [urlComponents, if_pos rfl]
        have := recompose_splitPath delims (some []) rest
        exact this
  · rw [urlComponents_eq h, recompose_split]

/-! ## 権限を分ける -/

variable {ch : UInt8} {str : Bytes} {i : Nat}

theorem getD_cons_drop (h : i < str.length) : str = str.take i ++ str.getD i 0 :: str.drop (i + 1) := by
  rw [List.getD_eq_getElem _ _ h, List.getElem_cons_drop, List.take_append_drop]

theorem find_some (h : find ch str = some i) : str = str.take i ++ ch :: str.drop (i + 1) ∧
    ch ∉ str.take i ∧ i < str.length := by
  obtain ⟨hch, hlt, hmin⟩ := lowest_eq_some_iff.mp h
  have he := getD_cons_drop hlt
  rw [beq_iff_eq.mp hch] at he
  refine ⟨he, ?_, hlt⟩
  intro hm
  obtain ⟨j, hj, hget⟩ := List.mem_take_iff_getElem.mp hm
  have hj' : j < i := by omega
  have := hmin j hj'
  rw [List.getD_eq_getElem _ _ (by omega), hget] at this
  simp at this

theorem find_none (h : find ch str = none) : ch ∉ str := by
  intro hm
  obtain ⟨j, hj, hget⟩ := List.getElem_of_mem hm
  have := lowest_eq_none_iff.mp h j hj
  rw [List.getD_eq_getElem _ _ hj, hget] at this
  simp at this

theorem rfind_some (h : rfind ch str = some i) : str = str.take i ++ ch :: str.drop (i + 1) ∧
    ch ∉ str.drop (i + 1) ∧ i < str.length := by
  obtain ⟨hch, hlt, hmax⟩ := highest_eq_some_iff.mp h
  have he := getD_cons_drop hlt
  rw [beq_iff_eq.mp hch] at he
  refine ⟨he, ?_, hlt⟩
  intro hm
  obtain ⟨j, hj, hget⟩ := List.mem_drop_iff_getElem.mp hm
  have := hmax (i + 1 + j) (by omega) (by omega)
  rw [List.getD_eq_getElem _ _ (by omega)] at this
  rw [hget] at this
  simp at this

theorem rfind_none (h : rfind ch str = none) : ch ∉ str := by
  intro hm
  obtain ⟨j, hj, hget⟩ := List.getElem_of_mem hm
  have := highest_eq_none_iff.mp h j hj
  rw [List.getD_eq_getElem _ _ hj, hget] at this
  simp at this

/-- 最初の `@` の前が利用者、その後の最後の `:` の後がポート、間がホストである。 -/
def AuthoritySplit (authority userinfo host port : Bytes) : Prop :=
  ∃ rest, (authority = userinfo ++ ascii '@' :: rest ∧ ascii '@' ∉ userinfo ∨
    ascii '@' ∉ authority ∧ userinfo = [] ∧ rest = authority) ∧
    (rest = host ++ ascii ':' :: port ∧ ascii ':' ∉ port ∨ ascii ':' ∉ rest ∧ host = rest ∧ port = [])

theorem append_cons_inj_first {x x' z z' : Bytes} (h : ch ∉ x) (h' : ch ∉ x')
    (he : x ++ ch :: z = x' ++ ch :: z') : x = x' ∧ z = z' := by
  have hstop : ∀ z, StartsWith (fun a => (fun b => decide (b ≠ ch)) a = false) (ch :: z) := by
    intro z a t hz
    simp [← (List.cons.inj hz).1]
  have hmem : ∀ {x : Bytes}, ch ∉ x → ∀ a ∈ x, decide (a ≠ ch) = true := by
    intro x hx a ha
    rw [decide_eq_true_eq]
    rintro rfl
    exact hx ha
  have h₁ := (splitWhile_append (hmem h) (hstop z)).1
  rw [he, (splitWhile_append (hmem h') (hstop z')).1] at h₁
  subst h₁
  exact ⟨rfl, (List.cons.inj (List.append_cancel_left he)).2⟩

theorem append_cons_inj_last {x x' z z' : Bytes} (h : ch ∉ z) (h' : ch ∉ z')
    (he : x ++ ch :: z = x' ++ ch :: z') : x = x' ∧ z = z' := by
  have hrev := congrArg List.reverse he
  simp only [List.reverse_append, List.reverse_cons, List.append_assoc, List.singleton_append] at hrev
  obtain ⟨h₁, h₂⟩ := append_cons_inj_first (by simpa using h) (by simpa using h') hrev
  exact ⟨List.reverse_injective h₂, List.reverse_injective h₁⟩

theorem AuthoritySplit.unique {authority userinfo host port userinfo' host' port' : Bytes}
    (h : AuthoritySplit authority userinfo host port)
    (h' : AuthoritySplit authority userinfo' host' port') : userinfo = userinfo' ∧ host = host' ∧ port = port' := by
  obtain ⟨rest, hui, hhost⟩ := h
  obtain ⟨rest', hui', hhost'⟩ := h'
  have hfirst : userinfo = userinfo' ∧ rest = rest' := by
    rcases hui with ⟨he, hn⟩ | ⟨hn, rfl, rfl⟩ <;> rcases hui' with ⟨he', hn'⟩ | ⟨hn', rfl, rfl⟩
    · exact append_cons_inj_first hn hn' (he.symm.trans he')
    · exact absurd (by rw [he]; simp) hn'
    · exact absurd (by rw [he']; simp) hn
    · exact ⟨rfl, rfl⟩
  obtain ⟨rfl, rfl⟩ := hfirst
  refine ⟨rfl, ?_⟩
  rcases hhost with ⟨he, hn⟩ | ⟨hn, rfl, rfl⟩ <;> rcases hhost' with ⟨he', hn'⟩ | ⟨hn', rfl, rfl⟩
  · exact append_cons_inj_last hn hn' (he.symm.trans he')
  · exact absurd (by rw [he]; simp) hn'
  · exact absurd (by rw [he']; simp) hn
  · exact ⟨rfl, rfl⟩

theorem substr_eq {pos count : Nat} (h : pos ≤ str.length) : substr str pos count = .ok
    ((str.drop pos).take (min count (str.length - pos))) := by
  rw [substr, if_pos h]
  rfl

theorem difference_eq {m n : Nat} (h : n ≤ m) : difference m n = .ok (m - n) := by
  rw [difference, if_pos h]
  rfl

def withAuthority (parts : ExtendedUrlParts) (userinfo host port : Bytes) : ExtendedUrlParts :=
  { parts with
    hasUserinfo := userinfo ≠ [], userinfo := userinfo, hasHost := parts.authority ≠ [], host :=
      host, hasPort := port ≠ [], port := port }

theorem splitUserinfo_spec (parts : ExtendedUrlParts) (hflag : parts.hasUserinfo = false)
    (hempty : parts.userinfo = []) : ∃ userinfo rest hostBegin, splitUserinfo parts = .ok
      ({ parts with hasUserinfo := userinfo ≠ [], userinfo := userinfo }, hostBegin) ∧
      (parts.authority = userinfo ++ ascii '@' :: rest ∧ ascii '@' ∉ userinfo ∨
        ascii '@' ∉ parts.authority ∧ userinfo = [] ∧ rest = parts.authority ∧ hostBegin = 0) ∧
      rest = parts.authority.drop hostBegin ∧ hostBegin ≤ parts.authority.length := by
  unfold splitUserinfo
  cases hf : find (ascii '@') parts.authority with
  | none =>
      refine ⟨[], parts.authority, 0, ?_, .inr ⟨find_none hf, rfl, rfl, rfl⟩, rfl, Nat.zero_le _⟩
      simp [pure, Except.pure, ← hflag, ← hempty]
  | some i =>
      obtain ⟨he, hn, hlt⟩ := find_some hf
      refine ⟨parts.authority.take i, parts.authority.drop (i + 1), i + 1, ?_, .inl ⟨he, hn⟩, rfl, hlt⟩
      dsimp only
      by_cases hi : i ≠ 0
      · have htake : parts.authority.take i ≠ [] := by
          intro hnil
          have := congrArg List.length hnil
          rw [List.length_take, List.length_nil] at this
          omega
        rw [if_pos hi, substr_eq (Nat.zero_le _), ok_bind, List.drop_zero, Nat.sub_zero, Nat.min_eq_left (by omega)]
        simp [pure, Except.pure, htake]
      · obtain rfl : i = 0 := by omega
        rw [if_neg hi, List.take_zero]
        simp [pure, Except.pure, ← hflag, ← hempty]

theorem splitPort_spec (parts : ExtendedUrlParts) (hostBegin : Nat) (hflag : parts.hasPort = false)
    (hempty : parts.port = []) (hle : hostBegin ≤ parts.authority.length) :
    ∃ port hostEnd, splitPort parts hostBegin = .ok ({ parts with hasPort := port ≠ [], port := port }, hostEnd) ∧
      hostBegin ≤ hostEnd ∧ hostEnd ≤ parts.authority.length ∧
      (parts.authority.drop hostBegin = (parts.authority.drop hostBegin).take
      (hostEnd - hostBegin) ++ ascii ':' :: port ∧ ascii ':' ∉ port ∨
        ascii ':' ∉ parts.authority.drop hostBegin ∧ hostEnd = parts.authority.length ∧ port = []) := by
  unfold splitPort
  cases hf : rfind (ascii ':') parts.authority with
  | none =>
      refine ⟨[], parts.authority.length, ?_, hle, Nat.le_refl _, .inr ⟨?_, rfl, rfl⟩⟩
      · simp [pure, Except.pure, ← hflag, ← hempty]
      · exact fun hm => rfind_none hf (List.mem_of_mem_drop hm)
  | some e =>
      obtain ⟨he, hn, hlt⟩ := rfind_some hf
      by_cases hbefore : hostBegin ≠ 0 ∧ e < hostBegin
      · refine ⟨[], parts.authority.length, ?_, hle, Nat.le_refl _, .inr ⟨?_, rfl, rfl⟩⟩
        · have hfilter : (some e).filter (fun hostEnd => ¬ (hostBegin ≠ 0 ∧ hostEnd < hostBegin)) = none := by
            simp [Option.filter, hbefore]
          rw [hfilter]
          simp [pure, Except.pure, ← hflag, ← hempty]
        · intro hm
          have hdrop : parts.authority.drop hostBegin = (parts.authority.drop (e + 1)).drop (hostBegin - (e + 1)) := by
            rw [List.drop_drop]
            congr 1
            omega
          rw [hdrop] at hm
          exact hn (List.mem_of_mem_drop hm)
      · have hbe : hostBegin ≤ e := by omega
        refine ⟨parts.authority.drop (e + 1), e, ?_, hbe, Nat.le_of_lt hlt, .inl ⟨?_, hn⟩⟩
        · have hfilter : (some e).filter (fun hostEnd => ¬ (hostBegin ≠ 0 ∧ hostEnd < hostBegin)) = some e := by
            simp [Option.filter, hbefore]
          rw [hfilter]
          dsimp only
          rw [difference_eq (by omega), ok_bind]
          by_cases hend : e ≠ parts.authority.length - 1
          · have hne : parts.authority.drop (e + 1) ≠ [] := by
              intro hnil
              have := congrArg List.length hnil
              rw [List.length_drop, List.length_nil] at this
              omega
            have hlen : (parts.authority.drop (e + 1)).length ≤ min (parts.authority.length - e)
                (parts.authority.length - (e + 1)) := by
              rw [List.length_drop]
              omega
            rw [if_pos hend, difference_eq (Nat.le_of_lt hlt), ok_bind, substr_eq (by omega),
              ok_bind, List.take_of_length_le hlen]
            simp [pure, Except.pure, hne]
          · have hnil : parts.authority.drop (e + 1) = [] := List.drop_eq_nil_of_le (by omega)
            rw [if_neg hend, hnil]
            simp [pure, Except.pure, ← hflag, ← hempty]
        · have hsplit : parts.authority.drop hostBegin = (parts.authority.take e).drop hostBegin ++
              ascii ':' :: parts.authority.drop (e + 1) := by
            have hlen : hostBegin ≤ (parts.authority.take e).length := by
              rw [List.length_take]
              omega
            conv_lhs => rw [he, List.drop_append_of_le_length hlen]
          rw [← List.drop_take, hsplit]

theorem splitAuthority_spec (c : Components UInt8) (hasPath : Bool) :
    ∃ userinfo host port, splitAuthority (ofComponents c hasPath) = .ok
      (withAuthority (ofComponents c hasPath) userinfo host port) ∧
      AuthoritySplit (c.authority.getD []) userinfo host port := by
  generalize hparts : ofComponents c hasPath = parts
  have hauth : c.authority.getD [] = parts.authority := by rw [← hparts]; rfl
  rw [hauth, splitAuthority]
  by_cases hnil : parts.authority = []
  · refine ⟨[], [], [], ?_, [], ?_, ?_⟩
    · rw [if_pos hnil, withAuthority, decide_eq_false (not_not.mpr hnil), ← hparts]
      rfl
    · rw [hnil]
      exact .inr ⟨by simp, rfl, rfl⟩
    · exact .inr ⟨by simp, rfl, rfl⟩
  · obtain ⟨userinfo, rest, hostBegin, hui, hcase, hrest, hle⟩ :=
      splitUserinfo_spec parts (by rw [← hparts]; rfl) (by rw [← hparts]; rfl)
    obtain ⟨port, hostEnd, hport, hbe, hend, hcase'⟩ :=
      splitPort_spec { parts with hasUserinfo := userinfo ≠ [], userinfo := userinfo }
      hostBegin (by rw [← hparts]; rfl) (by rw [← hparts]; rfl) hle
    have hmin : min (hostEnd - hostBegin) (parts.authority.length - hostBegin) = hostEnd - hostBegin :=
      Nat.min_eq_left (Nat.sub_le_sub_right hend hostBegin)
    refine ⟨userinfo, (parts.authority.drop hostBegin).take (hostEnd - hostBegin), port, ?_, rest, ?_, ?_⟩
    · rw [if_neg hnil, hui, ok_bind]
      dsimp only
      rw [hport, ok_bind]
      dsimp only
      rw [difference_eq hbe, ok_bind, substr_eq hle, ok_bind, hmin, withAuthority]
      simp [pure, Except.pure, hnil]
    · rcases hcase with h | ⟨h₁, h₂, h₃, -⟩
      · exact .inl h
      · exact .inr ⟨h₁, h₂, h₃⟩
    · rcases hcase' with ⟨h₁, h₂⟩ | ⟨h₁, h₂, h₃⟩
      · exact .inl ⟨by rw [hrest]; exact h₁, h₂⟩
      · refine .inr ⟨by rw [hrest]; exact h₁, ?_, h₃⟩
        rw [hrest, h₂, ← List.length_drop, List.take_length]

theorem splitUrl_spec (url : Bytes) :
    ∃ hasPath userinfo host port, splitUrl url = .ok
      (withAuthority (ofComponents (urlComponents url) hasPath) userinfo host port) ∧
      AuthoritySplit ((urlComponents url).authority.getD []) userinfo host port := by
  obtain ⟨hasPath, hc⟩ := splitComponents_any url
  obtain ⟨userinfo, host, port, ha, hsplit⟩ := splitAuthority_spec (urlComponents url) hasPath
  exact ⟨hasPath, userinfo, host, port, by rw [splitUrl, hc, ok_bind, ha], hsplit⟩

end UnixCommons.HTTP
