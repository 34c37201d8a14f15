import UnixCommons.HTTP.HttpCookie
import UnixCommons.Lib.Assoc
import UnixCommons.String.Lemmas.Tokenizer

/-!
# クッキーの並びの補題

ヘッダーから読むクッキーの並びを、旗によらない関係で表す。
-/

namespace UnixCommons.HTTP.CookieList

open Lib String.AsciiStringManip String.Tokenizer

variable {c d : Cookie} {ps L : List Cookie} {s rest : Bytes} {fuel : Nat} {state : SplitterState} {flag : Bool}

attribute [local grind =] cookieSepFindOwned

/-! ## 並びに加えること -/

theorem replaceLoop_eq (c : Cookie) (L : List Cookie) :
    replaceLoop c L = (alterFirst Cookie.name c.name (some c) L).getD (L ++ [c]) := by
  induction L with
  | nil => rfl
  | cons it L ih =>
      rw [replaceLoop, alterFirst]
      by_cases h : c.name = it.name
      · rw [if_pos h, if_pos h.symm, ← h]
        rfl
      · rw [if_neg h, if_neg (Ne.symm h), ih]
        cases alterFirst Cookie.name c.name (some c) L <;> rfl

theorem replaceLoop_of_not_mem (h : c.name ∉ L.map Cookie.name) : replaceLoop c L = L ++ [c] := by
  rw [replaceLoop_eq, alterFirst_eq_none_iff.mpr h]
  rfl

structure HoldsLast (ps L : List Cookie) : Prop where
  nodup : (L.map Cookie.name).Nodup
  last : ∀ c, c ∈ L ↔ ∃ before after, ps = before ++ c :: after ∧ c.name ∉ after.map Cookie.name

theorem last_concat : (∃ before after, ps ++ [d] = before ++ c :: after ∧ c.name ∉ after.map Cookie.name) ↔
    c = d ∨ ((∃ before after, ps = before ++ c :: after ∧ c.name ∉ after.map Cookie.name) ∧ c.name ≠ d.name) := by
  constructor
  · rintro ⟨before, after, heq, hafter⟩
    rcases List.eq_nil_or_concat' after with rfl | ⟨after, e, rfl⟩
    · exact .inl (List.singleton_inj.mp (List.append_inj' heq rfl).2).symm
    · rw [← List.cons_append, ← List.append_assoc] at heq
      obtain ⟨rfl, he⟩ := List.append_inj' heq rfl
      obtain rfl := List.singleton_inj.mp he
      rw [List.map_append, List.mem_append, not_or] at hafter
      exact .inr ⟨⟨before, after, rfl, hafter.1⟩, by simpa using hafter.2⟩
  · rintro (rfl | ⟨⟨before, after, rfl, hafter⟩, hne⟩)
    · exact ⟨ps, [], rfl, by simp⟩
    · exact ⟨before, after ++ [d], by simp, by simpa [hne] using hafter⟩

theorem HoldsLast.step (h : HoldsLast ps L) (c : Cookie) : HoldsLast (ps ++ [c]) (replaceLoop c L) := by
  rw [replaceLoop_eq]
  cases halter : alterFirst Cookie.name c.name (some c) L with
  | none =>
      have hnot := alterFirst_eq_none_iff.mp halter
      refine ⟨?_, fun d => ?_⟩
      · rw [Option.getD_none, List.map_append]
        exact h.nodup.append (List.nodup_singleton _) (by simpa using hnot)
      · rw [Option.getD_none, last_concat, ← h.last, List.mem_append, List.mem_singleton, or_comm]
        refine or_congr_right ⟨fun hd => ⟨hd, fun he => hnot (he ▸ List.mem_map_of_mem hd)⟩, And.left⟩
  | some L' =>
      refine ⟨nodup_alterFirst h.nodup (fun x hx => by obtain rfl := Option.some.inj hx; rfl) halter, fun d => ?_⟩
      rw [Option.getD_some, mem_alterFirst h.nodup halter, last_concat, ← h.last, Option.mem_some_iff, eq_comm]

theorem holdsLast_foldl (ps : List Cookie) : HoldsLast ps (ps.foldl (put false) []) := by
  induction ps using List.reverseRecOn with
  | nil => exact ⟨List.nodup_nil, by simp⟩
  | append_singleton ps c ih =>
      rw [List.foldl_concat]
      exact ih.step c

theorem foldl_put_true (ps L : List Cookie) : ps.foldl (put true) L = L ++ ps := by
  induction ps generalizing L with
  | nil => exact (List.append_nil L).symm
  | cons c ps ih =>
      rw [List.foldl_cons, ih]
      exact List.append_assoc L [c] ps

theorem foldl_put_of_nodup (h : ((L ++ ps).map Cookie.name).Nodup) : ps.foldl (put flag) L = L ++ ps := by
  cases flag with
  | true => exact foldl_put_true ps L
  | false =>
      induction ps generalizing L with
      | nil => exact (List.append_nil L).symm
      | cons c ps ih =>
          rw [List.append_cons] at h ⊢
          have hnot : c.name ∉ L.map Cookie.name := by
            rw [List.map_append, List.map_append, List.append_assoc] at h
            intro hmem
            exact (List.nodup_append.mp h).2.2 _ hmem _ List.mem_cons_self rfl
          have hput : put false L c = L ++ [c] := replaceLoop_of_not_mem hnot
          rw [List.foldl_cons, hput]
          exact ih h

theorem holdsLast_self_iff : HoldsLast ps ps ↔ (ps.map Cookie.name).Nodup := by
  refine ⟨HoldsLast.nodup, fun h => ?_⟩
  have hlast := holdsLast_foldl ps
  rwa [foldl_put_of_nodup (L := []) h] at hlast

/-! ## 語に分けること -/

def Free (s : Bytes) : Prop := ¬ [ascii ';', ascii ' '] <:+: s ∧ ¬ [ascii ',', ascii ' '] <:+: s

instance : DecidablePred Free := fun _ => inferInstanceAs (Decidable (_ ∧ _))

inductive Separated : Bytes → List Bytes → Prop
  | done : Separated [] []
  | last {s : Bytes} (hne : s ≠ []) (hfree : Free s) : Separated s [s]
  | next {token : Bytes} {ch : UInt8} {rest : Bytes} {tokens : List Bytes} (hfree : Free token)
      (hch : ch = ascii ';' ∨ ch = ascii ',')
      (hrest : Separated rest tokens) : Separated (token ++ ch :: ascii ' ' :: rest) (token :: tokens)

theorem free_cons_iff {ch : UInt8} : Free (ch :: s) ↔ Free s ∧ ((ch = ascii ';' ∨ ch = ascii ',') →
    s.head? ≠ some (ascii ' ')) := by
  have hprefix : ∀ a : UInt8, [a, ascii ' '] <+: ch :: s ↔ ch = a ∧ s.head? = some (ascii ' ') := by
    intro a
    rw [List.cons_prefix_cons, eq_comm]
    cases s <;> simp [eq_comm]
  unfold Free
  rw [List.infix_cons_iff, List.infix_cons_iff, hprefix, hprefix]
  tauto

theorem findOwned_sep {ch : UInt8} (hch : ch = ascii ';' ∨ ch = ascii ',') (rest : Bytes) :
    cookieSepFindOwned (ch :: ascii ' ' :: rest) = (ch :: ascii ' ' :: rest, some 2) := by
  rw [cookieSepFindOwned, if_neg (by tauto), if_pos rfl]

theorem findOwned_skip_one {ch : UInt8} (h : (ch = ascii ';' ∨ ch = ascii ',') →
    s.head? ≠ some (ascii ' ')) : cookieSepFindOwned (ch :: s) = cookieSepFindOwned s := by
  cases s with
  | nil => rfl
  | cons next s =>
      rw [cookieSepFindOwned]
      split_ifs with hch hnext
      · rfl
      · subst hnext
        exact absurd rfl (h (by tauto))
      · rfl

theorem findOwned_all (h : Free s) : cookieSepFindOwned s = ([], none) := by
  induction s with
  | nil => rfl
  | cons ch s ih =>
      obtain ⟨hs, hch⟩ := free_cons_iff.mp h
      rw [findOwned_skip_one hch]
      exact ih hs

theorem findOwned_skip (h : Free s) {b : UInt8} (hb : b ≠ ascii ' ') : cookieSepFindOwned
    (s ++ b :: rest) = cookieSepFindOwned (b :: rest) := by
  induction s with
  | nil => rfl
  | cons ch s ih =>
      obtain ⟨hs, hch⟩ := free_cons_iff.mp h
      rw [List.cons_append, findOwned_skip_one, ih hs]
      cases s with
      | nil => simp [hb]
      | cons next s => exact hch

theorem separator_cases (s : Bytes) :
    Free s ∨ ∃ token ch rest, s = token ++ ch :: ascii ' ' :: rest ∧ Free token ∧ (ch = ascii ';' ∨ ch = ascii ',') := by
  induction s with
  | nil => exact .inl (by decide)
  | cons ch s ih =>
      by_cases hsep : (ch = ascii ';' ∨ ch = ascii ',') ∧ s.head? = some (ascii ' ')
      · obtain ⟨rest, rfl⟩ := List.head?_eq_some_iff.mp hsep.2
        exact .inr ⟨[], ch, rest, rfl, by decide, hsep.1⟩
      · rw [not_and] at hsep
        rcases ih with hs | ⟨token, ch', rest, rfl, htoken, hch'⟩
        · exact .inl (free_cons_iff.mpr ⟨hs, hsep⟩)
        · refine .inr ⟨ch :: token, ch', rest, rfl, free_cons_iff.mpr ⟨htoken, fun hch => ?_⟩, hch'⟩
          cases token with
          | nil => simp
          | cons next token => exact hsep hch

theorem exists_separated (s : Bytes) : ∃ tokens, Separated s tokens := by
  induction h : s.length using Nat.strong_induction_on generalizing s with
  | _ n ih =>
      by_cases hne : s = []
      · exact ⟨[], hne ▸ .done⟩
      · rcases separator_cases s with hfree | ⟨token, ch, rest, rfl, htoken, hch⟩
        · exact ⟨[s], .last hne hfree⟩
        · rw [List.length_append, List.length_cons, List.length_cons] at h
          obtain ⟨tokens, hrest⟩ := ih rest.length (by omega) rest rfl
          exact ⟨token :: tokens, .next htoken hch hrest⟩

theorem getToken_end (h : state.str = []) : getToken true cookieSep state = .ok (none, state) := by
  rw [getToken, if_pos rfl, getTokenEmpty, if_pos h]
  rfl

theorem getToken_last (hne : state.str ≠ []) (h : cookieSepFindOwned state.str = ([], none)) :
    getToken true cookieSep state = .ok (some state.str, { state with separator := some [], str := [] }) := by
  have hbetween : String.Tokenizer.between state.str [] = state.str := List.take_length
  rw [getToken, if_pos rfl, getTokenEmpty, if_neg hne, cookieSep]
  simp only [h, hbetween, if_true]
  rfl

theorem getToken_next {token : Bytes} {ch : UInt8} (hstr : state.str = token ++ ch :: ascii ' ' :: rest)
    (h : cookieSepFindOwned state.str = (ch :: ascii ' ' :: rest, some 2)) :
    getToken true cookieSep state = .ok
      (some token, { state with separator := some (ch :: ascii ' ' :: rest), str := rest }) := by
  have hbetween := String.Tokenizer.between_append token (ch :: ascii ' ' :: rest)
  rw [getToken, if_pos rfl, getTokenEmpty, if_neg (by simp [hstr]), cookieSep]
  rw [hstr] at h ⊢
  simp only [h, hbetween, if_neg (List.cons_ne_nil ch _)]
  simp [String.Tokenizer.advance]
  rfl

theorem getToken_free (hne : state.str ≠ []) (hfree : Free state.str) :
    getToken true cookieSep state = .ok (some state.str, { state with separator := some [], str := [] }) :=
  getToken_last hne (findOwned_all hfree)

theorem getToken_separated {token : Bytes} {ch : UInt8}
    (hstr : state.str = token ++ ch :: ascii ' ' :: rest) (hfree : Free token)
    (hch : ch = ascii ';' ∨ ch = ascii ',') :
    getToken true cookieSep state = .ok
      (some token, { state with separator := some (ch :: ascii ' ' :: rest), str := rest }) := by
  have hne : ch ≠ ascii ' ' := by rcases hch with rfl | rfl <;> decide
  exact getToken_next hstr (by rw [hstr, findOwned_skip hfree hne, findOwned_sep hch])

theorem loadTokens_separated {tokens : List Bytes} (h : Separated s tokens) (hstr : state.str = s)
    (hfuel : s.length < fuel) (L : List Cookie) :
    loadTokens flag fuel state L = ((tokens.filter (· ≠ [])).mapM parseCookie).map fun ps => ps.foldl (put flag) L := by
  induction h generalizing state fuel L with
  | done =>
      obtain ⟨fuel, rfl⟩ := Nat.exists_eq_add_one_of_ne_zero (Nat.ne_zero_of_lt hfuel)
      rw [loadTokens, getToken_end hstr]
      rfl
  | last hne hfree =>
      subst hstr
      have hpos := List.length_pos_of_ne_nil hne
      obtain ⟨fuel, rfl⟩ := Nat.exists_eq_add_of_le' (show 2 ≤ fuel by omega)
      have hend : ∀ L, loadTokens flag (fuel + 1) ⟨[], some [], state.error, state.null⟩ L = .ok L := by
        intro L
        rw [loadTokens, getToken_end rfl]
        rfl
      rw [loadTokens, getToken_free hne hfree, List.filter_cons_of_pos (by simpa using hne),
        List.filter_nil, List.mapM_cons]
      change (if state.str = [] then loadTokens flag (fuel + 1) ⟨[], some [], state.error,
        state.null⟩ L else parseCookie state.str >>= fun cookie =>
          loadTokens flag (fuel + 1) ⟨[], some [], state.error, state.null⟩ (put flag L cookie)) = _
      rw [if_neg hne]
      simp only [hend]
      cases parseCookie state.str <;> rfl
  | @next token ch rest tokens hfree hch hrest ih =>
      obtain ⟨fuel, rfl⟩ := Nat.exists_eq_add_one_of_ne_zero (Nat.ne_zero_of_lt hfuel)
      have hlen : rest.length < fuel := by
        rw [List.length_append, List.length_cons, List.length_cons] at hfuel
        omega
      have hnext := fun L =>
        @ih fuel ⟨rest, some (ch :: ascii ' ' :: rest), state.error, state.null⟩ rfl hlen L
      rw [loadTokens, getToken_separated hstr hfree hch]
      change (if token = [] then
          loadTokens flag fuel ⟨rest, some (ch :: ascii ' ' :: rest), state.error, state.null⟩ L
        else parseCookie token >>= fun cookie =>
          loadTokens flag fuel ⟨rest, some (ch :: ascii ' ' :: rest), state.error, state.null⟩
            (put flag L cookie)) = _
      by_cases htoken : token = []
      · rw [if_pos htoken, hnext, List.filter_cons_of_neg (by simp [htoken])]
      · rw [if_neg htoken, List.filter_cons_of_pos (by simp [htoken]), List.mapM_cons]
        cases parseCookie token with
        | error e => rfl
        | ok cookie =>
            rw [ok_bind, ok_bind, hnext]
            cases (tokens.filter (· ≠ [])).mapM parseCookie <;> rfl

/-! ## ヘッダーのクッキー -/

def IsPair (token : Bytes) (c : Cookie) : Prop :=
  ∃ before after, token = before ++ ascii '=' :: after ∧ ascii '=' ∉ before ∧
    c = ⟨trim isSpace before, trim isSpace after⟩ ∧ c.name ≠ []

inductive Reads : List Header → List Cookie → Prop
  | nil : Reads [] []
  | other {it : Header} {headers : List Header} {ps : List Cookie}
      (hname : caselessEqual it.name cookieName = false) (h : Reads headers ps) : Reads (it :: headers) ps
  | cookie {it : Header} {headers : List Header} {tokens : List Bytes} {cs ps : List Cookie}
      (hname : caselessEqual it.name cookieName = true)
      (hsep : Separated (trim isSpace it.value) tokens) (hcs : List.Forall₂ IsPair
      (tokens.filter (· ≠ [])) cs) (h : Reads headers ps) : Reads (it :: headers) (cs ++ ps)

theorem parseCookie_split {before after : Bytes} (h : ascii '=' ∉ before) : parseCookie (before ++ ascii '=' :: after) =
    if trim isSpace before = [] then .error (.emptyName (before ++ ascii '=' :: after))
      else .ok ⟨trim isSpace before, trim isSpace after⟩ := by
  have hpos : (before ++ ascii '=' :: after).idxOf? (ascii '=') = some before.length := by
    rw [List.idxOf?_eq_some_iff]
    refine ⟨by simp, by simp, fun j hj => ?_⟩
    rw [List.getElem_append_left hj]
    exact fun heq => h (heq ▸ List.getElem_mem hj)
  have htake : (before ++ ascii '=' :: after).take before.length = before := List.take_left
  have hdrop : (before ++ ascii '=' :: after).drop (before.length + 1) = after := by
    rw [List.append_cons]
    exact List.drop_left' (by simp)
  rw [parseCookie, hpos]
  dsimp only
  rw [htake, hdrop]
  rfl

theorem parseCookie_eq_ok_iff {token : Bytes} : parseCookie token = .ok c ↔ IsPair token c := by
  constructor
  · intro h
    by_cases hmem : ascii '=' ∈ token
    · obtain ⟨before, after, rfl, hnot⟩ := List.eq_append_cons_of_mem hmem
      rw [parseCookie_split hnot] at h
      split_ifs at h with hne
      exact ⟨before, after, rfl, hnot, (Except.ok.inj h).symm, Except.ok.inj h ▸ hne⟩
    · rw [parseCookie, List.idxOf?_eq_none_iff.mpr hmem] at h
      cases h
  · rintro ⟨before, after, rfl, hnot, rfl, hne⟩
    rw [parseCookie_split hnot, if_neg hne]

theorem mapM_parseCookie_iff {tokens : List Bytes} {cs : List Cookie} :
    tokens.mapM parseCookie = .ok cs ↔ List.Forall₂ IsPair tokens cs := by
  induction tokens generalizing cs with
  | nil =>
      rw [List.mapM_nil, List.forall₂_nil_left_iff]
      exact ⟨fun h => (Except.ok.inj h).symm, fun h => h ▸ rfl⟩
  | cons token tokens ih =>
      rw [List.mapM_cons, List.forall₂_cons_left_iff]
      constructor
      · intro h
        obtain ⟨c, hc, h⟩ := bind_eq_ok.mp h
        obtain ⟨cs', hcs, h⟩ := bind_eq_ok.mp h
        exact ⟨c, cs', parseCookie_eq_ok_iff.mp hc, ih.mp hcs, (Except.ok.inj h).symm⟩
      · rintro ⟨c, cs', hc, hcs, rfl⟩
        rw [parseCookie_eq_ok_iff.mpr hc, ok_bind, ih.mpr hcs]
        rfl

theorem loadHeader_of_ne {it : Header} (hname : caselessEqual it.name cookieName = false) :
    loadHeader flag L it = .ok L := by
  rw [loadHeader, hname]
  rfl

theorem loadHeader_separated {it : Header} {tokens : List Bytes} (hname : caselessEqual it.name cookieName = true)
    (hsep : Separated (trim isSpace it.value) tokens) :
    loadHeader flag L it = ((tokens.filter (· ≠ [])).mapM parseCookie).map fun ps => ps.foldl (put flag) L := by
  rw [loadHeader, hname]
  exact loadTokens_separated hsep rfl (Nat.lt_succ_self _) L

theorem Reads.load {headers : List Header} (h : Reads headers ps) (flag : Bool) (L : List Cookie) :
    loadFromHeaders headers flag L = .ok (ps.foldl (put flag) L) := by
  unfold loadFromHeaders
  induction h generalizing L with
  | nil => rfl
  | other hname _ ih =>
      rw [List.foldlM_cons, loadHeader_of_ne hname]
      exact ih L
  | cookie hname hsep hcs _ ih =>
      rw [List.foldlM_cons, loadHeader_separated hname hsep, mapM_parseCookie_iff.mpr hcs, List.foldl_append]
      exact ih _

theorem exists_reads {headers : List Header} {L' : List Cookie}
    (h : loadFromHeaders headers flag L = .ok L') : ∃ ps, Reads headers ps := by
  unfold loadFromHeaders at h
  induction headers generalizing L with
  | nil => exact ⟨[], .nil⟩
  | cons it headers ih =>
      rw [List.foldlM_cons] at h
      cases hname : caselessEqual it.name cookieName with
      | false =>
          rw [loadHeader_of_ne hname] at h
          obtain ⟨ps, hps⟩ := ih h
          exact ⟨ps, .other hname hps⟩
      | true =>
          obtain ⟨tokens, hsep⟩ := exists_separated (trim isSpace it.value)
          rw [loadHeader_separated hname hsep] at h
          obtain ⟨L₁, hL₁, h⟩ := bind_eq_ok.mp h
          obtain ⟨cs, hcs, hL₁⟩ := bind_eq_ok.mp hL₁
          obtain rfl := Except.ok.inj hL₁
          obtain ⟨ps, hps⟩ := ih h
          exact ⟨cs ++ ps, .cookie hname hsep (mapM_parseCookie_iff.mp hcs) hps⟩

/-! ## 書いた並びを読むこと -/

def Trimmed (s : Bytes) : Prop := trim isSpace s = s

instance : DecidablePred Trimmed := fun _ => inferInstanceAs (Decidable (_ = _))

structure Sendable (L : List Cookie) : Prop where
  distinct : (L.map Cookie.name).Nodup
  nonempty : ∀ c ∈ L, c.name ≠ []
  trimmed : ∀ c ∈ L, Trimmed c.name ∧ Trimmed c.value
  noEquals : ∀ c ∈ L, ascii '=' ∉ c.name
  free : ∀ c ∈ L, Free c.name ∧ Free c.value

def pair (c : Cookie) : Bytes := c.name ++ ascii '=' :: c.value

theorem cookieHeader_eq (L : List Cookie) : cookieHeader L = cookieSeparator.intercalate (L.map pair) := by
  have hloop : ∀ L result, L ≠ [] → cookieHeaderLoop L false result = result ++ cookieSeparator ++
      cookieSeparator.intercalate (L.map pair) := by
    intro L
    induction L with
    | nil => exact fun result h => absurd rfl h
    | cons c L ih =>
        intro result _
        cases L with
        | nil => simp [cookieHeaderLoop, pair]
        | cons c' L =>
            rw [cookieHeaderLoop, ih _ (List.cons_ne_nil _ _), if_neg Bool.false_ne_true,
              List.map_cons (a := c), List.map_cons, List.intercalate_cons_cons]
            simp [pair]
  cases L with
  | nil => rfl
  | cons c L =>
      rw [cookieHeader, cookieHeaderLoop, if_pos rfl, List.nil_append]
      cases L with
      | nil => simp [cookieHeaderLoop, pair]
      | cons c' L =>
          rw [hloop _ _ (List.cons_ne_nil _ _), List.map_cons (a := c), List.map_cons, List.intercalate_cons_cons]
          rfl

theorem pair_ne_nil (c : Cookie) : pair c ≠ [] := by simp [pair]

theorem isPair_pair (hne : c.name ≠ []) (hname : Trimmed c.name) (hvalue : Trimmed c.value)
    (heq : ascii '=' ∉ c.name) : IsPair (pair c) c :=
  ⟨c.name, c.value, rfl, heq, by rw [hname, hvalue], hne⟩

theorem free_pair (hname : Free c.name) (hvalue : Free c.value) : Free (pair c) := by
  have hjoin : ∀ s : Bytes, Free s → Free (s ++ ascii '=' :: c.value) := by
    intro s hs
    induction s with
    | nil => exact free_cons_iff.mpr ⟨hvalue, fun h => absurd h (by decide)⟩
    | cons ch s ih =>
        obtain ⟨hfree, hch⟩ := free_cons_iff.mp hs
        refine free_cons_iff.mpr ⟨ih hfree, fun h => ?_⟩
        cases s with
        | nil => exact fun heq => absurd (Option.some.inj heq) (by decide)
        | cons next s => exact hch h
  exact hjoin c.name hname

theorem separated_pairs (hL : ∀ c ∈ L, Free c.name ∧ Free c.value) :
    Separated (cookieSeparator.intercalate (L.map pair)) (L.map pair) := by
  induction L with
  | nil => exact .done
  | cons c L ih =>
      obtain ⟨hc, hrest⟩ := List.forall_mem_cons.mp hL
      cases L with
      | nil =>
          rw [List.map_singleton, List.intercalate_singleton]
          exact .last (pair_ne_nil c) (free_pair hc.1 hc.2)
      | cons c' L =>
          rw [List.map_cons (a := c), List.map_cons, List.intercalate_cons_cons, ← List.map_cons, List.append_assoc]
          exact .next (free_pair hc.1 hc.2) (.inl rfl) (ih hrest)

theorem trimmed_iff : Trimmed s ↔ (∀ b ∈ s.head?, isSpace b = false) ∧ ∀ b ∈ s.getLast?,
    isSpace b = false := trim_eq_self_iff

theorem Trimmed.join {t : Bytes} (hs : Trimmed s) (ht : Trimmed t) (hsne : s ≠ []) (htne : t ≠ [])
    (m : Bytes) : Trimmed (s ++ m ++ t) := by
  rw [trimmed_iff] at hs ht ⊢
  rw [List.append_assoc, List.head?_append_of_ne_nil _ hsne, ← List.append_assoc, List.getLast?_append_of_ne_nil _ htne]
  exact ⟨hs.1, ht.2⟩

theorem trimmed_pair (hne : c.name ≠ []) (hname : Trimmed c.name) (hvalue : Trimmed c.value) : Trimmed (pair c) := by
  by_cases hv : c.value = []
  · rw [pair, hv, ← List.append_nil c.name, List.append_assoc, ← List.append_assoc]
    exact hname.join (by decide) hne (by simp) []
  · rw [pair, List.append_cons]
    exact hname.join hvalue hne hv _

theorem trimmed_cookieHeader (hL : Sendable L) : Trimmed (cookieHeader L) := by
  have hpairs : ∀ c ∈ L, Trimmed (pair c) :=
    fun c hc => trimmed_pair (hL.nonempty c hc) (hL.trimmed c hc).1 (hL.trimmed c hc).2
  rw [cookieHeader_eq]
  clear hL
  induction L with
  | nil => rfl
  | cons c L ih =>
      obtain ⟨hc, hrest⟩ := List.forall_mem_cons.mp hpairs
      cases L with
      | nil =>
          rw [List.map_singleton, List.intercalate_singleton]
          exact hc
      | cons c' L =>
          have hne : cookieSeparator.intercalate ((c' :: L).map pair) ≠ [] := by
            cases L <;> simp [pair]
          rw [List.map_cons, List.map_cons, List.intercalate_cons_cons, ← List.map_cons]
          exact hc.join (ih hrest) (pair_ne_nil c) hne _

theorem reads_cookieHeader (hL : Sendable L) {name : Bytes}
    (hname : caselessEqual name cookieName = true) : Reads [⟨name, cookieHeader L⟩] L := by
  have htrim : trim isSpace (cookieHeader L) = cookieHeader L := trimmed_cookieHeader hL
  have hsep : Separated (trim isSpace (cookieHeader L)) (L.map pair) := by
    rw [htrim, cookieHeader_eq]
    exact separated_pairs hL.free
  have hfilter : (L.map pair).filter (· ≠ []) = L.map pair := by
    rw [List.filter_eq_self]
    intro t ht
    obtain ⟨c, -, rfl⟩ := List.mem_map.mp ht
    simp [pair]
  have hcs : List.Forall₂ IsPair ((L.map pair).filter (· ≠ [])) L := by
    rw [hfilter, List.forall₂_map_left_iff, List.forall₂_same]
    exact fun c hc => isPair_pair (hL.nonempty c hc) (hL.trimmed c hc).1 (hL.trimmed c hc).2 (hL.noEquals c hc)
  have hreads := @Reads.cookie ⟨name, cookieHeader L⟩ [] _ _ [] hname hsep hcs .nil
  rwa [List.append_nil] at hreads

end UnixCommons.HTTP.CookieList
