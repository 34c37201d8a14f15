import UnixCommons.HTTP.HttpCookie
import UnixCommons.Lib.Assoc
import UnixCommons.String.Lemmas.Tokenizer

/-! # クッキーの送り出しと貯蔵の補題 -/

/-! ## クッキーの送り出しの補題 -/

namespace UnixCommons.HTTP

open Lib String.AsciiStringManip Generics

def joinPairs (list : List CookieDef) : Bytes := cookieSeparator.intercalate (list.map cookiePair)

def sent (url : HTTPAddress) (list : List CookieDef) : List CookieDef := list.filter fun it => !skips url it

variable {url : HTTPAddress} {list : List CookieDef} {it : CookieDef}

theorem joinPairs_cons : joinPairs (it :: list) = cookiePair it ++ (list.map (cookieSeparator ++ cookiePair ·)).flatten := by
  unfold joinPairs
  induction list generalizing it with
  | nil => simp
  | cons next list ih =>
      rw [List.map_cons, List.map_cons, List.intercalate_cons_cons, ← List.map_cons, ih]
      simp

theorem cookieHeaderLoop_false (result : Bytes) :
    cookieHeaderLoop url list false result = result ++ ((sent url list).map (cookieSeparator ++ cookiePair ·)).flatten := by
  induction list generalizing result with
  | nil => simp [cookieHeaderLoop, sent]
  | cons it list ih =>
      rw [cookieHeaderLoop]
      cases hskip : skips url it with
      | true =>
          rw [if_pos rfl, ih]
          simp [sent, hskip]
      | false =>
          rw [if_neg Bool.false_ne_true, if_neg Bool.false_ne_true, ih]
          simp [sent, hskip]

theorem cookieHeader_eq : cookieHeader list url = joinPairs (sent url list) := by
  unfold cookieHeader
  induction list with
  | nil => rfl
  | cons it list ih =>
      rw [cookieHeaderLoop]
      cases hskip : skips url it with
      | true =>
          rw [if_pos rfl, ih]
          simp [sent, hskip]
      | false =>
          rw [if_neg Bool.false_ne_true, if_pos rfl, cookieHeaderLoop_false]
          simp [sent, hskip, joinPairs_cons]

theorem caselessEqual_iff {str₁ str₂ : Bytes} : caselessEqual str₁ str₂ = true ↔ str₁.map toLower = str₂.map toLower := by
  rw [caselessEqual, decide_eq_true_iff]

theorem caselessEqual_drop_iff {host domain : Bytes} :
    (domain.length ≤ host.length ∧
    caselessEqual ((host.drop (host.length - domain.length)).take domain.length) domain = true) ↔
      domain.map toLower <:+ host.map toLower := by
  rw [caselessEqual_iff]
  constructor
  · rintro ⟨hlen, h⟩
    rw [List.take_of_length_le (by rw [List.length_drop]; omega), List.map_drop] at h
    rw [← h]
    exact List.drop_suffix _ _
  · intro h
    have hlen : domain.length ≤ host.length := by simpa using h.length_le
    refine ⟨hlen, ?_⟩
    rw [List.take_of_length_le (by rw [List.length_drop]; omega), List.map_drop]
    have hdrop := List.suffix_iff_eq_drop.mp h
    rw [List.length_map, List.length_map] at hdrop
    exact hdrop.symm

theorem skips_eq_false_iff : skips url it = false ↔
    (it.secure = true → url.secure = true) ∧ it.domain.map toLower <:+ url.parts.host.map toLower ∧
    it.path <+: url.parts.path := by
  rw [← caselessEqual_drop_iff, List.prefix_iff_eq_take]
  unfold skips
  dsimp only
  split
  next h =>
    constructor
    · intro hf
      cases hf
    · rintro ⟨hsec, ⟨hlen, -⟩, -⟩
      rcases h with ⟨hs, hu⟩ | h
      · exact absurd (hsec hs) hu
      · omega
  next h =>
    rw [not_or, not_and, not_not] at h
    split
    next hne =>
      constructor
      · intro hf
        cases hf
      · rintro ⟨-, ⟨-, heq⟩, -⟩
        exact absurd heq hne
    next heq =>
      rw [decide_eq_false_iff_not, ne_eq, not_not, eq_comm]
      exact ⟨fun hp => ⟨h.1, ⟨by omega, not_not.mp heq⟩, hp⟩, fun hp => hp.2.2⟩

end UnixCommons.HTTP

/-! ## クッキーの貯蔵の補題 -/

namespace UnixCommons.HTTP.CookieDefList

open Lib String.AsciiStringManip String.Tokenizer Generics

variable {ε : Type} {env : Env ε} {list list' : List CookieDef} {cookie d : CookieDef} {keep expired : Bool}

def key (cookie : CookieDef) : Bytes × Bytes × Bytes := (cookie.name, cookie.path, cookie.domain.map toLower)

theorem key_eq_iff : key d = key cookie ↔ d.name = cookie.name ∧ d.path = cookie.path ∧
    caselessEqual d.domain cookie.domain = true := by
  rw [key, key, Prod.mk.injEq, Prod.mk.injEq, caselessEqual_iff]

theorem storeLoop_eq (cookie : CookieDef) (erase : Bool) (list : List CookieDef) :
    storeLoop cookie erase list = alterFirst key (key cookie) (if erase then none else some cookie) list := by
  induction list with
  | nil => rfl
  | cons it list ih =>
      have hkey : (caselessEqual it.domain cookie.domain ∧ it.path = cookie.path ∧
          it.name = cookie.name) ↔ key it = key cookie := by
        rw [key_eq_iff]
        tauto
      rw [storeLoop, alterFirst, ih]
      split_ifs <;> first | rfl | tauto

theorem nodup_store (h : (list.map key).Nodup) (keep expired : Bool) (cookie : CookieDef) :
    ((store keep expired list cookie).map key).Nodup := by
  rw [store, storeLoop_eq]
  cases halter : alterFirst key (key cookie) (if (expired && !keep) = true then none else some cookie) list with
  | none =>
      have hnot := alterFirst_eq_none_iff.mp halter
      dsimp only
      split_ifs
      · exact List.nodup_cons.mpr ⟨hnot, h⟩
      · exact h
  | some list' =>
      refine nodup_alterFirst h (fun x hx => ?_) halter
      split_ifs at hx
      · cases hx
      · rw [Option.some.inj hx]

theorem mem_store_expired (h : (list.map key).Nodup) : d ∈ store false true list cookie ↔ d ∈ list ∧ key d ≠ key cookie := by
  rw [store, storeLoop_eq]
  cases halter : alterFirst key (key cookie) (if (true && !false) = true then none else some cookie) list with
  | none =>
      have hnot := alterFirst_eq_none_iff.mp halter
      refine ⟨fun hd => ⟨hd, fun he => hnot (he ▸ List.mem_map_of_mem hd)⟩, And.left⟩
  | some list' =>
      rw [mem_alterFirst h halter]
      exact ⟨fun hd => hd.resolve_left (by simp), .inr⟩

def fieldOf (field : Bytes) : Bytes × Bytes :=
  (trim isSpace (field.takeWhile (· ≠ ascii '=')), trim isSpace ((field.dropWhile (· ≠ ascii '=')).drop 1))

def named (pieces : List Bytes) : List (Bytes × Bytes) := (pieces.map fieldOf).filter (·.1 ≠ [])

def fields (value : Bytes) : List (Bytes × Bytes) := named (value.splitOn (ascii ';')).reverse

def readField (env : Env ε) (state : ParseState) (field : Bytes × Bytes) : Except ε ParseState := do
  let state ← if state.controlInfo then readAttribute env state field.1 field.2 else pure state
  if !state.controlInfo then
    let cookie := { state.cookie with name := field.1, value := field.2 }
    return { state with cookie, list := store env.keepExpired state.expired state.list cookie }
  else
    return state

def sepOf (field : Bytes) : Option Nat :=
  if ascii '=' ∈ field then some ((field.dropWhile (· ≠ ascii '=')).length - 1) else none

theorem sepOf_cons (ch : UInt8) (field : Bytes) : sepOf (ch :: field) = if ch = ascii '='
    then some field.length else sepOf field := by
  unfold sepOf
  by_cases hch : ch = ascii '='
  · simp [hch]
  · rw [if_neg hch, List.dropWhile_cons_of_pos (by simpa using hch)]
    simp [Ne.symm hch]

theorem split_field {before after : Bytes} (h : ascii '=' ∉ before) :
    (before ++ ascii '=' :: after).takeWhile (· ≠ ascii '=') = before ∧
    (before ++ ascii '=' :: after).dropWhile (· ≠ ascii '=') = ascii '=' :: after := by
  have hbefore : ∀ b ∈ before, decide (b ≠ ascii '=') = true := fun b hb => decide_eq_true fun he => h (he ▸ hb)
  rw [List.takeWhile_append_of_pos hbefore, List.dropWhile_append_of_pos hbefore]
  simp

theorem parseValue_eq (env : Env ε) (state : ParseState) (field : Bytes) :
    parseValue env state field (sepOf field) = if (fieldOf field).1 = [] then pure state
      else readField env state (fieldOf field) := by
  by_cases hmem : ascii '=' ∈ field
  · obtain ⟨before, after, rfl, hnot⟩ := List.eq_append_cons_of_mem hmem
    obtain ⟨htake, hdrop⟩ := split_field hnot
    have hlen : (before ++ ascii '=' :: after).length = before.length + 1 + after.length := by
      rw [List.length_append, List.length_cons]
      omega
    have hname : (before ++ ascii '=' :: after).take
        ((before ++ ascii '=' :: after).length - after.length - 1) = before := by
      rw [hlen, Nat.add_sub_cancel, Nat.add_sub_cancel]
      exact List.take_left
    have hvalue : (before ++ ascii '=' :: after).drop ((before ++ ascii '=' :: after).length - after.length) = after := by
      rw [hlen, Nat.add_sub_cancel, List.append_cons]
      exact List.drop_left' (by simp)
    have hsep : sepOf (before ++ ascii '=' :: after) = some after.length := by
      rw [sepOf, if_pos hmem, hdrop]
      rfl
    have hfield : fieldOf (before ++ ascii '=' :: after) = (trim isSpace before, trim isSpace after) := by
      rw [fieldOf, htake, hdrop]
      rfl
    unfold parseValue
    rw [hsep, hfield]
    dsimp only
    rw [hname, hvalue]
    rfl
  · have hall : ∀ b ∈ field, decide (b ≠ ascii '=') = true := fun b hb => decide_eq_true fun he => hmem (he ▸ hb)
    have htake : field.takeWhile (· ≠ ascii '=') = field := List.takeWhile_eq_self_iff.mpr hall
    have hdrop : field.dropWhile (· ≠ ascii '=') = [] := List.dropWhile_eq_nil_iff.mpr hall
    have hfield : fieldOf field = (trim isSpace field, []) := by
      rw [fieldOf, htake, hdrop]
      rfl
    unfold parseValue
    rw [sepOf, if_neg hmem, hfield]
    rfl

theorem parseValue_first (env : Env ε) {first : Bool} {field : Bytes}
    (hfirst : first = true → field = []) (state : ParseState) :
    (if !first then parseValue env state field (sepOf field) else pure state) =
    (named [field]).foldlM (readField env) state := by
  have hread : (if (fieldOf field).1 = [] then pure state else readField env state
      (fieldOf field)) = (named [field]).foldlM (readField env) state := by
    rw [named, List.map_singleton]
    by_cases hname : (fieldOf field).1 = []
    · rw [if_pos hname, List.filter_cons_of_neg (by simpa using hname)]
      rfl
    · rw [if_neg hname, List.filter_cons_of_pos (by simpa using hname), List.filter_nil, List.foldlM_cons]
      exact (bind_pure _).symm
  rw [← hread]
  cases first with
  | false => exact parseValue_eq env state field
  | true =>
      obtain rfl := hfirst rfl
      rfl

theorem scanLoop_eq (env : Env ε) {s field : Bytes} {first : Bool} (hfield : ascii ';' ∉ field)
    (hfirst : first = true → field = [])
    (state : ParseState) : scanLoop env s.reverse first field
    (sepOf field) state = (fields (s ++ field)).foldlM (readField env) state := by
  have hone : field.splitOn (ascii ';') = [field] := List.splitOn_eq_singleton hfield
  induction s using List.reverseRecOn generalizing field first state with
  | nil =>
      rw [List.reverse_nil, scanLoop, fields, List.nil_append, hone]
      exact parseValue_first env hfirst state
  | append_singleton s ch ih =>
      rw [List.reverse_append, List.reverse_singleton, List.singleton_append, scanLoop,
        List.append_assoc, List.singleton_append]
      by_cases hch : ch = ascii ';'
      · subst hch
        have hfields : fields (s ++ ascii ';' :: field) = named [field] ++ fields s := by
          rw [fields, List.splitOn_append_cons_self, hone, List.reverse_append, named, List.map_append, List.filter_append]
          rfl
        have hrest : ∀ state, scanLoop env s.reverse false [] none state = (fields s).foldlM (readField env) state := by
          intro state
          have hnext := @ih [] false List.not_mem_nil (fun _ => rfl) state rfl
          rwa [List.append_nil] at hnext
        rw [if_pos rfl, hfields, List.foldlM_append, ← parseValue_first env hfirst]
        cases first <;> simp [hrest]
      · have hfield' : ascii ';' ∉ ch :: field := by
          rw [List.mem_cons, not_or]
          exact ⟨Ne.symm hch, hfield⟩
        rw [if_neg hch, ← sepOf_cons]
        exact ih hfield' (fun h => absurd h Bool.false_ne_true) state (List.splitOn_eq_singleton hfield')

def isAttribute (field : Bytes × Bytes) : Bool :=
  caselessEqual field.1 secureName || caselessEqual field.1 pathName ||
    caselessEqual field.1 domainName || caselessEqual field.1 expiresName

def attributes (value : Bytes) : List (Bytes × Bytes) := (fields value).takeWhile isAttribute

def definitions (value : Bytes) : List (Bytes × Bytes) := (fields value).dropWhile isAttribute

def lastValue (name : Bytes) (attrs : List (Bytes × Bytes)) : Option Bytes :=
  (attrs.reverse.find? fun field => caselessEqual field.1 name).map Prod.snd

def pathOf (url : HTTPAddress) (attrs : List (Bytes × Bytes)) : Bytes :=
  let path := (lastValue pathName attrs).getD []
  if path = [] then url.parts.path else if path = [ascii '\\'] then slashPath else path

def domainOf (url : HTTPAddress) (attrs : List (Bytes × Bytes)) : Bytes :=
  let domain := (lastValue domainName attrs).getD []
  if domain = [] ∨ domain = [ascii '.'] then url.parts.host else domain

def Expired (env : Env ε) (attrs : List (Bytes × Bytes)) : Prop :=
  ∃ text ∈ lastValue expiresName attrs, ∃ expires, env.getExpires text = .ok expires ∧ expires.less env.now = true

variable {attrs defs : List (Bytes × Bytes)} {field : Bytes × Bytes} {state state' : ParseState} {name : Bytes}

theorem lastValue_concat : lastValue name (attrs ++ [field]) = if caselessEqual field.1 name
    then some field.2 else lastValue name attrs := by
  rw [lastValue, List.reverse_append, List.reverse_singleton, List.singleton_append, List.find?_cons]
  cases caselessEqual field.1 name <;> rfl

theorem caselessEqual_other {str name' : Bytes} (h : caselessEqual str name = true)
    (hne : name.map toLower ≠ name'.map toLower) : caselessEqual str name' = false :=
  Bool.eq_false_of_not_eq_true fun h' => hne ((caselessEqual_iff.mp h).symm.trans (caselessEqual_iff.mp h'))

structure Scanned (env : Env ε) (list : List CookieDef) (attrs : List (Bytes × Bytes)) (state : ParseState) : Prop where
  list : state.list = list
  controlInfo : state.controlInfo = true
  path : state.cookie.path = (lastValue pathName attrs).getD []
  domain : state.cookie.domain = (lastValue domainName attrs).getD []
  expired : state.expired = true ↔ Expired env attrs

theorem Expired.concat (hname : caselessEqual field.1 expiresName = false) :
    Expired env (attrs ++ [field]) ↔ Expired env attrs := by
  unfold Expired
  rw [lastValue_concat, hname, if_neg Bool.false_ne_true]

theorem Expired.concat_expires (hname : caselessEqual field.1 expiresName = true) {expires : Time}
    (hget : env.getExpires field.2 = .ok expires) :
    Expired env (attrs ++ [field]) ↔ expires.less env.now = true := by
  unfold Expired
  rw [lastValue_concat, if_pos hname]
  constructor
  · rintro ⟨text, htext, expires', hget', hless⟩
    obtain rfl := Option.some.inj htext
    obtain rfl := Except.ok.inj (hget.symm.trans hget')
    exact hless
  · exact fun hless => ⟨field.2, rfl, expires, hget, hless⟩

theorem readField_attribute (h : state.controlInfo = true) (ha : isAttribute field = true) :
    readField env state field = readAttribute env state field.1 field.2 := by
  unfold readField readAttribute
  rw [if_pos h]
  split_ifs with hsecure hpath hdomain hexpires
  · simp [h]
  · simp [h]
  · simp [h]
  · cases env.getExpires field.2 with
    | error e => rfl
    | ok expires =>
        simp [h]
        rfl
  · rw [isAttribute, Bool.or_eq_true, Bool.or_eq_true, Bool.or_eq_true] at ha
    tauto

theorem Scanned.step (h : Scanned env list attrs state) (ha : isAttribute field = true)
    (hread : readField env state field = .ok state') :
    Scanned env list (attrs ++ [field]) state' := by
  rw [readField_attribute h.controlInfo ha, readAttribute] at hread
  split_ifs at hread with hsecure hpath hdomain hexpires
  · obtain rfl := Except.ok.inj hread
    have hp := caselessEqual_other hsecure (show _ ≠ pathName.map toLower by decide)
    have hd := caselessEqual_other hsecure (show _ ≠ domainName.map toLower by decide)
    have he := caselessEqual_other hsecure (show _ ≠ expiresName.map toLower by decide)
    exact ⟨h.list, h.controlInfo, by rw [lastValue_concat, hp]; exact h.path, by rw [lastValue_concat, hd]; exact h.domain,
      h.expired.trans (Expired.concat he).symm⟩
  · obtain rfl := Except.ok.inj hread
    have hd := caselessEqual_other hpath (show _ ≠ domainName.map toLower by decide)
    have he := caselessEqual_other hpath (show _ ≠ expiresName.map toLower by decide)
    exact ⟨h.list, h.controlInfo, by rw [lastValue_concat, if_pos hpath]; rfl, by rw [lastValue_concat, hd]; exact h.domain,
      h.expired.trans (Expired.concat he).symm⟩
  · obtain rfl := Except.ok.inj hread
    have hp := caselessEqual_other hdomain (show _ ≠ pathName.map toLower by decide)
    have he := caselessEqual_other hdomain (show _ ≠ expiresName.map toLower by decide)
    exact ⟨h.list, h.controlInfo, by rw [lastValue_concat, hp]; exact h.path, by rw [lastValue_concat, if_pos hdomain]; rfl,
      h.expired.trans (Expired.concat he).symm⟩
  · obtain ⟨expires, hget, hread⟩ := bind_eq_ok.mp hread
    obtain rfl := Except.ok.inj hread
    have hp := caselessEqual_other hexpires (show _ ≠ pathName.map toLower by decide)
    have hd := caselessEqual_other hexpires (show _ ≠ domainName.map toLower by decide)
    exact ⟨h.list, h.controlInfo, by rw [lastValue_concat, hp]; exact h.path, by rw [lastValue_concat, hd]; exact h.domain,
      (Expired.concat_expires hexpires hget).symm⟩
  · rw [isAttribute, Bool.or_eq_true, Bool.or_eq_true, Bool.or_eq_true] at ha
    tauto

theorem scanned_foldlM (h : Scanned env list [] state) (ha : ∀ field ∈ attrs, isAttribute field = true)
    (hread : attrs.foldlM (readField env) state = .ok state') : Scanned env list attrs state' := by
  induction attrs using List.reverseRecOn generalizing state' with
  | nil =>
      obtain rfl := Except.ok.inj hread
      exact h
  | append_singleton attrs field ih =>
      rw [List.foldlM_append] at hread
      obtain ⟨state₁, hattrs, hread⟩ := bind_eq_ok.mp hread
      rw [List.foldlM_cons] at hread
      rw [List.forall_mem_append] at ha
      exact (ih ha.1 hattrs).step (ha.2 field List.mem_cons_self) ((bind_pure _).symm.trans hread)

def putField (keep expired : Bool) (cookie : CookieDef) (list : List CookieDef) (field : Bytes × Bytes) : List CookieDef :=
  store keep expired list { cookie with name := field.1, value := field.2 }

theorem foldlM_definitions (h : state.controlInfo = false) (defs : List (Bytes × Bytes)) :
    ∃ state', defs.foldlM (readField env) state = .ok state' ∧
    state'.list = defs.foldl (putField env.keepExpired state.expired state.cookie) state.list := by
  induction defs generalizing state with
  | nil => exact ⟨state, rfl, rfl⟩
  | cons field defs ih =>
      have hread : readField env state field = .ok { state with
          cookie := { state.cookie with name := field.1, value := field.2 }
          list := putField env.keepExpired state.expired state.cookie state.list field } := by
        simp [readField, h, putField]
        rfl
      obtain ⟨state', hrest, hlist⟩ := @ih { state with
          cookie := { state.cookie with name := field.1, value := field.2 }
          list := putField env.keepExpired state.expired state.cookie state.list field } h
      exact ⟨state', by rw [List.foldlM_cons, hread, ok_bind, hrest], hlist⟩

theorem readField_definition (h : state.controlInfo = true) (ha : isAttribute field = false) :
    readField env state field = readField env
      { state with cookie := fillDefaults env.url state.cookie, controlInfo := false } field := by
  have hread : readAttribute env state field.1 field.2 =
      .ok { state with cookie := fillDefaults env.url state.cookie, controlInfo := false } := by
    rw [isAttribute, Bool.or_eq_false_iff, Bool.or_eq_false_iff, Bool.or_eq_false_iff] at ha
    simp [readAttribute, ha]
    rfl
  unfold readField
  rw [if_pos h, hread]
  rfl

theorem fillDefaults_path (url : HTTPAddress) (cookie : CookieDef) : (fillDefaults url cookie).path =
    if cookie.path = [] then url.parts.path else if cookie.path = [ascii '\\'] then slashPath else cookie.path := by
  unfold fillDefaults
  dsimp only
  split_ifs <;> rfl

theorem fillDefaults_domain (url : HTTPAddress) (cookie : CookieDef) : (fillDefaults url cookie).domain =
    if cookie.domain = [] ∨ cookie.domain = [ascii '.'] then url.parts.host else cookie.domain := by
  unfold fillDefaults
  dsimp only
  split_ifs <;> rfl

structure Shares (url : HTTPAddress) (attrs : List (Bytes × Bytes)) (cookie : CookieDef) : Prop where
  path : cookie.path = pathOf url attrs
  domain : cookie.domain = domainOf url attrs

theorem loadHeader_of_ne {it : Header} (hname : caselessEqual it.name setCookieName = false) :
    loadHeader env list it = .ok list := by
  rw [loadHeader, hname]
  rfl

theorem loadHeader_eq {it : Header} (hname : caselessEqual it.name setCookieName = true) : loadHeader env list it =
    (((attributes it.value).foldlM (readField env) ⟨list, ⟨[], [], [], [], Time.zero, env.url.secure⟩, true, false⟩ >>=
      (definitions it.value).foldlM (readField env)).map ParseState.list) := by
  have hscan := @scanLoop_eq _ env it.value [] true List.not_mem_nil (fun _ => rfl)
      ⟨list, ⟨[], [], [], [], Time.zero, env.url.secure⟩, true, false⟩
  rw [List.append_nil, ← List.takeWhile_append_dropWhile (p := isAttribute) (l := fields it.value),
    List.foldlM_append] at hscan
  rw [loadHeader, hname, attributes, definitions, ← hscan]
  rfl

theorem loadHeader_eq_ok {it : Header} (hname : caselessEqual it.name setCookieName = true)
    (hload : loadHeader env list it = .ok list') :
    ∃ cookie expired, Shares env.url (attributes it.value) cookie ∧ (expired = true ↔ Expired env (attributes it.value)) ∧
      list' = (definitions it.value).foldl (putField env.keepExpired expired cookie) list := by
  rw [loadHeader_eq hname] at hload
  have hinit : Scanned env list [] ⟨list, ⟨[], [], [], [], Time.zero, env.url.secure⟩, true, false⟩ := by
    refine ⟨rfl, rfl, rfl, rfl, iff_of_false Bool.false_ne_true ?_⟩
    rintro ⟨text, htext, -⟩
    cases htext
  obtain ⟨final, hread, hload⟩ := bind_eq_ok.mp hload
  obtain rfl : final.list = list' := Except.ok.inj hload
  obtain ⟨state, hattrs, hdefs'⟩ := bind_eq_ok.mp hread
  have hstate := scanned_foldlM hinit (fun field hfield => List.mem_takeWhile_imp hfield) hattrs
  have hshares : Shares env.url (attributes it.value) (fillDefaults env.url state.cookie) :=
    ⟨by rw [fillDefaults_path, hstate.path]; rfl, by rw [fillDefaults_domain, hstate.domain]; rfl⟩
  refine ⟨fillDefaults env.url state.cookie, state.expired, hshares, hstate.expired, ?_⟩
  have hhead := List.head_dropWhile_not isAttribute (l := fields it.value)
  change ∀ h, isAttribute ((definitions it.value).head h) = false at hhead
  cases hdefs : definitions it.value with
  | nil =>
      rw [hdefs] at hdefs'
      rw [← Except.ok.inj hdefs']
      exact hstate.list
  | cons field defs =>
      simp only [hdefs, List.head_cons] at hhead
      obtain ⟨state', hrun, hlist⟩ := @foldlM_definitions _ env
        { state with cookie := fillDefaults env.url state.cookie, controlInfo := false } rfl
        (field :: defs)
      rw [List.foldlM_cons,
        ← readField_definition hstate.controlInfo (hhead (List.cons_ne_nil _ _)), ← List.foldlM_cons] at hrun
      rw [hdefs, hrun] at hdefs'
      rw [← Except.ok.inj hdefs', ← hstate.list]
      exact hlist

theorem nodup_foldl_putField (h : (list.map key).Nodup) (defs : List (Bytes × Bytes)) :
    ((defs.foldl (putField keep expired cookie) list).map key).Nodup := by
  induction defs generalizing list with
  | nil => exact h
  | cons field defs ih => exact ih (nodup_store h keep expired _)

theorem mem_foldl_putField_expired (h : (list.map key).Nodup) (defs : List (Bytes × Bytes)) :
    d ∈ defs.foldl (putField false true cookie) list ↔ d ∈ list ∧ ∀ field ∈ defs, key d ≠ key
      { cookie with name := field.1, value := field.2 } := by
  induction defs generalizing list with
  | nil => simp
  | cons field defs ih =>
      have hnodup : ((putField false true cookie list field).map key).Nodup := nodup_store h false true _
      rw [List.foldl_cons, ih hnodup, putField, mem_store_expired h, List.forall_mem_cons, and_assoc]

theorem nodup_loadHeader {it : Header} (h : (list.map key).Nodup)
    (hload : loadHeader env list it = .ok list') : (list'.map key).Nodup := by
  cases hname : caselessEqual it.name setCookieName with
  | false =>
      rw [loadHeader_of_ne hname] at hload
      rwa [← Except.ok.inj hload]
  | true =>
      obtain ⟨cookie, expired, -, -, rfl⟩ := loadHeader_eq_ok hname hload
      exact nodup_foldl_putField h _

theorem nodup_loadFromHeaders {headers : List Header} (h : (list.map key).Nodup)
    (hload : loadFromHeaders env headers list = .ok list') : (list'.map key).Nodup :=
  foldlM_invariant (P := fun list => (list.map key).Nodup) h hload fun _ _ _ => nodup_loadHeader

end UnixCommons.HTTP.CookieDefList
