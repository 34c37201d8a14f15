import UnixCommons.HTTP.Lemmas.IdnaHost
import UnixCommons.HTTP.Lemmas.NormalizeAddress

/-!
# アドレスの正規化の定理
-/

namespace UnixCommons.HTTP

open Lib Lib.Uri String.AsciiStringManip String.Punycode

/-- 正規形。経路があり、利用者、ポート、断片がなく、英大文字と、書かずに済む文字の符号がない。 -/
structure NormalForm (n : Bytes) : Prop where
  path : (splitResult n).path ≠ []
  userinfo : (splitResult n).hasUserinfo = false ∧ (splitResult n).userinfo = []
  port : (splitResult n).hasPort = false ∧ (splitResult n).port = []
  fragment : (splitResult n).hasFragment = false ∧ (splitResult n).fragment = []
  lower : ∀ b ∈ n, ¬ (0x41 ≤ b.toNat ∧ b.toNat ≤ 0x5A)
  host : ascii '%' ∉ (splitResult n).host
  escapes : NoLegalEscape pathChars (splitResult n).path ∧ NoLegalEscape queryChars (splitResult n).query

variable {lowerAndNormalize : List Nat → Bool → Option (List Nat)} {url n host path query : Bytes} {a : HTTPAddress}

theorem normalParts_valid {parts : UrlParts} (hv : parts.Valid) (hhost : parts.host ≠ [])
    (hpath : Unmimed pathChars path) (hquery : Unmimed queryChars query)
    (hs : ∃ rest, path = ascii '/' :: rest) : (normalParts parts.host path query).Valid where
  scheme hnil := absurd hnil (show httpScheme ≠ [] by decide)
  schemeChars := by
    intro ch rest he
    obtain ⟨rfl, rfl⟩ := List.cons.inj (show ascii 'h' :: List.map ascii ['t', 't', 'p'] = ch :: rest from he)
    decide
  userinfo := .nil
  hostSize := hv.hostSize
  host := hv.host
  labels := hv.labels
  noHost hnil := absurd hnil hhost
  port := rfl
  path := hpath.encoded
  start := by
    intro _
    obtain ⟨rest, rfl⟩ := hs
    show (if parts.host ≠ [] then decide ((ascii '/' :: rest).head? ≠ some (ascii '/')) else _) = false
    rw [if_pos hhost]
    simp
  query := hquery.encoded
  fragment := .nil

theorem normal_of_normalize (hascii : LowersAscii lowerAndNormalize) (hp : PlainHost (splitResult (target false url)).host)
    (h : normalizeHttpAddress lowerAndNormalize url = .ok n) (hn : n ≠ []) :
    ∃ host path query, Normal host path query ∧ path ≠ [] ∧ n = assembleUrl (normalParts host path query) := by
  obtain ⟨a, path, query, ha, hport, hup, huq, he⟩ := normalizeHttpAddress_spec h hn
  have hne : url ≠ [] := by
    rintro rfl
    obtain rfl := Except.ok.inj ha
    exact absurd hport (by decide)
  obtain ⟨hosts, number, hidna, hweb, hv, -, rfl⟩ := (ofUrl_browser hne).mp ha
  obtain ⟨rfl, hnil, hsize, hlabels⟩ := (idnaNormalizeHost_plain hp hascii).mp hidna
  generalize target false url = url at *
  generalize hhost : (splitResult url).host.map toLower = host at *
  generalize hq : browserParts url host = parts at *
  have hph : parts.host = host := by
    rw [← hq]
    rfl
  have hhostne : parts.host ≠ [] := by
    rw [hph]
    exact hweb.2
  have hah : (withDefaultPath (adjusted parts)).host = parts.host := by
    unfold withDefaultPath
    split <;> rfl
  have haq : (withDefaultPath (adjusted parts)).query = parts.query := by
    unfold withDefaultPath
    split <;> rfl
  dsimp only [finished] at hup huq he
  rw [haq] at huq
  obtain ⟨hencoded, rest, hrest⟩ := withDefaultPath_path hv hhostne
  obtain ⟨text, htext, hpathn⟩ := unmime_encoded foldable_path hencoded
  obtain rfl := Except.ok.inj (htext.symm.trans hup)
  obtain ⟨text', htext', hqueryn⟩ := unmime_encoded foldable_query hv.query
  obtain rfl := Except.ok.inj (htext'.symm.trans huq)
  have hslash : ∃ rest, text = ascii '/' :: rest := by
    rw [hrest] at htext
    obtain ⟨tail, ht⟩ := unmime_head (by decide) htext
    exact ⟨tail, ht⟩
  have hlower : ∀ b ∈ host, toLower b = b := by
    rw [← hhost]
    intro b hb
    obtain ⟨c, -, rfl⟩ := List.mem_map.mp hb
    exact toLower_toLower c
  have hvalid := normalParts_valid hv hhostne hpathn hqueryn hslash
  refine ⟨parts.host, text, text', ⟨hvalid, ?_, ?_, hhostne, ?_, ?_, hpathn, hqueryn⟩, ?_, ?_⟩
  · rw [hph, ← hhost]
    exact hp.lower
  · rw [hph]
    exact hlower
  · rw [hph, ← hhost, List.length_map]
    exact hsize
  · rw [hph, ← hhost, tokens_lower]
    intro label hlabel
    obtain ⟨l, hl, rfl⟩ := List.mem_map.mp hlabel
    rw [List.length_map]
    exact ⟨by simpa using (hlabels l hl).1, (hlabels l hl).2⟩
  · obtain ⟨tail, rfl⟩ := hslash
    exact List.cons_ne_nil _ _
  · rw [he, hah, assembleUrl_normalParts hhostne, hph, map_toLower_eq hlower]

theorem Normal.normalForm (h : Normal host path query) (hpath : path ≠ []) :
    NormalForm (assembleUrl (normalParts host path query)) := by
  have hc : (normalParts host path query).Consistent := UrlParts.of_consistent _ _ _ _ _ _ _
  have hscheme : httpScheme ≠ [] := by decide
  have hcons := splitResult_consistent (assembleUrl (normalParts host path query))
  have hstored := urlComponents_assembleUrl hc h.valid fun hcolon => hscheme hcolon.1
  obtain ⟨q, hq, hqv, h₁, h₂, h₃, h₄, h₅, h₆, h₇⟩ := splitResult_assembleUrl hc h.valid hscheme
  have hfragment : (splitResult (assembleUrl (normalParts host path query))).hasFragment = false := by
    obtain ⟨hasPath, userinfo, host', port, he, -⟩ := splitResult_eq (assembleUrl (normalParts host path query))
    rw [he, hstored]
    rfl
  have hlower : ∀ b : UInt8, toLower b = b → ¬ (0x41 ≤ b.toNat ∧ b.toNat ≤ 0x5A) := fun b hb => hb ▸ toLower_not_upper b
  rw [hq] at hfragment hcons
  refine ⟨?_, ?_, ?_, ?_, ?_, ?_, ?_⟩
  · rw [hq, h₅]
    exact hpath
  · rw [hq]
    exact ⟨by rw [hcons.userinfo, h₂]; rfl, h₂⟩
  · rw [hq]
    exact ⟨by rw [hcons.port, h₄]; rfl, h₄⟩
  · rw [hq]
    exact ⟨hfragment, h₇⟩
  · intro b hb
    apply hlower b
    have hprefix : ∀ c ∈ httpPrefix ++ [ascii '/', ascii '/'], toLower c = c := forall_mem_bytes (by decide)
    rw [assembleUrl_normalParts h.nonempty, List.mem_append, List.mem_append, List.mem_append] at hb
    rcases hb with ((hb | hb) | hb) | hb
    · exact hprefix b hb
    · exact h.lower b hb
    · exact h.path.lower b hb
    · split at hb
      · rcases List.mem_cons.mp hb with rfl | hb
        · decide
        · exact h.query.lower b hb
      · cases hb
  · rw [hq, h₃]
    intro hb
    have hchar := isValidChars_iff.mp h.valid.host _ hb
    exact absurd hchar (by decide)
  · rw [hq, h₅, h₆]
    exact ⟨h.path.noLegalEscape foldable_path, h.query.noLegalEscape foldable_query⟩

theorem unmime_browser (h : HTTPAddress.ofUrl lowerAndNormalize .browser url = .ok a) :
    ∃ path query, unmime pathChars a.parts.path = .ok path ∧ unmime queryChars a.parts.query = .ok query := by
  by_cases hne : url = []
  · subst hne
    obtain rfl := Except.ok.inj h
    exact ⟨[], [], rfl, rfl⟩
  · obtain ⟨hosts, number, -, hweb, hv, -, rfl⟩ := (ofUrl_browser hne).mp h
    obtain ⟨hencoded, -⟩ := withDefaultPath_path hv hweb.2
    obtain ⟨path, hpath, -⟩ := unmime_encoded foldable_path hencoded
    obtain ⟨query, hquery, -⟩ := unmime_encoded foldable_query hv.query
    refine ⟨path, query, hpath, ?_⟩
    rw [← hquery]
    dsimp only [finished]
    unfold withDefaultPath
    split <;> rfl

theorem normalize_http_address_normal (lowerAndNormalize : List Nat → Bool → Option (List Nat))
    (hascii : LowersAscii lowerAndNormalize) :
    (∀ url n, PlainHost (splitResult (target false url)).host → normalizeHttpAddress lowerAndNormalize url = .ok n → n ≠ [] →
      normalizeHttpAddress lowerAndNormalize n = .ok n ∧ NormalForm n) ∧
    (∀ url a, HTTPAddress.ofUrl lowerAndNormalize .browser url = .ok a →
      ∃ path query, unmime pathChars a.parts.path = .ok path ∧ unmime queryChars a.parts.query = .ok query) := by
  refine ⟨?_, fun _ _ h => unmime_browser h⟩
  intro url n hp h hn
  obtain ⟨host, path, query, hnormal, hpath, rfl⟩ := normal_of_normalize hascii hp h hn
  exact ⟨normalizeHttpAddress_normal hascii hnormal hpath, hnormal.normalForm hpath⟩

theorem normalize_http_address_normal_upper :
    let lower : List Nat → Bool → Option (List Nat) := fun w _ => some (w.map lowerCode)
    let n := List.map ascii ['h', 't', 't', 'p', ':', '/', '/', 'h', '/', 'a', '?', '%', '2', '3']
    normalizeHttpAddress lower n = .ok n ∧ NormalForm n :=
  (normalize_http_address_normal _ fun w _ w' h => (Option.some.inj h).symm).1
    (List.map ascii ['H', '/', '%', '4', '1', '?', '%', '2', '3']) _
    ⟨by decide +kernel, by decide +kernel⟩ (by decide +kernel) (by decide)

/-! ## ホストの国際化

`after` は、ホストの後のバイトである。ホストの外を読まないことは、結果が `after` によらないことで述べる。`decodeHost` の `n` 回のループの
後の文字が、その時までに書かれた広い文字である。
-/

def SoundHost (lowerAndNormalize : List Nat → Bool → Option (List Nat)) (host after : Bytes) : Prop :=
  ∀ normalized, Normalises lowerAndNormalize host after normalized → ¬ AsciiLabels host →
    ∀ label ∈ tokens labelSeparator.toNat [] normalized, Sound lowerAndNormalize label

theorem idna_normalize_host_converts (hL : NulFree lowerAndNormalize) (host after : Bytes) :
    (Complete host → idnaNormalizeHost lowerAndNormalize host after = idnaNormalizeHost lowerAndNormalize host []) ∧
      (host.length < maxHostnameSize → ∀ n whost hasUnicode, decodeHost host after n host
      [] false = .ok (whost, hasUnicode) →
        whost.length ≤ 254) ∧
      (AsciiLabels host → host ≠ [] → host.length < maxHostnameSize →
        idnaNormalizeHost lowerAndNormalize host after = .ok ⟨host.map toLower, host.map toLower⟩) ∧
      (SoundHost lowerAndNormalize host after → Returns (idnaNormalizeHost lowerAndNormalize host after)
        (fun hosts => ∃ normalized, Normalises lowerAndNormalize host after normalized ∧
        Converted normalized hosts) Thrown) := by
  refine ⟨fun hcomplete => ?_, fun hlen n whost hasUnicode h => ?_, idnaNormalizeHost_asciiLabels,
    idnaNormalizeHost_returns hL⟩
  · rw [idnaNormalizeHost, idnaNormalizeHost, decodeHost_complete hcomplete]
  · have hwritten := length_decodeHost h
    rw [List.length_nil, Nat.zero_add] at hwritten
    exact hwritten.trans (Nat.le_of_lt_succ hlen)

/-- 大文字を小文字にし、`。` を `.` にする。NUL のある文字列では失敗する。 -/
def lowerStop (w : List Nat) (_ : Bool) : Option (List Nat) :=
  if 0 ∈ w then none else some (w.map fun ch => if ch = 0x3002 then labelSeparator.toNat else lowerCode ch)

theorem nulFree_lowerStop : NulFree lowerStop := by
  intro w b normalized h
  unfold lowerStop at h
  split_ifs at h with hzero
  · cases h
  obtain rfl := Option.some.inj h
  rw [List.mem_map]
  rintro ⟨ch, hch, heq⟩
  split_ifs at heq
  · cases heq
  · unfold lowerCode at heq
    split_ifs at heq
    exact hzero (heq ▸ hch)

theorem idna_normalize_host_converts_accent :
    let host : Bytes := [0xC3, 0xA9, ascii '.', ascii 'A']
    idnaNormalizeHost lowerStop host
      [] = .ok ⟨List.map ascii ['x', 'n', '-', '-', '9', 'c', 'a', '.', 'a'], [0xC3, 0xA9, ascii '.', ascii 'a']⟩ ∧
      Returns (idnaNormalizeHost lowerStop host []) (fun hosts => ∃ normalized,
      Normalises lowerStop host [] normalized ∧ Converted normalized hosts)
        Thrown := by
  intro host
  have hdecode : decodeHost host [] host.length host [] false = .ok ([0xE9, 0x2E, 0x41], true) := by decide +kernel
  have hencode : punycodeEncode [0xE9] = .ok (some (List.map ascii ['9', 'c', 'a'])) := by decide +kernel
  refine ⟨by decide +kernel, (idna_normalize_host_converts nulFree_lowerStop host []).2.2.2 ?_⟩
  intro normalized hnormal hnot label hlabel
  obtain ⟨whost, hasUnicode, hrun, hlower⟩ := hnormal.other hnot
  obtain ⟨rfl, -⟩ := Prod.mk.inj (Except.ok.inj (hrun.symm.trans hdecode))
  obtain rfl := Option.some.inj hlower
  have htokens : label = [0xE9] ∨ label = [0x61] := by simpa using (show label ∈ [[0xE9], [0x61]] from hlabel)
  rcases htokens with rfl | rfl
  · exact sound_of_not_decodes (fun h => absurd h.ascii (by decide)) (by decide) fun _ f h => by cases hencode.symm.trans h
  · exact sound_of_not_decodes (fun h => absurd h.starts (by decide)) (by decide) fun h => absurd h.foreign (by decide)

def replaced (w : List Nat) (idna2008 : Bool) : Option (List Nat) :=
  if w = [0xE9] then some (if idna2008 then [2 ^ 31 - 1] else [2 ^ 31, 0x100])
  else if w = [0xE8] then some [2 ^ 31 + labelSeparator.toNat]
  else if 0 ∈ w then none else some w

/-- 長すぎるラベルは誤りである。途中で終わる文字の後は読まれ、`99999999` の復号は範囲を出て、復号したラベルの `。` は区切りになる。
残りの三つは、負の文字と最大の文字である。 -/
theorem idna_normalize_host_converts_fails :
    idnaNormalizeHost lowerStop (List.replicate 64 (ascii 'a')) [] =
      .error (.error (.labelTooLarge (List.replicate 64 0x61) (List.replicate 64 (ascii 'a')))) ∧
    idnaNormalizeHost lowerStop [0xC3] [0xA9] ≠ idnaNormalizeHost lowerStop [0xC3] [] ∧
    idnaNormalizeHost lowerStop (List.map ascii ['x', 'n', '-', '-', '9', '9', '9', '9', '9', '9',
      '9', '9']) [] = .error (.punycode .overflow) ∧
    idnaNormalizeHost lowerStop (List.map ascii ['x', 'n', '-', '-', 'a', 'b', '-', 'r', '1', '3', 'a']) [] =
      .ok ⟨List.map ascii ['a', '.', 'b'], List.map ascii ['a', '.', 'b']⟩ ∧
    idnaNormalizeHost replaced (List.map ascii ['x', 'n', '-', '-', '9', 'c', 'a']) [] = .error .pastEnd ∧
    idnaNormalizeHost replaced [0xC3, 0xA9] [] = .error (.punycode .overflow) ∧
    idnaNormalizeHost replaced [0xC3, 0xA8] [] = .ok ⟨[ascii '.'], [ascii '.']⟩ := by
  refine ⟨?_, ?_, ?_, ?_, ?_, ?_, ?_⟩ <;> decide +kernel

end UnixCommons.HTTP
