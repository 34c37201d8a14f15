import UnixCommons.Language.Lemmas.TriggerOrder
import UnixCommons.Language.Lemmas.TriggerCursor
import UnixCommons.Language.Lemmas.TriggerSize

/-!
# 正規化を繰り返す定理

正規化の結果をもう一度正規化しても、変わらない。
-/

namespace UnixCommons.Language.NormalizeTrigger

open Lib

/-!
## トリガーの正規化の定理

正規化の結果が部分の並べ方によらず、余分な部分を残さないのは、他の部分の句である部分がどれも、
句でない部分の一つの中に `is_substr` で見つかる時だけである。
-/

section

variable {ps : List Piece} {T : Bytes}

/-- 並べ方によらないのは、句である部分が `is_substr` で見つかる時だけである。 -/
theorem normalize_order_iff (s : Simplifier) (hT : Spells ps T) (hlen : T.length ≤ 1024) :
    OrderIndependent s ps T ↔ (Simplifies s ps → Sheltered (partsOf s ps)) := by
  constructor
  · intro hind hs
    by_contra hnot
    obtain ⟨qs, T', hperm, hT', hlen', hredundant⟩ := exists_redundant hT hlen hnot
    obtain ⟨-, -, hresult⟩ := hind qs T' hperm hT' hlen'
    exact hredundant (hresult _ (normalizeTrigger_spells hT' hlen' ((simplifies_perm hperm).mpr hs))).1
  · intro hsheltered qs T' hperm hT' hlen'
    by_cases hs : Simplifies s ps
    · have hparts := (partsOf_perm s hperm).symm
      have heq := normalizeTrigger_spells hT hlen hs
      have heq' := normalizeTrigger_spells hT' hlen' ((simplifies_perm hperm).mpr hs)
      have hnarrow := (hsheltered hs).narrow_eq hparts
      have hsame : normalizeTrigger s T' = normalizeTrigger s T := by rw [heq, heq', hnarrow]
      refine ⟨fun r => by rw [hsame], fun r => by rw [normalize_eq, normalize_eq, hsame], fun r hr => ?_⟩
      obtain rfl : combineTrigger ⟨false, narrow (partsOf s qs)⟩ = r := Except.ok.inj (heq'.symm.trans hr)
      exact ⟨by rw [hnarrow]; exact (hsheltered hs).irredundant, covered_narrow _⟩
    · obtain ⟨e, he⟩ := normalizeTrigger_error hT hlen hs
      obtain ⟨e', he'⟩ := normalizeTrigger_error hT' hlen' (mt (simplifies_perm hperm).mp hs)
      refine ⟨fun r => by simp [he, he'], fun r => ?_, fun r hr => by simp [he'] at hr⟩
      simp [normalize_eq, he, he', Except.map]

def plain : Simplifier := ⟨some, none⟩

def letter : Piece := ⟨false, [97], forall_mem_bytes (by decide), by decide⟩

def innerPhrase : Piece := ⟨true, [97, 32, 99], forall_mem_bytes (by decide), by decide⟩

def outerPhrase : Piece := ⟨true, [98, 97, 32, 97, 32, 99], forall_mem_bytes (by decide), by decide⟩

theorem normalize_order_iff_sample : OrderIndependent plain [letter, innerPhrase] (tight [letter, innerPhrase]) :=
  (normalize_order_iff plain (spells_tight _) (by decide)).mpr fun _ => by decide

/-- `"a c"a"ba a c"` の結果は `"ba a c"` だけであるが、`"ba a c"a"a c"` の結果には `a` が残る。 -/
theorem normalize_order_diverges :
    ¬ OrderIndependent plain [innerPhrase, letter, outerPhrase] (tight [innerPhrase, letter, outerPhrase]) ∧
      normalize plain (tight [innerPhrase, letter, outerPhrase]) = .ok outerPhrase.print ∧
      normalize plain (tight [outerPhrase, letter, innerPhrase]) = .ok (letter.print ++ space :: outerPhrase.print) := by
  refine ⟨fun h => ?_, rfl, rfl⟩
  have hperm : [outerPhrase, letter, innerPhrase].Perm [innerPhrase, letter, outerPhrase] :=
    List.reverse_perm [innerPhrase, letter, outerPhrase]
  obtain ⟨hsame, -, -⟩ := h _ _ hperm (spells_tight _) (by decide)
  have hresult :=
    (hsame ⟨letter.print ++ space :: outerPhrase.print, false, [⟨letter.text, false⟩, ⟨outerPhrase.text, true⟩]⟩).mp rfl
  exact absurd hresult (by decide)

end

section

variable {s : Simplifier} {text : Bytes}

/-- 長さの限りの中の結果は、もう一度正規化しても同じである。 -/
theorem normalize_idempotent (hs : Tidy s) :
    (∀ T r, normalize s T = .ok r → r.length ≤ 1024 → normalize s r = .ok r) ∧
      ∀ T t, normalizeTrigger s T = .ok t → t.trigger.length ≤ 1024 → ∃ t',
      normalizeTrigger s t.trigger = .ok t' ∧ t'.trigger = t.trigger := by
  refine ⟨fun T r h hlen => ?_, fun T t h hlen => hs.normalizeTrigger_twice h hlen⟩
  rw [normalize_eq] at h ⊢
  obtain ⟨t, ht, h⟩ := bind_eq_ok.mp h
  obtain rfl : t.trigger = r := Except.ok.inj h
  obtain ⟨t', ht', heq⟩ := hs.normalizeTrigger_twice ht hlen
  rw [ht']
  exact congrArg Except.ok heq

def lettersOnly (str : Bytes) : Bytes := str.map fun c => if 97 ≤ c ∧ c ≤ 122 then c else space

def letters : Simplifier := ⟨fun str => some (lettersOnly str), none⟩

theorem simplify_letters (str : Bytes) :
    simplify letters [] "trigger" str = .ok (if lettersOnly str = [] then [] else shrink (lettersOnly str)) := by
  by_cases h : lettersOnly str = []
  · simp [simplify, simplifyCommon, letters, h, pure, Except.pure]
  · simp [simplify, simplifyCommon, letters, h, pure, Except.pure]

theorem letter_of_simplify {str : Bytes} (h : simplify letters [] "trigger" str = .ok text) :
    ∀ c ∈ text, (97 ≤ c ∧ c ≤ 122) ∨ c = space := by
  have hmap : ∀ c ∈ lettersOnly str, (97 ≤ c ∧ c ≤ 122) ∨ c = space := by
    intro c hc
    obtain ⟨c', -, rfl⟩ := List.mem_map.mp hc
    by_cases hletter : 97 ≤ c' ∧ c' ≤ 122
    · rw [if_pos hletter]
      exact .inl hletter
    · exact .inr (if_neg hletter)
  rw [simplify_letters] at h
  obtain rfl := Except.ok.inj h
  intro c hc
  split_ifs at hc with hnil
  · cases hc
  · rcases mem_shrink c hc with hc | rfl
    · exact hmap c hc
    · exact .inr rfl

theorem mem_intercalate {ws : List Bytes} {c : UInt8} (h : c ∈ [space].intercalate ws) : (∃ w ∈ ws, c ∈ w) ∨ c = space := by
  induction ws with
  | nil => cases h
  | cons w ws ih =>
      cases ws with
      | nil =>
          rw [List.intercalate_singleton] at h
          exact .inl ⟨w, List.mem_cons_self, h⟩
      | cons v ws =>
          rw [List.intercalate_cons_cons] at h
          rcases List.mem_append.mp h with h | h
          · rcases List.mem_append.mp h with h | h
            · exact .inl ⟨w, List.mem_cons_self, h⟩
            · exact .inr (List.mem_singleton.mp h)
          · rcases ih h with ⟨u, hu, hc⟩ | hc
            · exact .inl ⟨u, List.mem_cons_of_mem w hu, hc⟩
            · exact .inr hc

theorem tidy_letters : Tidy letters := by
  refine ⟨fun str text h c hc => ?_, fun ws hne hws => ?_⟩
  · rcases letter_of_simplify h c hc with ⟨hle, hge⟩ | rfl
    · refine ⟨?_, ?_, ?_, ?_⟩ <;> rintro rfl <;> revert hle hge <;> decide
    · decide
  · have hwords : ∀ w ∈ ws, w ≠ [] ∧ space ∉ w ∧ ∀ c ∈ w, 97 ≤ c ∧ c ≤ 122 := by
      intro w hw
      obtain ⟨str, text, htext, hnonempty, hmem⟩ := hws w hw
      have hchars := mem_words hmem
      refine ⟨simplify_words htext hnonempty w hmem, fun hspace => (hchars space hspace).2 rfl, fun c hc => ?_⟩
      exact (letter_of_simplify htext c (hchars c hc).1).resolve_right (hchars c hc).2
    have hmap : lettersOnly ([space].intercalate ws) = [space].intercalate ws := by
      refine (List.map_congr_left fun c hc => ?_).trans (List.map_id _)
      rcases mem_intercalate hc with ⟨w, hw, hcw⟩ | rfl
      · exact if_pos ((hwords w hw).2.2 c hcw)
      · rfl
    have hjoin := shrink_intercalate hne fun w hw => ⟨(hwords w hw).1, (hwords w hw).2.1⟩
    rw [simplify_letters, hmap, hjoin]
    split_ifs with hnil
    · rw [hnil]
    · rfl

theorem normalize_idempotent_sample : normalize letters [91, 97, 32, 98, 93] = .ok [91, 97, 32, 98, 93] :=
  (normalize_idempotent tidy_letters).1 [91, 97, 43, 98, 93] _ rfl (by decide)

end

/-!
## 二つの版の定理

文字列に書く版と、トリガーに書く版は、同じ文字を書く。
-/

section

variable {s : Simplifier}

/-- 二つの版の結果が合う。 -/
structure Agrees (text : Area UInt8) (stored : StoredTrigger) (t : Trigger) (size : UInt32) : Prop where
  same : text.text = t.trigger
  view : stored.view = some t
  textFits : ∀ n ∈ text.lengths, n ≤ size.toNat
  storedFits : ∀ n ∈ stored.trigger.lengths, n ≤ size.toNat

theorem normalize_overloads_agree (hs : s.Bounded) (trigger : Bytes) (result : Area UInt8) (stored : StoredTrigger) :
    (∃ e, normalizeString s trigger result = .error e ∧ normalizeStored s trigger stored = .error e) ∨
      ∃ split d result' stored' t, divide s trigger = .ok (split, d) ∧ normalizeTrigger s trigger = .ok t ∧
        normalizeString s trigger result = .ok result' ∧ normalizeStored s trigger stored =
        .ok stored' ∧ Agrees result' stored' t d.size := by
  cases hdivide : divide s trigger with
  | error e => exact .inl ⟨e, by rw [normalizeString, hdivide]; rfl, by rw [normalizeStored, hdivide]; rfl⟩
  | ok r =>
      obtain ⟨split, d⟩ := r
      refine .inr ?_
      rw [normalizeString, normalizeStored, normalizeTrigger, hdivide, ok_bind, ok_bind, ok_bind]
      dsimp only
      by_cases hcount : d.count = 0
      · rw [if_pos hcount, if_pos hcount, if_pos hcount]
        exact ⟨split, d, _, _, _, rfl, rfl, rfl, rfl, rfl, rfl, fun n hn =>
          absurd hn List.not_mem_nil, fun n hn => absurd hn List.not_mem_nil⟩
      · rw [if_neg hcount, if_neg hcount, if_neg hcount]
        obtain ⟨hparts, hzero, hexact, hplain⟩ := divide_size hs hdivide
        have hfit : (combine split.narrowed).length ≤ d.size.toNat := by
          cases he : split.exact with
          | true =>
              have hnarrowed : split.narrowed = split := by
                obtain ⟨_, _⟩ := split
                cases he
                rfl
              have hlen := @length_combine_le split fun _ => by rw [hparts]; exact mt hzero.mpr hcount
              rw [hnarrowed, hexact he, ← hparts]
              rwa [he] at hlen
          | false =>
              have hnarrowed : split.narrowed = ⟨false, narrow split.parts⟩ := by rw [Split.narrowed, he]; rfl
              have hlen := @length_combine_le ⟨false, narrow split.parts⟩ fun h => absurd h Bool.false_ne_true
              have hnarrow := needed_narrow_le false split.parts
              rw [hnarrowed, hplain he, ← hparts]
              simp at hlen
              omega
        have hreserved : (combine split.narrowed).length ≤ (stored.trigger.clear.reserve d.size.toNat).capacity :=
          hfit.trans (Area.le_reserve_capacity _ _)
        refine ⟨split, d, _, _, _, rfl, rfl, rfl, rfl, ?_, ?_, fun n hn => ?_, fun n hn => ?_⟩
        · exact combineString_text _ (by simp)
        · exact view_combineStored (by simp) rfl rfl hreserved
        · exact (lengths_combineString _ (by simp) (by simp) n hn).trans hfit
        · rw [combineStored_trigger] at hn
          exact (lengths_combineString _ (by simp) (by simp) n hn).trans hfit

theorem bounded_plain : plain.Bounded := by
  refine ⟨fun str res h => ?_, fun putSpaces h => nomatch h⟩
  obtain rfl := Option.some.inj h
  omega

theorem normalize_overloads_agree_plain :
    let trigger := [98, 32, 34, 97, 32, 99, 34]
    ∃ split d result' stored' t, divide plain trigger = .ok (split, d) ∧
      normalizeTrigger plain trigger = .ok t ∧ normalizeString plain trigger ⟨[], 0, 0, []⟩ =
      .ok result' ∧ normalizeStored plain trigger ⟨⟨[], 0, 0, []⟩, false, []⟩ = .ok stored' ∧
        Agrees result' stored' t d.size := by
  refine (normalize_overloads_agree bounded_plain [98, 32, 34, 97, 32, 99, 34] ⟨[], 0, 0, []⟩
    ⟨⟨[], 0, 0, []⟩, false, []⟩).resolve_left ?_
  rintro ⟨e, he, -⟩
  cases he

end

/-! ## トリガーを読む位置の定理 -/

section

open Lib

/-- 終わりまたはその後を読まず、途切れずに終わる。返るか、`Exception` を投げるかである。 -/
def Safe {α : Type} (x : Pointer.Run α) : Prop := ∀ e, x = .error e → ∃ e', e = .thrown e'

/-- `divide` は終わりを超えて読まず、必ず終わる。簡単にすることが失敗しなければ、返るのは読むことのできるトリガーだけである。
`shrink` は、空でない語を一つずつの空白でつなぐ。 -/
theorem trigger_parsing_total (trigger : Bytes) (hlen : trigger.length ≤ 1024) :
    (∀ s, Safe (Pointer.divide s trigger)) ∧
      (∀ s : Simplifier, (∀ str, s.caseChange str ≠ none) →
        ((∃ r, Pointer.divide s trigger = .ok r) ↔ Readable trigger) ∧
        (¬ Readable trigger → ∃ e, Pointer.divide s trigger = .error (.thrown e))) ∧
      ∀ str, str ≠ [] → Pointer.shrink str = .ok ([space].intercalate ((words str).filter (· ≠ []))) := by
  have hsafe : ∀ s, Safe (Pointer.divide s trigger) := by
    intro s e he
    rw [Pointer.divide_eq] at he
    cases hdivide : divide s trigger with
    | ok r =>
        rw [hdivide] at he
        cases he
    | error e' =>
        rw [hdivide] at he
        exact ⟨e', (Except.error.inj he).symm⟩
  refine ⟨hsafe, fun s hs => ?_, fun str hne => by rw [Pointer.shrink_eq hne, shrink_eq_words]⟩
  have hiff : (∃ r, Pointer.divide s trigger = .ok r) ↔ Readable trigger := by
    rw [← divide_iff hs hlen, Pointer.divide_eq]
    cases divide s trigger with
    | ok r => exact iff_of_true ⟨r, rfl⟩ ⟨r, rfl⟩
    | error e => exact iff_of_false (fun ⟨r, h⟩ => nomatch h) fun ⟨r, h⟩ => nomatch h
  refine ⟨hiff, fun hnot => ?_⟩
  cases hdivide : Pointer.divide s trigger with
  | ok r => exact absurd (hiff.mp ⟨r, hdivide⟩) hnot
  | error e =>
      obtain ⟨e', rfl⟩ := hsafe s e hdivide
      exact ⟨e', rfl⟩

theorem trigger_parsing_total_bracketed : ∃ r, Pointer.divide plain [91, 97, 32, 98, 93, 32] = .ok r :=
  ((trigger_parsing_total [91, 97, 32, 98, 93, 32] (by decide)).2.1 plain fun str h => nomatch h).1.mpr
    (@Readable.bracketed _ [] [97, 32, 98] [32] rfl (List.all_eq_true.mp (by decide)) (by simp [left, right]))

end

end UnixCommons.Language.NormalizeTrigger
