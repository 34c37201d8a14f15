import UnixCommons.Lib.Collapse
import UnixCommons.String.Flatten
import UnixCommons.String.Lemmas.Tokenizer
import UnixCommons.String.Lemmas.UTF8Category

/-!
# 続いた文字をまとめる補題

二つのループは、どちらも、まとめた文字列が大きさに収まれば、それを書き終え、収まらなければ外に書く。
-/

namespace UnixCommons.String.Flatten

open Lib Lib.Collapse

variable {size fuel : Nat} {out t u first : Bytes} {p : UInt8 → Bool}

/-! ## 書くこと -/

def written (size : Nat) (out text : Bytes) : Except Fault Bytes :=
  if out.length + text.length ≤ size then .ok (out ++ text) else .error .overrun

theorem written_nil (hout : out.length ≤ size) : written size out [] = .ok out := by
  rw [written, if_pos (by simpa using hout), List.append_nil]

theorem copy_congr {α : Type} {f g : Bytes → Except Fault α} (h : ∀ out, out.length ≤ size → f out = g out) :
    (copy size out t >>= f) = copy size out t >>= g := by
  unfold copy
  split
  next hfit => exact h _ (by rwa [List.length_append])
  · rfl

theorem written_append (size : Nat) (out t u : Bytes) :
    (copy size out t >>= fun out => written size out u) = written size out (t ++ u) := by
  unfold copy written
  by_cases ht : out.length + t.length ≤ size
  · rw [if_pos ht]
    change (if (out ++ t).length + u.length ≤ size then .ok (out ++ t ++ u) else .error .overrun : Except Fault Bytes) = _
    rw [List.length_append, List.length_append, Nat.add_assoc, List.append_assoc]
  · rw [if_neg ht, if_neg (by rw [List.length_append]; omega)]
    rfl

theorem copy_pure (size : Nat) (out t : Bytes) :
    (copy size out t >>= fun out => pure out) = written size out t := bind_pure _

theorem written_append_some (size : Nat) (out t u : Bytes) :
    (copy size out t >>= fun out => (written size out u).map some) = (written size out (t ++ u)).map some := by
  rw [← written_append]
  cases copy size out t <;> rfl

theorem copy_pure_some (size : Nat) (out t : Bytes) :
    (copy size out t >>= fun out => pure (some out)) = (written size out t).map some := by
  change _ = (copy size out t).map some
  cases copy size out t <;> rfl

/-! ## 一文字の集合のループ -/

def single (b : UInt8) : Bytes := [b]

theorem flatMap_single (s : Bytes) : s.flatMap single = s := List.flatMap_singleton' s

def collapseAscii (p : UInt8 → Bool) (replacement str : Bytes) : Bytes := collapse p single replacement false str

theorem flattenAsciiLoop_eq (p : UInt8 → Bool) (replacement : Bytes) (size : Nat)
    (hfuel : first.length < fuel) (hout : out.length ≤ size) :
    flattenAsciiLoop p replacement size fuel first out = written size out (collapseAscii p replacement first) := by
  induction fuel generalizing first out with
  | zero => exact absurd hfuel (Nat.not_lt_zero _)
  | succ fuel ih =>
      rw [flattenAsciiLoop]
      by_cases hnil : first = []
      · rw [if_pos hnil, hnil]
        exact (written_nil hout).symm
      rw [if_neg hnil]
      rcases run_cases p first with h | ⟨before, c, run, rest, rfl, hbefore, hc, hrun, hrest⟩
      · have hbetween : Tokenizer.between first [] = first := List.take_length
        rw [collapseAscii, collapse_of_forall h, flatMap_single, Tokenizer.findOwned_missing h]
        simp only [hbetween, if_true]
        exact copy_pure _ _ _
      · have hfound : Tokenizer.findOwned p (before ++ c :: (run ++ rest)) = (c :: (run ++ rest), some 1) :=
          Tokenizer.findOwned_found hbefore hc
        have hskip : Tokenizer.findNonowned p (c :: (run ++ rest)) = rest := by
          rw [Tokenizer.findNonowned_eq, ← List.cons_append]
          exact dropWhile_run hc hrun hrest
        have hlen : rest.length < fuel := by
          simp only [List.length_append, List.length_cons] at hfuel
          omega
        rw [List.cons_append, hfound, collapseAscii, ← List.cons_append, collapse_append hbefore,
          collapse_run hc hrun hrest, flatMap_single]
        simp only [Tokenizer.between_append, List.cons_ne_nil, if_false, List.cons_append, hskip]
        rw [← written_append]
        refine copy_congr fun out _ => ?_
        rw [← written_append]
        exact copy_congr fun out hout => ih hlen hout

theorem flattenAscii_eq (maxSize : Nat) (p : UInt8 → Bool) (str replacement : Bytes) :
    flattenAscii maxSize p str replacement =
      resize maxSize (destSize str.length replacement.length) >>= fun size => written size []
      (collapseAscii p replacement str) := by
  unfold flattenAscii
  exact congrArg _ (funext fun size => flattenAsciiLoop_eq p replacement size (Nat.lt_succ_self _) (Nat.zero_le _))

/-! ## UTF-8 の文字の集合のループ -/

section

open UTF8Category

variable {nodes : List Node} {own : Symbol → Bool} (hown : ∀ c rest, isOwned nodes (c.octets ++ rest) = .ok (own c))
  {syms before run rest : List Symbol} {c : Symbol}

def collapseUtf8 (own : Symbol → Bool) (replacement : Bytes) (syms : List Symbol) : Bytes :=
  collapse own Symbol.octets replacement false syms

include hown

theorem search_owned_missing (h : ∀ x ∈ syms, own x = false) :
    search (findOwnedRange nodes (text syms)) = .ok (some (text syms).length) := by
  have hlen := length_le_text syms
  rw [findOwnedRange, findRangeLoop_missing hown (by omega) fun x hx => by simp [h x hx], Nat.zero_add]
  rfl

theorem search_owned_found (h : ∀ x ∈ before, own x = false) (hc : own c = true) (rest : List Symbol) :
    search (findOwnedRange nodes (text (before ++ c :: rest))) = .ok (some (text before).length) := by
  have hlen := length_le_text before
  rw [findOwnedRange, findRangeLoop_found hown (by rw [text_append, List.length_append]; omega)
    (fun x hx => by simp [h x hx]) hc, Nat.zero_add]
  rfl

theorem search_nonowned (h : ∀ x ∈ run, own x = true) (hrest : ∀ x ∈ rest.head?, own x = false) :
    search (findNonownedRange nodes (text (run ++ rest))) = .ok (some (text run).length) := by
  have hlen := length_le_text run
  cases rest with
  | nil =>
      rw [List.append_nil, findNonownedRange,
        findRangeLoop_missing hown (by omega) fun x hx => by simp [h x hx], Nat.zero_add]
      rfl
  | cons x rest =>
      rw [findNonownedRange,
        findRangeLoop_found hown (by rw [text_append, List.length_append]; omega)
        (fun x hx => by simp [h x hx]) (hrest x rfl), Nat.zero_add]
      rfl

theorem flattenUtf8Loop_eq (replacement : Bytes) (size : Nat) (hfuel : syms.length < fuel)
    (hout : out.length ≤ size) : flattenUtf8Loop nodes replacement size fuel
      (text syms) out = (written size out (collapseUtf8 own replacement syms)).map some := by
  induction fuel generalizing syms out with
  | zero => exact absurd hfuel (Nat.not_lt_zero _)
  | succ fuel ih =>
      rw [flattenUtf8Loop]
      by_cases hnil : text syms = []
      · have hle := length_le_text syms
        rw [hnil] at hle
        have hsyms : syms = [] := List.length_eq_zero_iff.mp (Nat.le_zero.mp hle)
        rw [if_pos hnil, hsyms, collapseUtf8, collapse_nil, written_nil hout]
        rfl
      rw [if_neg hnil]
      rcases run_cases own syms with h | ⟨before, c, run, rest, rfl, hbefore, hc, hrun, hrest⟩
      · rw [search_owned_missing hown h, ok_bind]
        simp only [List.take_length, if_true]
        rw [collapseUtf8, collapse_of_forall h]
        exact copy_pure_some _ _ _
      · have hpos := c.length_pos
        have htext : text (before ++ c :: (run ++ rest)) = text before ++ text (c :: (run ++ rest)) := text_append _ _
        have hne : (text before).length ≠ (text (before ++ c :: (run ++ rest))).length := by
          rw [htext, List.length_append, text_cons, List.length_append]
          omega
        have hnext := search_nonowned hown (List.forall_mem_cons.mpr ⟨hc, hrun⟩) hrest
        have hdrop : (text (c :: run ++ rest)).drop (text (c :: run)).length = text rest := by
          rw [text_append, List.drop_left]
        have hlen : rest.length < fuel := by
          simp only [List.length_append, List.length_cons] at hfuel
          omega
        rw [List.cons_append, search_owned_found hown hbefore hc, ok_bind]
        simp only [hne, if_false]
        rw [htext, List.take_left, List.drop_left, ← List.cons_append, hnext, collapseUtf8,
          collapse_append hbefore, collapse_run hc hrun hrest, ← written_append_some]
        refine copy_congr fun out _ => ?_
        rw [← written_append_some]
        refine copy_congr fun out hout => ?_
        rw [ok_bind]
        simp only [hdrop]
        exact ih hlen hout

theorem flattenUtf8_eq (maxSize : Nat) (syms : List Symbol) (replacement : Bytes) :
    flattenUtf8 maxSize nodes (text syms) replacement =
      resize maxSize (destSize (text syms).length replacement.length) >>= fun size =>
      (written size [] (collapseUtf8 own replacement syms)).map some := by
  have hlen := length_le_text syms
  unfold flattenUtf8
  exact congrArg _ (funext fun size => flattenUtf8Loop_eq hown replacement size (by omega) (Nat.zero_le _))

end

/-! ## 文字の境目 -/

section

open UTF8Category UTF8Handler Utf8

theorem text_split {x z : Bytes} {syms : List Symbol} (h : x ++ z = text syms) (hz : ∀ b ∈ z.head?, ¬ IsTail b) :
    ∃ before after, syms = before ++ after ∧ x = text before ∧ z = text after := by
  induction syms generalizing x with
  | nil =>
      obtain ⟨rfl, rfl⟩ := List.append_eq_nil_iff.mp h
      exact ⟨[], [], rfl, rfl, rfl⟩
  | cons c syms ih =>
      by_cases hx : x = []
      · subst hx
        exact ⟨[], c :: syms, rfl, rfl, h⟩
      rw [text_cons] at h
      by_cases hlen : c.octets.length ≤ x.length
      · have hprefix : c.octets <+: x := List.prefix_of_prefix_length_le ⟨text syms, rfl⟩ ⟨z, h⟩ hlen
        obtain ⟨x', rfl⟩ := hprefix
        rw [List.append_assoc, List.append_right_inj] at h
        obtain ⟨before, after, rfl, rfl, rfl⟩ := ih h
        exact ⟨c :: before, after, rfl, rfl, rfl⟩
      · -- 境目は文字の中にあり、次のバイトは後に続くバイトである。
        obtain ⟨a, tail, hc, -, -, htail, -⟩ := c.cases
        have hprefix : x <+: c.octets := List.prefix_of_prefix_length_le ⟨z, h⟩ ⟨text syms, rfl⟩ (Nat.le_of_not_le hlen)
        obtain ⟨w, hw⟩ := hprefix
        rw [← hw, List.append_assoc, List.append_right_inj] at h
        obtain ⟨b, x', rfl⟩ := List.exists_cons_of_ne_nil hx
        rw [List.cons_append, hc] at hw
        obtain ⟨-, rfl⟩ := List.cons.inj hw
        cases w with
        | nil =>
            rw [List.append_nil] at hc
            exact absurd (hc ▸ le_rfl) hlen
        | cons b' w =>
            rw [h] at hz
            exact absurd (htail b' (List.mem_append_right _ List.mem_cons_self)) (hz b' rfl)

theorem text_cancel {y : Bytes} {before syms : List Symbol} (h : text before ++ y = text syms) :
    ∃ after, y = text after ∧ ∀ c ∈ after, c ∈ syms := by
  induction before generalizing syms with
  | nil => exact ⟨syms, h, fun _ hc => hc⟩
  | cons c before ih =>
      cases syms with
      | nil =>
          rw [text_cons, List.append_assoc] at h
          exact absurd (List.append_eq_nil_iff.mp h).1 c.isSequence.ne_nil
      | cons c' syms =>
          rw [text_cons, text_cons, List.append_assoc] at h
          obtain ⟨-, hrest⟩ := c.isSequence.append_inj c'.isSequence h
          obtain ⟨after, hy, hmem⟩ := ih hrest
          exact ⟨after, hy, fun x hx => List.mem_cons_of_mem _ (hmem x hx)⟩

def Clear (own : Symbol → Bool) (t : Bytes) : Prop := ∃ syms, t = text syms ∧ ∀ c ∈ syms, own c = false

variable {own : Symbol → Bool} {syms : List Symbol} {replacement : Bytes}

theorem Clear.append (ht : Clear own t) (hu : Clear own u) : Clear own (t ++ u) := by
  obtain ⟨syms, rfl, hsyms⟩ := ht
  obtain ⟨syms', rfl, hsyms'⟩ := hu
  exact ⟨syms ++ syms', (text_append _ _).symm, List.forall_mem_append.mpr ⟨hsyms, hsyms'⟩⟩

theorem Clear.collapse (h : Clear own replacement) (inRun : Bool) (syms : List Symbol) :
    Clear own (collapse own Symbol.octets replacement inRun syms) := by
  have hnil : Clear own [] := ⟨[], rfl, by simp⟩
  induction syms generalizing inRun with
  | nil => exact hnil
  | cons c syms ih =>
      rw [Collapse.collapse]
      cases hc : own c with
      | true =>
          cases inRun with
          | true => exact hnil.append (ih true)
          | false => exact h.append (ih true)
      | false =>
          have hsymbol : Clear own c.octets := ⟨[c], by rw [text_cons, text_nil, List.append_nil], by simpa using hc⟩
          exact hsymbol.append (ih false)

theorem collapse_head (h : ∀ c ∈ syms.head?, own c = false) :
    ∀ b ∈ (collapseUtf8 own replacement syms).head?, ¬ IsTail b := by
  cases syms with
  | nil => exact fun b hb => nomatch hb
  | cons c syms =>
      obtain ⟨a, tail, hc, -, -, -, hlead, -⟩ := c.cases
      intro b hb
      rw [collapseUtf8, Collapse.collapse, h c rfl, if_neg Bool.false_ne_true, hc] at hb
      obtain rfl := Option.some.inj hb
      exact mt (isTail_iff a).mpr hlead

theorem clear_collapse_iff : Clear own (collapseUtf8 own replacement syms) ↔
    (∀ c ∈ syms, own c = false) ∨ Clear own replacement := by
  constructor
  · rintro ⟨syms', htext, hclear⟩
    rcases run_cases own syms with h | ⟨before, c, run, rest, rfl, hbefore, hc, hrun, hrest⟩
    · exact .inl h
    · rw [collapseUtf8, collapse_append hbefore, collapse_run hc hrun hrest] at htext
      obtain ⟨after, hafter, hmem⟩ := text_cancel htext
      obtain ⟨syms₁, syms₂, rfl, hrepl, -⟩ := text_split hafter (collapse_head hrest)
      exact .inr ⟨syms₁, hrepl, fun c hc => hclear c (hmem c (List.mem_append_left _ hc))⟩
  · rintro (h | h)
    · exact ⟨syms, collapse_of_forall h, h⟩
    · exact h.collapse false syms

end

/-! ## 大きさ -/

variable {maxSize n k : Nat}

/-- 長さ `n` の文字列のための領域に、長さ `m` の結果が収まる。 -/
def Fits (maxSize n k m : Nat) : Prop := destSize n k ≤ maxSize ∧ m ≤ destSize n k

theorem resize_written (maxSize n k : Nat) (t r : Bytes) :
    (resize maxSize (destSize n k) >>= fun size => written size [] t) = .ok r ↔ r = t ∧ Fits maxSize n k t.length := by
  unfold resize Fits written
  by_cases hsize : destSize n k ≤ maxSize
  · rw [if_pos hsize]
    change (if ([] : Bytes).length + t.length ≤ destSize n k then Except.ok
      ([] ++ t) else Except.error Fault.overrun) = Except.ok r ↔ _
    rw [List.length_nil, Nat.zero_add, List.nil_append]
    by_cases hfit : t.length ≤ destSize n k
    · rw [if_pos hfit]
      exact ⟨fun h => ⟨(Except.ok.inj h).symm, hsize, hfit⟩, fun h => congrArg Except.ok h.1.symm⟩
    · rw [if_neg hfit]
      exact ⟨fun h => (nomatch h), fun h => absurd h.2.2 hfit⟩
  · rw [if_neg hsize]
    exact ⟨fun h => (nomatch h), fun h => absurd h.2.1 hsize⟩

theorem resize_map (maxSize size : Nat) (t : Bytes) :
    (resize maxSize size >>= fun size => (written size [] t).map some) =
    (resize maxSize size >>= fun size => written size [] t).map some := by
  cases resize maxSize size <;> rfl

theorem map_eq_ok_some {x : Except Fault Bytes} {r : Bytes} : x.map some = .ok (some r) ↔ x = .ok r := by
  cases x <;> simp [Except.map]

/-- まとめた文字列の長さが収まり、置き換える文字列が集合の文字を含まない時は、もう一度まとめる時にも収まる。 -/
structure RunFits {α : Type} (maxSize : Nat) (own : α → Bool) (octets : α → Bytes) (l : List α)
    (replacement : Bytes) (clear : Prop) : Prop where
  first : Fits maxSize (l.flatMap octets).length replacement.length
    (kept own octets l + runs own false l * replacement.length)
  again : clear → Fits maxSize (kept own octets l + runs own false l * replacement.length)
    replacement.length (kept own octets l + runs own false l * replacement.length)

theorem runFits_iff {α : Type} {own : α → Bool} {octets : α → Bytes} {l : List α}
    {replacement result : Bytes} {clear clean missing : Prop}
    (hclean : clean ↔ missing ∨ clear) (hmissing : missing → result = l.flatMap octets)
    (hlen : result.length = kept own octets l + runs own false l * replacement.length) :
    RunFits maxSize own octets l replacement clear ↔
      Fits maxSize (l.flatMap octets).length replacement.length result.length ∧
      (clean → Fits maxSize result.length replacement.length result.length) := by
  rw [hlen]
  constructor
  · rintro ⟨hfirst, hagain⟩
    refine ⟨hfirst, fun hc => ?_⟩
    rcases hclean.mp hc with hm | hc
    · rw [← hlen, hmissing hm] at hfirst ⊢
      exact hfirst
    · exact hagain hc
  · rintro ⟨hfirst, hagain⟩
    exact ⟨hfirst, fun hc => hagain (hclean.mpr (.inr hc))⟩

/-! ## 二つの `flatten` -/

/-- 一文字の集合の `flatten` は、まとめた文字列を返す。 -/
structure AsciiRight (maxSize : Nat) (p : UInt8 → Bool) (str replacement : Bytes) : Prop where
  result : flattenAscii maxSize p str replacement = .ok (collapseAscii p replacement str)
  again : (∀ b ∈ collapseAscii p replacement str, p b = false) →
    flattenAscii maxSize p (collapseAscii p replacement str) replacement = .ok (collapseAscii p replacement str)

theorem clean_collapse_iff {str replacement : Bytes} :
    (∀ b ∈ collapseAscii p replacement str, p b = false) ↔ (∀ b ∈ str, p b = false) ∨ ∀ b ∈ replacement, p b = false := by
  constructor
  · intro hclean
    rcases run_cases p str with h | ⟨before, c, run, rest, rfl, hbefore, hc, hrun, hrest⟩
    · exact .inl h
    · rw [collapseAscii, collapse_append hbefore, collapse_run hc hrun hrest] at hclean
      exact .inr fun b hb => hclean b (List.mem_append_right _ (List.mem_append_left _ hb))
  · rintro (h | h)
    · rw [collapseAscii, collapse_of_forall h, flatMap_single]
      exact h
    · refine forall_mem_collapse h fun c _ hc b hb => ?_
      obtain rfl := List.mem_singleton.mp hb
      exact hc

theorem collapseAscii_of_forall {str replacement : Bytes} (h : ∀ b ∈ str, p b = false) :
    collapseAscii p replacement str = str := by
  rw [collapseAscii, collapse_of_forall h, flatMap_single]

theorem asciiRight_iff (maxSize : Nat) (p : UInt8 → Bool) (str replacement : Bytes) :
    AsciiRight maxSize p str replacement ↔ RunFits maxSize p single str replacement (∀ b ∈ replacement, p b = false) := by
  have hfirst : flattenAscii maxSize p str replacement = .ok (collapseAscii p replacement str) ↔
      Fits maxSize str.length replacement.length (collapseAscii p replacement str).length := by
    rw [flattenAscii_eq, resize_written]
    exact and_iff_right rfl
  have hagain : ∀ t, (∀ b ∈ t, p b = false) → (flattenAscii maxSize p t replacement = .ok t ↔
      Fits maxSize t.length replacement.length t.length) := by
    intro t ht
    rw [flattenAscii_eq, resize_written, collapseAscii_of_forall ht]
    exact and_iff_right rfl
  have hlen : (collapseAscii p replacement str).length = _ := length_collapse p single replacement false str
  rw [runFits_iff clean_collapse_iff (fun h => by rw [collapseAscii_of_forall h, flatMap_single]) hlen, flatMap_single]
  exact ⟨fun h => ⟨hfirst.mp h.result, fun hc => (hagain _ hc).mp (h.again hc)⟩, fun h =>
    ⟨hfirst.mpr h.1, fun hc => (hagain _ hc).mpr (h.2 hc)⟩⟩

section

open UTF8Category

variable {nodes : List Node} {own : Symbol → Bool} {syms : List Symbol} {replacement : Bytes}

/-- UTF-8 の文字の集合の `flatten` についての、同じ性質。 -/
structure Utf8Right (maxSize : Nat) (nodes : List Node) (own : Symbol → Bool) (syms : List Symbol)
    (replacement : Bytes) : Prop where
  result : flattenUtf8 maxSize nodes (text syms) replacement = .ok (some (collapseUtf8 own replacement syms))
  again : Clear own (collapseUtf8 own replacement syms) →
    flattenUtf8 maxSize nodes (collapseUtf8 own replacement syms) replacement =
    .ok (some (collapseUtf8 own replacement syms))

theorem collapseUtf8_of_forall (h : ∀ c ∈ syms, own c = false) :
    collapseUtf8 own replacement syms = text syms := collapse_of_forall h

theorem utf8Right_iff (hown : ∀ c rest, isOwned nodes (c.octets ++ rest) = .ok (own c))
    (maxSize : Nat) (syms : List Symbol) (replacement : Bytes) :
    Utf8Right maxSize nodes own syms replacement ↔
      RunFits maxSize own Symbol.octets syms replacement (Clear own replacement) := by
  have hrun : ∀ syms, flattenUtf8 maxSize nodes (text syms) replacement = .ok (some (collapseUtf8 own replacement syms)) ↔
      Fits maxSize (text syms).length replacement.length (collapseUtf8 own replacement syms).length := by
    intro syms
    rw [flattenUtf8_eq hown, resize_map, map_eq_ok_some, resize_written]
    exact and_iff_right rfl
  have hagain : Clear own (collapseUtf8 own replacement syms) →
      (flattenUtf8 maxSize nodes (collapseUtf8 own replacement syms) replacement = .ok
      (some (collapseUtf8 own replacement syms)) ↔
        Fits maxSize (collapseUtf8 own replacement syms).length replacement.length
        (collapseUtf8 own replacement syms).length) := by
    rintro ⟨syms', htext, hclear⟩
    have hsecond := hrun syms'
    rwa [collapseUtf8_of_forall hclear, ← htext] at hsecond
  have hlen : (collapseUtf8 own replacement syms).length = _ := length_collapse own Symbol.octets replacement false syms
  rw [runFits_iff clear_collapse_iff collapseUtf8_of_forall hlen]
  exact ⟨fun h => ⟨(hrun syms).mp h.result, fun hc => (hagain hc).mp (h.again hc)⟩,
    fun h => ⟨(hrun syms).mpr h.1, fun hc => (hagain hc).mpr (h.2 hc)⟩⟩

def asciiSymbol (b : UInt8) (h : b.toNat < 128) : Symbol := ⟨[b], Utf8.isSequence_one.mpr (Nat.le_of_lt_succ h)⟩

/-- 文字の集合が、ASCII の文字について、一文字の集合と同じである。 -/
def Corresponds (p : UInt8 → Bool) (own : Symbol → Bool) : Prop := ∀ b h, own (asciiSymbol b h) = p b

theorem exists_ascii {str : Bytes} (h : ∀ b ∈ str, b.toNat < 128) : ∃ syms : List Symbol, text syms = str ∧
    ∀ p own replacement inRun, Corresponds p own → collapse own Symbol.octets replacement inRun
      syms = collapse p single replacement inRun str := by
  induction str with
  | nil => exact ⟨[], rfl, fun _ _ _ _ _ => rfl⟩
  | cons b str ih =>
      obtain ⟨hb, hstr⟩ := List.forall_mem_cons.mp h
      obtain ⟨syms, htext, hcollapse⟩ := ih hstr
      refine ⟨asciiSymbol b hb :: syms, by rw [text_cons, htext]; rfl, fun p own replacement inRun hp => ?_⟩
      rw [collapse, collapse, hp b hb, hcollapse p own replacement true hp, hcollapse p own replacement false hp]
      rfl

theorem flattenUtf8_ascii {p : UInt8 → Bool}
    (hown : ∀ c rest, isOwned nodes (c.octets ++ rest) = .ok (own c)) (hp : Corresponds p own)
    (maxSize : Nat) {str : Bytes} (h : ∀ b ∈ str, b.toNat < 128) (replacement : Bytes) :
    flattenUtf8 maxSize nodes str replacement = (flattenAscii maxSize p str replacement).map some := by
  obtain ⟨syms, rfl, hcollapse⟩ := exists_ascii h
  rw [flattenUtf8_eq hown, flattenAscii_eq, collapseUtf8, hcollapse p own replacement false hp, resize_map]
  rfl

end

end UnixCommons.String.Flatten
