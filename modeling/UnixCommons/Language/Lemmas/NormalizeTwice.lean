import UnixCommons.Language.Lemmas.Phrase
import UnixCommons.Language.Lemmas.TriggerText

/-! # 正規化の結果を読み直す補題 -/

namespace UnixCommons.Language.NormalizeTrigger

open Lib Prune

variable {s : Simplifier} {ps : List Piece} {L N : List Part} {y : Part} {T text : Bytes} {d d' : Division} {fuel : Nat}

/-! ## 空白を縮めた文字列 -/

theorem words_of_not_mem (h : space ∉ text) : words text = [text] := List.splitOn_eq_singleton h

theorem skipSpaces_length_lt (h : text ≠ []) : (skipSpaces text).length < text.length := by
  cases text with
  | nil => exact absurd rfl h
  | cons c text => exact Nat.lt_succ_of_le (List.dropWhile_suffix _).length_le

theorem skipSpaces_head (text : Bytes) : ∀ c ∈ (skipSpaces text).head?, c ≠ space := by
  intro c hc
  have hne : text.tail.dropWhile (· = space) ≠ [] := by
    intro hnil
    rw [skipSpaces, hnil] at hc
    cases hc
  have hfalse := List.head_dropWhile_not (fun c => decide (c = space)) hne
  rw [skipSpaces, List.head?_eq_some_head hne] at hc
  rw [Option.some.inj hc] at hfalse
  simpa using hfalse

theorem takeWhile_ne_nil (hne : text ≠ []) (hhead : ∀ c ∈ text.head?, c ≠ space) : text.takeWhile (· ≠ space) ≠ [] := by
  cases text with
  | nil => exact absurd rfl hne
  | cons c text =>
      have hc : c ≠ space := hhead c rfl
      simp [hc]

theorem shrinkLoop_words (hfuel : text.length ≤ fuel) (hne : text ≠ [])
    (hhead : ∀ c ∈ text.head?, c ≠ space) : ∀ w ∈ words (shrinkLoop fuel text), w ≠ [] := by
  induction fuel generalizing text with
  | zero => exact absurd (List.length_eq_zero_iff.mp (Nat.le_zero.mp hfuel)) hne
  | succ fuel ih =>
      have hword : space ∉ text.takeWhile (· ≠ space) := by
        intro hmem
        have := List.all_eq_true.mp (List.all_takeWhile) space hmem
        simp at this
      have hword' := takeWhile_ne_nil hne hhead
      have hlen : (text.dropWhile (· ≠ space)).length ≤ text.length := (List.dropWhile_suffix _).length_le
      rw [shrinkLoop]
      split_ifs with hend hskip
      · rw [words_of_not_mem hword]
        exact fun w hw => by rwa [List.mem_singleton.mp hw]
      · rw [words_of_not_mem hword]
        exact fun w hw => by rwa [List.mem_singleton.mp hw]
      · have hlt := skipSpaces_length_lt hend
        rw [words_append, words_of_not_mem hword]
        exact List.forall_mem_cons.mpr ⟨hword', ih (by omega) hskip (skipSpaces_head _)⟩

theorem shrink_words (h : shrink text ≠ []) : ∀ w ∈ words (shrink text), w ≠ [] := by
  rw [shrink] at h ⊢
  split_ifs at h ⊢ with hspace hnil hnil
  · exact absurd rfl h
  · exact shrinkLoop_words le_rfl hnil (skipSpaces_head text)
  · exact absurd rfl h
  · refine shrinkLoop_words le_rfl hnil fun c hc => ?_
    rintro rfl
    exact hspace hc

theorem words_takeWhile (text : Bytes) : words text = text.takeWhile (· ≠ space) :: match text.dropWhile (· ≠ space) with
    | [] => []
    | _ :: rest => words rest := by
  have hsplit : text.takeWhile (· ≠ space) ++ text.dropWhile (· ≠ space) = text := List.takeWhile_append_dropWhile
  have hword : space ∉ text.takeWhile (· ≠ space) := by
    intro hmem
    have := List.all_eq_true.mp List.all_takeWhile space hmem
    simp at this
  cases hdrop : text.dropWhile (· ≠ space) with
  | nil =>
      rw [hdrop, List.append_nil] at hsplit
      conv_lhs => rw [← hsplit]
      exact words_of_not_mem hword
  | cons c rest =>
      have hc : c = space := by
        have hfalse := List.head_dropWhile_not (fun c => decide (c ≠ space)) (by rw [hdrop]; exact List.cons_ne_nil c rest)
        simp only [hdrop, List.head_cons] at hfalse
        simpa using hfalse
      rw [hdrop, hc] at hsplit
      conv_lhs => rw [← hsplit]
      rw [words_append, words_of_not_mem hword]
      rfl

theorem filter_words_dropWhile (text : Bytes) :
    (words (text.dropWhile (· = space))).filter (· ≠ []) = (words text).filter (· ≠ []) := by
  induction text with
  | nil => rfl
  | cons c text ih =>
      by_cases hspace : c = space
      · have hwords : words (space :: text) = [] :: words text := words_append [] text
        subst hspace
        simpa [hwords] using ih
      · simp [hspace]

theorem shrinkLoop_eq_words (hfuel : text.length ≤ fuel) (hne : text ≠ []) (hhead : ∀ c ∈ text.head?, c ≠ space) :
    shrinkLoop fuel text = [space].intercalate ((words text).filter (· ≠ [])) := by
  induction fuel generalizing text with
  | zero => exact absurd (List.length_eq_zero_iff.mp (Nat.le_zero.mp hfuel)) hne
  | succ fuel ih =>
      have hword := takeWhile_ne_nil hne hhead
      have hlen : (text.dropWhile (· ≠ space)).length ≤ text.length := (List.dropWhile_suffix _).length_le
      rw [shrinkLoop, words_takeWhile text]
      cases hdrop : text.dropWhile (· ≠ space) with
      | nil =>
          rw [if_pos rfl, List.filter_cons_of_pos (by simpa using hword), List.filter_nil, List.intercalate_singleton]
      | cons c rest =>
          have hfilter := filter_words_dropWhile rest
          rw [if_neg (List.cons_ne_nil c rest), skipSpaces, List.tail_cons]
          rw [hdrop, List.length_cons] at hlen
          by_cases hskip : rest.dropWhile (· = space) = []
          · have hnil : (words rest).filter (· ≠ []) = [] := by
              rw [← hfilter, hskip]
              rfl
            rw [if_pos hskip, List.filter_cons_of_pos (by simpa using hword), hnil, List.intercalate_singleton]
          · have hle : (rest.dropWhile (· = space)).length ≤ rest.length := (List.dropWhile_suffix _).length_le
            have hrest := ih (show (rest.dropWhile (· = space)).length ≤ fuel by omega) hskip (skipSpaces_head (c :: rest))
            have hcons : (words (rest.dropWhile (· = space))).filter (· ≠ []) ≠ [] := by
              have hfirst := takeWhile_ne_nil hskip (skipSpaces_head (c :: rest))
              rw [words_takeWhile, List.filter_cons_of_pos (by simpa using hfirst)]
              exact List.cons_ne_nil _ _
            rw [if_neg hskip, List.filter_cons_of_pos (by simpa using hword), hrest, hfilter]
            rw [hfilter] at hcons
            obtain ⟨w, ws, hws⟩ := List.exists_cons_of_ne_nil hcons
            rw [hws]
            rfl

theorem shrink_eq_words (text : Bytes) : shrink text = [space].intercalate ((words text).filter (· ≠ [])) := by
  have hskip : text.head? = some space → (words (skipSpaces text)).filter (· ≠ []) = (words text).filter (· ≠ []) := by
    intro hspace
    obtain ⟨rest, rfl⟩ := List.head?_eq_some_iff.mp hspace
    have hwords : words (space :: rest) = [] :: words rest := words_append [] rest
    rw [skipSpaces, List.tail_cons, filter_words_dropWhile, hwords, List.filter_cons_of_neg (by simp)]
  rw [shrink]
  split_ifs with hspace hnil hnil
  · rw [← hskip hspace, hnil]
    rfl
  · rw [← hskip hspace, shrinkLoop_eq_words le_rfl hnil (skipSpaces_head text)]
  · rw [hnil]
    rfl
  · refine shrinkLoop_eq_words le_rfl hnil fun c hc => ?_
    rintro rfl
    exact hspace hc

theorem mem_shrinkLoop (fuel : Nat) : ∀ c ∈ shrinkLoop fuel text, c ∈ text ∨ c = space := by
  induction fuel generalizing text with
  | zero => exact fun c hc => nomatch hc
  | succ fuel ih =>
      have hword : ∀ c ∈ text.takeWhile (· ≠ space), c ∈ text ∨ c = space :=
        fun c hc => .inl ((List.takeWhile_prefix _).subset hc)
      rw [shrinkLoop]
      split_ifs
      · exact hword
      · exact hword
      · intro c hc
        rcases List.mem_append.mp hc with hc | hc
        · exact hword c hc
        · rcases List.mem_cons.mp hc with rfl | hc
          · exact .inr rfl
          · have hsub : skipSpaces (text.dropWhile (· ≠ space)) ⊆ text := fun c hc =>
              (List.dropWhile_suffix _).subset (List.mem_of_mem_tail ((List.dropWhile_suffix _).subset hc))
            exact (ih c hc).imp_left fun hc => hsub hc

theorem mem_shrink : ∀ c ∈ shrink text, c ∈ text ∨ c = space := by
  intro c hc
  rw [shrink] at hc
  split_ifs at hc
  · cases hc
  · exact (mem_shrinkLoop _ c hc).imp_left fun hc => List.mem_of_mem_tail ((List.dropWhile_suffix _).subset hc)
  · cases hc
  · exact mem_shrinkLoop _ c hc

theorem shrinkLoop_intercalate {ws : List Bytes} (hne : ws ≠ [])
    (hws : ∀ w ∈ ws, w ≠ [] ∧ space ∉ w) (hfuel : ([space].intercalate ws).length ≤ fuel) :
    ([space].intercalate ws).head? ≠ some space ∧ [space].intercalate ws ≠ [] ∧
      shrinkLoop fuel ([space].intercalate ws) = [space].intercalate ws := by
  induction ws generalizing fuel with
  | nil => exact absurd rfl hne
  | cons w ws ih =>
      obtain ⟨⟨hw, hspace⟩, htail⟩ := List.forall_mem_cons.mp hws
      have hstop : ∀ c ∈ w, decide (c ≠ space) = true := fun c hc => decide_eq_true fun heq => hspace (heq ▸ hc)
      obtain ⟨c, w, rfl⟩ := List.exists_cons_of_ne_nil hw
      have hc : c ≠ space := fun heq => hspace (by rw [heq]; exact List.mem_cons_self)
      obtain ⟨fuel, rfl⟩ : ∃ m, fuel = m + 1 := by
        refine ⟨fuel - 1, ?_⟩
        have hpos : 0 < ([space].intercalate ((c :: w) :: ws)).length := by cases ws <;> simp
        omega
      cases ws with
      | nil =>
          rw [List.intercalate_singleton, shrinkLoop, List.takeWhile_eq_self_iff.mpr hstop,
            List.dropWhile_eq_nil_iff.mpr hstop]
          exact ⟨by simpa using hc, List.cons_ne_nil c w, rfl⟩
      | cons v ws =>
          have hlist : [space].intercalate ((c :: w) :: v :: ws) = (c :: w) ++
              space :: [space].intercalate (v :: ws) := by simp
          rw [hlist, List.length_append, List.length_cons, List.length_cons] at hfuel
          obtain ⟨hhead, hnil, hloop⟩ := @ih fuel (List.cons_ne_nil v ws) htail (by omega)
          have hskip : skipSpaces (space :: [space].intercalate (v :: ws)) = [space].intercalate (v :: ws) := by
            cases hrest : [space].intercalate (v :: ws) with
            | nil => exact absurd hrest hnil
            | cons c' rest =>
                rw [hrest] at hhead
                have hc' : c' ≠ space := by simpa using hhead
                simp [skipSpaces, hc']
          have htake : ((c :: w) ++ space :: [space].intercalate (v :: ws)).takeWhile (· ≠ space) = c :: w := by
            rw [List.takeWhile_append_of_pos hstop]
            simp
          have hdrop : ((c :: w) ++ space :: [space].intercalate (v :: ws)).dropWhile (· ≠ space) =
              space :: [space].intercalate (v :: ws) := by
            rw [List.dropWhile_append_of_pos hstop]
            simp
          rw [hlist]
          refine ⟨by simpa using hc, by simp, ?_⟩
          rw [shrinkLoop, htake, hdrop, if_neg (List.cons_ne_nil _ _), hskip, if_neg hnil, hloop]

theorem shrink_intercalate {ws : List Bytes} (hne : ws ≠ []) (hws : ∀ w ∈ ws, w ≠ [] ∧ space ∉ w) :
    shrink ([space].intercalate ws) = [space].intercalate ws := by
  obtain ⟨hhead, hnil, hloop⟩ := shrinkLoop_intercalate hne hws le_rfl
  rw [shrink, if_neg hhead, if_neg hnil, hloop]

theorem simplify_words {str : Bytes} (h : simplify s [] "trigger" str = .ok text)
    (hne : text ≠ []) : ∀ w ∈ words text, w ≠ [] := by
  rw [simplify] at h
  obtain ⟨result, hcommon, h⟩ := bind_eq_ok.mp h
  split_ifs at h with hresult
  · obtain rfl := Except.ok.inj h
    exact absurd hresult hne
  · obtain rfl := Except.ok.inj h
    exact shrink_words hne

theorem splitWords_eq (word text : Bytes) (hword : space ∉ word)
    (h : ∀ w ∈ words (word ++ text), w ≠ []) : splitWords word text = words (word ++ text) := by
  induction word, text using splitWords.induct with
  | case1 word => rw [splitWords, List.append_nil, words_of_not_mem hword]
  | case2 word =>
      have hwords : words (word ++ [space]) = words word ++ [[]] := words_append word []
      rw [hwords] at h
      exact absurd rfl (h [] (by simp))
  | case3 word c hc =>
      have hnot : space ∉ word ++ [c] := by simp [hword, Ne.symm hc]
      rw [splitWords, if_neg hc, words_of_not_mem hnot]
  | case4 word c' cur ih =>
      have hwords : words (word ++ space :: c' :: cur) = word :: words (c' :: cur) := by
        rw [words_append, words_of_not_mem hword]
        rfl
      rw [hwords] at h ⊢
      have htail : ∀ w ∈ words (c' :: cur), w ≠ [] := fun w hw => h w (List.mem_cons_of_mem word hw)
      have hc' : c' ≠ space := by
        rintro rfl
        exact htail []
          (by rw [← List.nil_append (space :: cur), words_append]; exact List.mem_append_left _ List.mem_cons_self) rfl
      rw [splitWords, if_pos rfl, ih (by simpa using Ne.symm hc') htail]
      rfl
  | case5 word c c' cur hc ih =>
      have hnot : space ∉ word ++ [c] := by simp [hword, Ne.symm hc]
      have happend : word ++ c :: c' :: cur = word ++ [c] ++ c' :: cur := by simp
      rw [splitWords, if_neg hc, happend]
      exact ih hnot (by rwa [← happend])

theorem mem_words {w : Bytes} (hw : w ∈ words text) : ∀ c ∈ w, c ∈ text ∧ c ≠ space := by
  induction text generalizing w with
  | nil =>
      obtain rfl : w = [] := List.mem_singleton.mp hw
      exact fun c hc => nomatch hc
  | cons a text ih =>
      rw [words, List.splitOn_cons_eq_if_modifyHead, ← words] at hw
      split_ifs at hw with hspace
      · rcases List.mem_cons.mp hw with rfl | hw
        · exact fun c hc => nomatch hc
        · exact fun c hc => ⟨List.mem_cons_of_mem a (ih hw c hc).1, (ih hw c hc).2⟩
      · cases hwords : words text with
        | nil => exact absurd hwords (words_ne_nil text)
        | cons v ws =>
            rw [hwords, List.modifyHead_cons] at hw
            rw [hwords] at ih
            rcases List.mem_cons.mp hw with rfl | hw
            · refine List.forall_mem_cons.mpr ⟨⟨List.mem_cons_self, by simpa using hspace⟩, fun c hc => ?_⟩
              have := ih List.mem_cons_self c hc
              exact ⟨List.mem_cons_of_mem a this.1, this.2⟩
            · intro c hc
              have := ih (List.mem_cons_of_mem v hw) c hc
              exact ⟨List.mem_cons_of_mem a this.1, this.2⟩

/-! ## 簡単にした文字列 -/

theorem mem_partsOf_simplified (h : y ∈ partsOf s ps) : y.1 ≠ [] ∧ ∃ str, simplify s [] "trigger" str = .ok y.1 := by
  obtain ⟨p, -, hp⟩ := List.mem_flatMap.mp h
  rw [Piece.part] at hp
  split_ifs at hp with htext
  · cases hp
  · rcases hsimplify : simplify s [] "trigger" p.text with e | (_ | ⟨c, t⟩) <;> rw [hsimplify] at hp
    · cases hp
    · cases hp
    · obtain rfl : y = (c :: t, p.quoted) := List.mem_singleton.mp hp
      exact ⟨List.cons_ne_nil c t, p.text, hsimplify⟩

theorem intercalate_words (text : Bytes) : [space].intercalate (words text) = text := List.intercalate_splitOn space

theorem Tidy.simplify_self (hs : Tidy s) {str : Bytes} (h : simplify s [] "trigger" str = .ok text)
    (hne : text ≠ []) : simplify s [] "trigger" text = .ok text := by
  have hfixed := hs.fixed (words text) (words_ne_nil text) fun w hw => ⟨str, text, h, hne, hw⟩
  rwa [intercalate_words] at hfixed

/-! ## 正確でないトリガー -/

theorem Tidy.exists_pieces (hs : Tidy s) (N : List Part)
    (h : ∀ y ∈ N, y.1 ≠ [] ∧ ∃ str, simplify s [] "trigger" str = .ok y.1) :
    ∃ qs, Spells qs (printParts false N) ∧ Simplifies s qs ∧ partsOf s qs = N.map fun y => (y.1, y.1.contains space) := by
  induction N with
  | nil => exact ⟨[], .nil (by simp [printParts]), by simp [Simplifies], rfl⟩
  | cons y N ih =>
      obtain ⟨⟨hne, str, hstr⟩, hN⟩ := List.forall_mem_cons.mp h
      obtain ⟨qs, hspells, hsimplifies, hparts⟩ := ih hN
      have hvalid : ∀ c ∈ y.1, c ≠ quote ∧ c ≠ left ∧ c ≠ right ∧ (y.1.contains space = false → c ≠ space ∧ c ≠ tab) := by
        intro c hc
        obtain ⟨hquote, hleft, hright, htab⟩ := hs.plain str y.1 hstr c hc
        refine ⟨hquote, hleft, hright, fun hspace => ⟨?_, htab⟩⟩
        rintro rfl
        rw [List.contains_iff_mem.mpr hc] at hspace
        cases hspace
      let q : Piece := ⟨y.1.contains space, y.1, hvalid, fun _ => hne⟩
      have hpart : q.part s = some [(y.1, y.1.contains space)] := by
        rw [Piece.part, if_neg hne, hs.simplify_self hstr hne]
        cases hy : y.1 with
        | nil => exact absurd hy hne
        | cons c t => simp [q, hy]
      have hprint : q.print = printPart false y := by simp [Piece.print, printPart, needsQuotes, q]
      have hnil : ∀ c ∈ ([] : Bytes), isBlank c = true := by simp
      refine ⟨q :: qs, ?_, List.forall_mem_cons.mpr ⟨by simp [hpart], hsimplifies⟩, ?_⟩
      · cases N with
        | nil =>
            rw [printParts, ← hprint]
            have hspells' := @Spells.cons q qs [] [] hnil (fun _ => by simp [Delimited]) hspells
            rwa [List.append_nil] at hspells'
        | cons z N =>
            have hcons : printParts false (y :: z :: N) = printPart false y ++ space :: printParts false (z :: N) := rfl
            rw [hcons, ← hprint]
            refine @Spells.cons q qs [] (space :: printParts false (z :: N)) hnil (fun _ c hc => .inl ?_) hspells.blank
            obtain rfl : space = c := by simpa using hc
            rfl
      · rw [partsOf, List.flatMap_cons, ← partsOf, hparts, hpart]
        rfl

theorem printParts_congr {f : Part → Part} (hf : ∀ y, (f y).1 = y.1) (exact : Bool)
    (N : List Part) : printParts exact (N.map f) = printParts exact N := by
  have hpart : ∀ y, printPart exact (f y) = printPart exact y :=
    fun y => by rw [printPart, printPart, needsQuotes, needsQuotes, hf]
  induction N with
  | nil => rfl
  | cons y N ih =>
      cases N with
      | nil => exact hpart y
      | cons z N => exact congrArg₂ (· ++ space :: ·) (hpart y) ih

theorem narrow_map_narrow {f : Part → Part} (hf : ∀ y, (f y).1 = y.1) (L : List Part) :
    narrow ((narrow L).map f) = (narrow L).map f := by
  have hsymm : ∀ {x y : Part}, Apart below x y → Apart below y x := fun h => ⟨h.1.symm, h.2.2, h.2.1⟩
  have hapart : (narrow L).Pairwise (Apart below) := ((narrow_perm L).pairwise_iff hsymm).mpr (pairwise_prune below _ L)
  have hmap : ((narrow L).map f).Pairwise (Apart below) := by
    rw [List.pairwise_map]
    refine hapart.imp fun {x y} h => ?_
    rwa [Apart, hf, hf]
  have hsorted : ((narrow L).map f).Pairwise partLe := by
    rw [List.pairwise_map]
    refine (hapart.and (sorted_narrow L)).imp fun {x y} h => ?_
    have hne : x.1.map UInt8.toNat ≠ y.1.map UInt8.toNat := fun heq =>
      h.1.1 (List.map_injective_iff.mpr (fun _ _ h => UInt8.toNat_inj.mp h) heq)
    have hle := h.2
    rw [partLe_iff, Prod.Lex.toLex_le_toLex] at hle
    rw [partLe_iff, Prod.Lex.toLex_le_toLex, hf, hf]
    exact .inl (hle.resolve_right fun heq => hne heq.1)
  rw [narrow, narrowLoop_eq, prune_of_pairwise hmap le_rfl]
  exact hsorted.insertionSort_eq

/-! ## 正確なトリガー -/

def ExactParts (s : Simplifier) (d : Division) : Prop :=
  d.count = UInt32.ofNat d.parts.length ∧ ∀ y ∈ d.parts, y.2 = false ∧ y.1 ≠ [] ∧ SimplifiedWord s y.1

theorem ExactParts.push {word : Bytes} (h : ExactParts s d) (hne : word ≠ [])
    (hword : SimplifiedWord s word) : ExactParts s (d.push word false 1) := by
  refine ⟨?_, fun y hy => ?_⟩
  · change d.count + 1 = UInt32.ofNat (d.parts ++ [(word, false)]).length
    rw [h.1, List.length_append, UInt32.ofNat_add]
    rfl
  · rcases List.mem_append.mp hy with hy | hy
    · exact h.2 y hy
    · obtain rfl := List.mem_singleton.mp hy
      exact ⟨rfl, hne, hword⟩

theorem ExactParts.foldl_push (h : ExactParts s d) (ws : List Bytes) (hws : ∀ w ∈ ws, w ≠ [] ∧ SimplifiedWord s w) :
    ExactParts s (ws.foldl (fun d word => d.push word false 1) d) := by
  induction ws generalizing d with
  | nil => exact h
  | cons w ws ih =>
      obtain ⟨hw, hws⟩ := List.forall_mem_cons.mp hws
      exact ih (h.push hw.1 hw.2) hws

theorem ExactParts.addPart {quotes : Bool} (h : ExactParts s d)
    (hadd : addPart s T text quotes true d = .ok d') : ExactParts s d' := by
  rw [NormalizeTrigger.addPart] at hadd
  by_cases htext : text = []
  · rw [if_pos htext] at hadd
    obtain rfl := Except.ok.inj hadd
    exact h
  rw [if_neg htext] at hadd
  rcases simplify_cases s T text with ⟨t, ht, ht'⟩ | ⟨e, e', he, -⟩
  · rw [ht, ok_bind] at hadd
    by_cases hnil : t = []
    · rw [if_pos hnil] at hadd
      obtain rfl := Except.ok.inj hadd
      exact h
    · rw [if_neg hnil, if_pos rfl] at hadd
      obtain rfl := Except.ok.inj hadd
      have hwords := simplify_words ht' hnil
      have hsplit : splitWords [] t = words t := splitWords_eq [] t (by simp) hwords
      rw [hsplit]
      exact h.foldl_push _ fun w hw => ⟨hwords w hw, text, t, ht', hnil, hw⟩
  · rw [he] at hadd
    cases hadd

def exactRest (s : Simplifier) (trigger : Bytes) (fuel : Nat) (rest : Bytes) (d : Division) : Except Exception Division :=
  match next rest with
  | [] => .error ⟨"no right bracket in trigger >", trigger, "<"⟩
  | cur => divideLoop s trigger true fuel cur d

theorem divideLoop_exact {c : UInt8} (hright : c ≠ right) (trigger cur : Bytes) (d : Division)
    (fuel : Nat) : divideLoop s trigger true (fuel + 1) (c :: cur) d =
      match findSpaceOrQuote true (if c = quote then cur else c :: cur) with
      | none => .error ⟨"unexpected bracket in trigger >", trigger, "<"⟩
      | some r => addPart s trigger (if c = quote then c :: r.1 else r.1) (c = quote) true d >>=
          fun d => exactRest s trigger fuel r.2 d := by
  rw [divideLoop]
  simp only [hright, and_false, if_false, Bool.not_true, Bool.false_and, Bool.false_eq_true,
    true_and, decide_eq_true_eq, if_true]
  cases findSpaceOrQuote true (if c = quote then cur else c :: cur) <;> rfl

theorem ExactParts.divideLoop {cur : Bytes} (h : ExactParts s d)
    (hloop : divideLoop s T true fuel cur d = .ok d') : ExactParts s d' := by
  induction fuel generalizing cur d with
  | zero =>
      obtain rfl := Except.ok.inj hloop
      exact h
  | succ fuel ih =>
      cases cur with
      | nil =>
          obtain rfl := Except.ok.inj hloop
          exact h
      | cons c cur =>
          by_cases hright : c = right
          · rw [NormalizeTrigger.divideLoop, if_pos ⟨rfl, hright⟩] at hloop
            by_cases hnext : next cur = []
            · rw [if_neg (by simp [hnext])] at hloop
              obtain rfl := Except.ok.inj hloop
              exact h
            · rw [if_pos hnext] at hloop
              cases hloop
          · rw [divideLoop_exact hright] at hloop
            rcases hfind : findSpaceOrQuote true (if c = quote then cur else c :: cur) with _ | ⟨text, rest⟩
            · rw [hfind] at hloop
              cases hloop
            · rw [hfind] at hloop
              dsimp only at hloop
              obtain ⟨d₁, hadd, hloop⟩ := bind_eq_ok.mp hloop
              rw [exactRest] at hloop
              cases hnext : next rest with
              | nil =>
                  rw [hnext] at hloop
                  cases hloop
              | cons c' cur' =>
                  rw [hnext] at hloop
                  exact ih (h.addPart hadd) hloop

theorem findSpaceOrQuote_right (h : ∀ c ∈ text, c ≠ quote ∧ c ≠ left ∧ c ≠ right ∧ c ≠ space ∧ c ≠ tab) (rest : Bytes) :
    findSpaceOrQuote true (text ++ right :: rest) = some (text, right :: rest) := by
  induction text with
  | nil => rfl
  | cons c text ih =>
      obtain ⟨hc, htext⟩ := List.forall_mem_cons.mp h
      rw [List.cons_append, findSpaceOrQuote, if_neg (by tauto), if_neg (by tauto), if_neg (by tauto), ih htext]
      rfl

structure Writable (s : Simplifier) (w : Bytes) : Prop where
  nonempty : w ≠ []
  valid : ∀ c ∈ w, c ≠ quote ∧ c ≠ left ∧ c ≠ right ∧ c ≠ space ∧ c ≠ tab
  fixed : simplify s [] "trigger" w = .ok w

theorem Writable.addPart (h : Writable s text) (trigger : Bytes) (quotes : Bool) (d : Division) :
    addPart s trigger text quotes true d = .ok (d.push text false 1) := by
  have hsimplify : simplify s trigger "trigger" text = .ok text := by
    rcases simplify_cases s trigger text with ⟨t, ht, ht'⟩ | ⟨e, e', -, he'⟩
    · rw [h.fixed] at ht'
      rw [ht, ← Except.ok.inj ht']
    · rw [h.fixed] at he'
      cases he'
  have hspace : space ∉ text := fun hmem => (h.valid space hmem).2.2.2.1 rfl
  have hsplit : splitWords [] text = [text] := by
    have hwords := words_of_not_mem hspace
    rw [splitWords_eq [] text (by simp) (by rw [List.nil_append, hwords]; simpa using h.nonempty), List.nil_append, hwords]
  rw [NormalizeTrigger.addPart, if_neg h.nonempty, hsimplify, ok_bind, if_neg h.nonempty, if_pos rfl, hsplit]
  rfl

theorem Writable.divideLoop (h : Writable s text) {rest : Bytes}
    (hrest : Delimited rest ∨ ∃ rest', rest = right :: rest') (trigger : Bytes)
    (d : Division) (fuel : Nat) :
    divideLoop s trigger true (fuel + 1) (text ++ rest) d = exactRest s trigger fuel rest (d.push text false 1) := by
  have hfind : findSpaceOrQuote true (text ++ rest) = some (text, rest) := by
    rcases hrest with hrest | ⟨rest', rfl⟩
    · exact findSpaceOrQuote_append h.valid hrest true
    · exact findSpaceOrQuote_right h.valid rest'
  have hvalid := h.valid
  have hadd := fun q => h.addPart trigger q d
  cases htext : text with
  | nil => exact absurd htext h.nonempty
  | cons c t =>
      rw [htext] at hfind hvalid hadd
      obtain ⟨hquote, -, hright, -⟩ := hvalid c List.mem_cons_self
      rw [List.cons_append] at hfind ⊢
      rw [divideLoop_exact hright, if_neg hquote, hfind]
      dsimp only
      rw [if_neg hquote, hadd, ok_bind]

theorem Writable.print_head {W : List Part} (h : Writable s y.1) :
    ∀ c ∈ (printParts true (y :: W) ++ [right]).head?, isBlank c = false := by
  have hprint : printPart true y = y.1 := by simp [printPart, needsQuotes]
  obtain ⟨R, hR⟩ : ∃ R, printParts true (y :: W) = y.1 ++ R := by
    cases W with
    | nil => exact ⟨[], by rw [List.append_nil]; exact hprint⟩
    | cons z W => exact ⟨space :: printParts true (z :: W), congrArg (· ++ space :: printParts true (z :: W)) hprint⟩
  have hvalid := h.valid
  rw [hR]
  cases hy : y.1 with
  | nil => exact absurd hy h.nonempty
  | cons c t =>
      rw [hy] at hvalid
      intro c' hc
      obtain rfl : c = c' := by simpa using hc
      have := hvalid c List.mem_cons_self
      simp [isBlank, this]

theorem divideLoop_words (W : List Part) (hne : W ≠ []) (hW : ∀ y ∈ W, y.2 = false ∧ Writable s y.1)
    (trigger : Bytes) (d : Division) (hfuel : (printParts true W ++ [right]).length ≤ fuel) :
    divideLoop s trigger true fuel (printParts true W ++ [right]) d = .ok (d.pushAll 1 W) := by
  induction W generalizing d fuel with
  | nil => exact absurd rfl hne
  | cons y W ih =>
      obtain ⟨⟨hflag, hy⟩, hW⟩ := List.forall_mem_cons.mp hW
      have hcons : d.pushAll 1 (y :: W) = (d.push y.1 false 1).pushAll 1 W := by rw [← hflag]; rfl
      have hprint : printPart true y = y.1 := by simp [printPart, needsQuotes]
      have hpos := List.length_pos_of_ne_nil hy.nonempty
      rw [hcons]
      cases fuel with
      | zero => simp at hfuel
      | succ fuel =>
          cases W with
          | nil =>
              have hcur : printParts true [y] = y.1 := hprint
              rw [hcur] at hfuel ⊢
              rw [hy.divideLoop (.inr ⟨[], rfl⟩), exactRest, next_of_head (by rintro _ ⟨⟩; rfl)]
              rw [List.length_append, List.length_singleton] at hfuel
              obtain ⟨fuel, rfl⟩ : ∃ m, fuel = m + 1 := ⟨fuel - 1, by omega⟩
              rfl
          | cons z W =>
              have hcur : printParts true (y :: z :: W) ++ [right] =
                  y.1 ++ (space :: (printParts true (z :: W) ++ [right])) := by
                have hcons : printParts true (y :: z :: W) = printPart true y ++ space :: printParts true (z :: W) := rfl
                rw [hcons, hprint, List.append_assoc]
                rfl
              rw [hcur] at hfuel ⊢
              rw [List.length_append, List.length_cons] at hfuel
              have hnext : next (space :: (printParts true (z :: W) ++ [right])) = printParts true (z :: W) ++ [right] :=
                next_of_head (hW z List.mem_cons_self).2.print_head
              have hdelimited : Delimited (space :: (printParts true (z :: W) ++ [right])) := by
                intro c hc
                obtain rfl : space = c := by simpa using hc
                exact .inl rfl
              have hread := @ih fuel (List.cons_ne_nil z W) hW (d.push y.1 false 1) (by omega)
              rw [hy.divideLoop (.inl hdelimited), exactRest, hnext]
              cases hlist : printParts true (z :: W) ++ [right] with
              | nil => simp at hlist
              | cons c cur => rwa [hlist] at hread

/-! ## 正確なトリガーの読み直し -/

theorem Tidy.writable (hs : Tidy s) {w : Bytes} (hne : w ≠ []) (hw : SimplifiedWord s w) : Writable s w := by
  have hfixed := hs.fixed [w] (List.cons_ne_nil _ _) fun v hv => by rwa [List.mem_singleton.mp hv]
  refine ⟨hne, fun c hc => ?_, by simpa using hfixed⟩
  obtain ⟨str, text, htext, -, hmem⟩ := hw
  have hchar := mem_words hmem c hc
  have hplain := hs.plain str text htext c hchar.1
  exact ⟨hplain.1, hplain.2.1, hplain.2.2.1, hchar.2, hplain.2.2.2⟩

theorem Tidy.normalizeTrigger_exact (hs : Tidy s) (h : ExactParts s d) (hcount : d.count ≠ 0)
    (hlen : (combine ⟨true, d.parts⟩).length ≤ 1024) :
    normalizeTrigger s (combine ⟨true, d.parts⟩) = .ok (combineTrigger ⟨true, d.parts⟩) := by
  have hwritable : ∀ y ∈ d.parts, y.2 = false ∧ Writable s y.1 := by
    intro y hy
    obtain ⟨hflag, hne, hword⟩ := h.2 y hy
    exact ⟨hflag, hs.writable hne hword⟩
  have hcombine : combine ⟨true, d.parts⟩ = left :: (printParts true d.parts ++ [right]) := rfl
  have hne : d.parts ≠ [] := by
    intro hnil
    rw [h.1, hnil] at hcount
    exact hcount rfl
  rw [hcombine] at hlen ⊢
  have hread := @divideLoop_words s _ d.parts hne hwritable (left :: (printParts true d.parts ++ [right])) ⟨[], 0, 1⟩ le_rfl
  have hfirst : next (printParts true d.parts ++ [right]) = printParts true d.parts ++ [right] := by
    refine next_of_head ?_
    cases hparts : d.parts with
    | nil => exact absurd hparts hne
    | cons y W =>
        rw [hparts] at hwritable
        exact (hwritable y List.mem_cons_self).2.print_head
  have hnext : next (left :: (printParts true d.parts ++ [right])) = left :: (printParts true d.parts ++ [right]) := by
    refine next_of_head fun c hc => ?_
    obtain rfl : left = c := by simpa using hc
    rfl
  have hdivide : divide s (left :: (printParts true d.parts ++ [right])) =
      .ok (⟨true, d.parts⟩, Division.pushAll ⟨[], 0, 1⟩ 1 d.parts) := by
    rw [divide, if_neg (by omega), hnext]
    simp only [if_true, hfirst]
    cases hlist : printParts true d.parts ++ [right] with
    | nil => simp at hlist
    | cons c cur =>
        rw [hlist] at hread
        change (divideLoop s (left :: c :: cur) true (c :: cur).length (c :: cur) ⟨[], 0, 1⟩ >>=
          fun d => .ok ((⟨true, d.parts⟩ : Split), d)) = _
        rw [hread, ok_bind, Division.pushAll_parts]
        rfl
  have hcount' : ¬ (Division.pushAll ⟨[], 0, 1⟩ 1 d.parts).count = 0 := by
    rwa [Division.pushAll_count, UInt32.zero_add, ← h.1]
  rw [normalizeTrigger, hdivide, ok_bind]
  dsimp only
  rw [if_neg hcount']
  rfl

theorem Tidy.normalizeTrigger_twice (hs : Tidy s) {t : Trigger} (h : normalizeTrigger s T = .ok t)
    (hlen : t.trigger.length ≤ 1024) :
    ∃ t', normalizeTrigger s t.trigger = .ok t' ∧ t'.trigger = t.trigger := by
  cases hdivide : divide s T with
  | error e =>
      rw [normalizeTrigger, hdivide] at h
      cases h
  | ok r =>
      obtain ⟨split, d⟩ := r
      cases hexact : split.exact with
      | false =>
          obtain ⟨hT, -⟩ := divide_cases hdivide
          obtain ⟨ps, hps⟩ := exists_spells hdivide hexact
          have hsimplifies : Simplifies s ps := by
            by_contra hnot
            obtain ⟨e, he⟩ := normalizeTrigger_error hps hT hnot
            rw [he] at h
            cases h
          rw [normalizeTrigger_spells hps hT hsimplifies] at h
          obtain rfl := Except.ok.inj h
          -- 残った部分は、どれも簡単にした文字列である。
          have hmem : ∀ y ∈ narrow (partsOf s ps), y.1 ≠ [] ∧ ∃ str, simplify s [] "trigger" str = .ok y.1 := by
            intro y hy
            obtain ⟨z, hz, hkey⟩ := exists_mem_of_mem_prune ((narrow_perm _).mem_iff.mp hy)
            rw [← hkey]
            exact mem_partsOf_simplified hz
          obtain ⟨qs, hqs, hsimplifies', hparts⟩ := hs.exists_pieces _ hmem
          refine ⟨_, normalizeTrigger_spells hqs hlen hsimplifies', ?_⟩
          rw [hparts]
          refine (congrArg (printParts false) (narrow_map_narrow ?_ _)).trans
            (printParts_congr ?_ false _) <;> exact fun _ => rfl
      | true =>
          obtain ⟨-, ⟨-, rfl, -⟩ | ⟨c, cur, -, -, -, rfl⟩ | ⟨cur, -, hloop, rfl⟩⟩ := divide_cases hdivide
          · cases hexact
          · cases hexact
          · rw [normalizeTrigger, hdivide, ok_bind] at h
            dsimp only at h
            by_cases hcount : d.count = 0
            · rw [if_pos hcount] at h
              obtain rfl := Except.ok.inj h
              exact ⟨_, rfl, rfl⟩
            · rw [if_neg hcount] at h
              obtain rfl := Except.ok.inj h
              have hstart : ExactParts s ⟨[], 0, 1⟩ := ⟨rfl, by simp⟩
              exact ⟨_, hs.normalizeTrigger_exact (hstart.divideLoop hloop) hcount hlen, rfl⟩

end UnixCommons.Language.NormalizeTrigger
