import Mathlib
import UnixCommons.Language.Lemmas.NormalizeTwice
import UnixCommons.Language.TriggerCursor

/-!
# トリガーを読む位置の補題

位置を進める写しは、終わりを超えて読まず、与えた回数で終わり、残りの並びの写しと同じ結果になる。
-/

namespace UnixCommons.Language.NormalizeTrigger

open Lib Lib.Cursor

variable {s : Simplifier} {T str rest text : Bytes} {d d' : Division} {fuel cur : Nat} {c : UInt8} {exact : Bool}

theorem findSpaceOrQuote_split {l : Bytes} (h : findSpaceOrQuote exact l = some (text, rest)) : l = text ++ rest := by
  induction l generalizing text with
  | nil =>
      obtain ⟨rfl, rfl⟩ := Prod.mk.inj (Option.some.inj h)
      rfl
  | cons c l ih =>
      rw [findSpaceOrQuote] at h
      split_ifs at h
      · obtain ⟨rfl, rfl⟩ := Prod.mk.inj (Option.some.inj h)
        rfl
      · obtain ⟨rfl, rfl⟩ := Prod.mk.inj (Option.some.inj h)
        rfl
      · obtain ⟨r, hr, he⟩ := Option.map_eq_some_iff.mp h
        obtain ⟨rfl, rfl⟩ := Prod.mk.inj he
        rw [List.cons_append, ← ih hr]

theorem findSpaceOrQuote_ne_nil {l : Bytes} (hblank : isBlank c = false) (hquote : c ≠ quote)
    (hright : ¬ (exact = true ∧ c = right))
    (h : findSpaceOrQuote exact (c :: l) = some (text, rest)) : text ≠ [] := by
  rintro rfl
  have hplain : ¬ (c = space ∨ c = tab) := by simpa [isBlank] using hblank
  rw [findSpaceOrQuote, if_neg fun h => h.elim (hplain ∘ .inl) fun h => h.elim (hplain ∘ .inr) hquote] at h
  split_ifs at h with hleft hr hexact
  · exact hright ⟨hexact, hr⟩
  · obtain ⟨r, -, hr⟩ := Option.map_eq_some_iff.mp h
    cases hr

namespace Pointer

/-! ## 探す位置 -/

theorem findQuote_eq (h : At str cur rest) (hfuel : rest.length < fuel) :
    findQuote str fuel cur = .ok ((NormalizeTrigger.findQuote rest).map fun r => cur + r.1.length) := by
  induction fuel generalizing cur rest with
  | zero => exact absurd hfuel (Nat.not_lt_zero _)
  | succ fuel ih =>
      rw [findQuote]
      cases rest with
      | nil =>
          rw [if_pos (h.eq_end_iff.mpr rfl)]
          rfl
      | cons c rest =>
          rw [if_neg h.ne_end, h.read, NormalizeTrigger.findQuote, ok_bind]
          split_ifs
          · rfl
          · rfl
          · rw [ih h.tail (Nat.lt_of_succ_lt_succ hfuel), Option.map_map]
            congr 2
            funext r
            exact (Nat.add_right_comm cur r.1.length 1).symm

theorem findSpaceOrQuote_eq (h : At str cur rest) (exact : Bool) (hfuel : rest.length < fuel) :
    findSpaceOrQuote str exact fuel cur = .ok
      ((NormalizeTrigger.findSpaceOrQuote exact rest).map fun r => cur + r.1.length) := by
  induction fuel generalizing cur rest with
  | zero => exact absurd hfuel (Nat.not_lt_zero _)
  | succ fuel ih =>
      rw [findSpaceOrQuote]
      cases rest with
      | nil =>
          rw [if_pos (h.eq_end_iff.mpr rfl)]
          rfl
      | cons c rest =>
          rw [if_neg h.ne_end, h.read, NormalizeTrigger.findSpaceOrQuote, ok_bind]
          split_ifs
          · rfl
          · rfl
          · rfl
          · rfl
          · rw [ih h.tail (Nat.lt_of_succ_lt_succ hfuel), Option.map_map]
            congr 2
            funext r
            exact (Nat.add_right_comm cur r.1.length 1).symm

theorem next_spec (h : At str cur rest) (hne : rest ≠ []) (hfuel : rest.length ≤ fuel) :
    ∃ cur', next str fuel cur = .ok (decide (NormalizeTrigger.next rest = []), cur') ∧ At str cur'
      (NormalizeTrigger.next rest) := by
  induction fuel generalizing cur rest with
  | zero => exact absurd (List.length_eq_zero_iff.mp (Nat.le_zero.mp hfuel)) hne
  | succ fuel ih =>
      cases rest with
      | nil => exact absurd rfl hne
      | cons c rest =>
          rw [next, h.read, ok_bind]
          by_cases hblank : c = space ∨ c = tab
          · have hnext : NormalizeTrigger.next (c :: rest) = NormalizeTrigger.next rest := by
              simp [NormalizeTrigger.next, hblank]
            rw [if_pos hblank, hnext]
            by_cases hend : cur + 1 = str.length
            · obtain rfl := h.tail.eq_end_iff.mp hend
              rw [if_pos hend]
              exact ⟨cur + 1, rfl, h.tail⟩
            · rw [if_neg hend]
              exact ih h.tail (mt h.tail.eq_end_iff.mpr hend) (Nat.le_of_succ_le_succ hfuel)
          · have hnext : NormalizeTrigger.next (c :: rest) = c :: rest := by simp [NormalizeTrigger.next, hblank]
            rw [if_neg hblank, hnext]
            exact ⟨cur, rfl, h⟩

theorem nextOrEnd_spec (h : At str cur rest) :
    ∃ cur', nextOrEnd str cur = .ok (decide (NormalizeTrigger.next rest = []), cur') ∧ At str cur'
      (NormalizeTrigger.next rest) := by
  rw [nextOrEnd]
  by_cases hend : cur = str.length
  · obtain rfl := h.eq_end_iff.mp hend
    rw [if_pos hend]
    exact ⟨cur, rfl, h⟩
  · rw [if_neg hend]
    exact next_spec h (mt h.eq_end_iff.mpr hend) (by rw [← h.length]; exact Nat.le_add_left _ _)

/-! ## 空白を縮める -/

theorem skipSpaces_spec (h : At str cur (c :: rest)) (hfuel : rest.length < fuel) :
    ∃ cur', cur < cur' ∧ skipSpaces str fuel cur = .ok (decide (NormalizeTrigger.skipSpaces (c :: rest) = []), cur') ∧
      At str cur' (NormalizeTrigger.skipSpaces (c :: rest)) := by
  induction fuel generalizing cur c rest with
  | zero => exact absurd hfuel (Nat.not_lt_zero _)
  | succ fuel ih =>
      rw [skipSpaces]
      cases rest with
      | nil =>
          rw [if_pos (h.tail.eq_end_iff.mpr rfl)]
          exact ⟨cur + 1, Nat.lt_succ_self cur, rfl, h.tail⟩
      | cons c' rest =>
          rw [if_neg h.tail.ne_end, h.tail.read, ok_bind]
          by_cases hspace : c' = space
          · have hskip : NormalizeTrigger.skipSpaces (c :: c' :: rest) = NormalizeTrigger.skipSpaces (c' :: rest) := by
              simp [NormalizeTrigger.skipSpaces, hspace]
            obtain ⟨cur', hlt, hrun, hat⟩ := ih h.tail (Nat.lt_of_succ_lt_succ hfuel)
            rw [if_pos hspace, hskip]
            exact ⟨cur', Nat.lt_trans (Nat.lt_succ_self cur) hlt, hrun, hat⟩
          · have hskip : NormalizeTrigger.skipSpaces (c :: c' :: rest) = c' :: rest := by
              simp [NormalizeTrigger.skipSpaces, hspace]
            rw [if_neg hspace, hskip]
            exact ⟨cur + 1, Nat.lt_succ_self cur, rfl, h.tail⟩

theorem copyWord_spec {p : Shrinking} (h : At p.str p.cur (c :: rest)) (hout : p.out ≤ p.cur) (hfuel : rest.length < fuel) :
    ∃ p' : Shrinking, copyWord fuel p = .ok (decide (rest.dropWhile (· ≠ space) = []), p') ∧
      p'.out ≤ p'.cur ∧ p'.str.length = p.str.length ∧
      p'.resize = p.resize ++ c :: rest.takeWhile (· ≠ space) ∧ At p'.str p'.cur (rest.dropWhile (· ≠ space)) := by
  induction fuel generalizing p c rest with
  | zero => exact absurd hfuel (Nat.not_lt_zero _)
  | succ fuel ih =>
      obtain ⟨str, hwrite, htext, hat⟩ := @At.write UInt8 Exception _ _ _ _ h.tail (Nat.lt_succ_of_le hout) c
      have hlen : str.length = p.str.length := by rw [← hat.length, ← h.tail.length]
      rw [copyWord, h.read, ok_bind, hwrite, ok_bind]
      cases rest with
      | nil =>
          rw [if_pos (hat.eq_end_iff.mpr rfl)]
          exact ⟨⟨str, p.out + 1, p.cur + 1⟩, rfl, Nat.succ_le_succ hout, hlen, htext, hat⟩
      | cons c' rest =>
          rw [if_neg hat.ne_end, hat.read, ok_bind]
          by_cases hspace : c' = space
          · rw [if_neg (not_not.mpr hspace)]
            have hdrop : (c' :: rest).dropWhile (· ≠ space) = c' :: rest := by simp [hspace]
            have htake : (c' :: rest).takeWhile (· ≠ space) = [] := by simp [hspace]
            rw [hdrop, htake]
            exact ⟨⟨str, p.out + 1, p.cur + 1⟩, rfl, Nat.succ_le_succ hout, hlen, htext, hat⟩
          · have hdrop : (c' :: rest).dropWhile (· ≠ space) = rest.dropWhile (· ≠ space) := by simp [hspace]
            have htake : (c' :: rest).takeWhile (· ≠ space) = c' :: rest.takeWhile (· ≠ space) := by simp [hspace]
            obtain ⟨p', hrun, hout', hlen', hresize, hat'⟩ :=
              @ih rest c' ⟨str, p.out + 1, p.cur + 1⟩ hat (Nat.succ_le_succ hout) (Nat.lt_of_succ_lt_succ hfuel)
            have hwritten : Shrinking.resize ⟨str, p.out + 1, p.cur + 1⟩ = p.resize ++ [c] := htext
            rw [if_pos hspace, hdrop, htake]
            refine ⟨p', hrun, hout', hlen'.trans hlen, ?_, hat'⟩
            rw [hresize, hwritten, List.append_assoc]
            rfl

theorem shrinkLoop_eq {p : Shrinking} (h : At p.str p.cur rest) (hne : rest ≠ [])
    (hhead : ∀ c ∈ rest.head?, c ≠ space) (hout : p.out ≤ p.cur)
    {fuel' : Nat} (hfuel : rest.length ≤ fuel) (hfuel' : rest.length ≤ fuel') :
    shrinkLoop fuel p = .ok (p.resize ++ NormalizeTrigger.shrinkLoop fuel' rest) := by
  induction fuel generalizing p rest fuel' with
  | zero => exact absurd (List.length_eq_zero_iff.mp (Nat.le_zero.mp hfuel)) hne
  | succ fuel ih =>
      obtain _ | fuel' := fuel'
      · exact absurd (List.length_eq_zero_iff.mp (Nat.le_zero.mp hfuel')) hne
      cases rest with
      | nil => exact absurd rfl hne
      | cons c rest =>
          have hc : c ≠ space := hhead c rfl
          have htake : (c :: rest).takeWhile (· ≠ space) = c :: rest.takeWhile (· ≠ space) := by simp [hc]
          have hdrop : (c :: rest).dropWhile (· ≠ space) = rest.dropWhile (· ≠ space) := by simp [hc]
          have hlen := h.length
          rw [List.length_cons] at hlen hfuel hfuel'
          obtain ⟨p₁, hcopy, hout₁, hlen₁, hresize, hat₁⟩ := copyWord_spec h hout (show rest.length < p.str.length by omega)
          rw [shrinkLoop, hcopy, ok_bind, NormalizeTrigger.shrinkLoop, htake, hdrop]
          dsimp only
          cases hword : rest.dropWhile (· ≠ space) with
          | nil =>
              rw [hword] at hat₁
              simp only [decide_true, if_true, hresize]
              rfl
          | cons c' rest' =>
              rw [hword] at hat₁
              have hat₁len := hat₁.length
              have hle := (List.dropWhile_suffix (l := rest) (· ≠ space)).length_le
              rw [hword] at hle
              rw [List.length_cons] at hat₁len hle
              obtain ⟨cur₂, hlt, hskip, hat₂⟩ := skipSpaces_spec hat₁ (show rest'.length < p₁.str.length by omega)
              have hshort := skipSpaces_length_lt (List.cons_ne_nil c' rest')
              rw [List.length_cons] at hshort
              have hdec : decide (c' :: rest' = []) = false := decide_eq_false (List.cons_ne_nil c' rest')
              rw [hdec, if_neg Bool.false_ne_true, hskip, ok_bind, if_neg (List.cons_ne_nil c' rest')]
              dsimp only
              by_cases hend : NormalizeTrigger.skipSpaces (c' :: rest') = []
              · rw [if_pos (decide_eq_true hend), if_pos hend, hresize]
                rfl
              · obtain ⟨str₃, hwrite, htext, hat₃⟩ :=
                  @At.write UInt8 Exception _ _ _ _ hat₂ (show p₁.out < cur₂ by omega) space
                have hwritten : Shrinking.resize ⟨str₃, p₁.out + 1, cur₂⟩ = p₁.resize ++ [space] := htext
                have hrest := @ih _ ⟨str₃, p₁.out + 1, cur₂⟩ hat₃ hend (skipSpaces_head _)
                    (show p₁.out + 1 ≤ cur₂ by omega) fuel' (by omega) (by omega)
                rw [decide_eq_false hend, if_neg Bool.false_ne_true, if_neg hend, hwrite, ok_bind, hrest, hwritten, hresize]
                simp

theorem shrink_eq (hne : str ≠ []) : shrink str = .ok (NormalizeTrigger.shrink str) := by
  cases str with
  | nil => exact absurd rfl hne
  | cons c rest =>
      have hat := At.start (c :: rest)
      rw [shrink, hat.read, ok_bind, NormalizeTrigger.shrink, List.head?_cons]
      by_cases hspace : c = space
      · obtain ⟨cur, hlt, hskip, hat'⟩ := skipSpaces_spec hat (Nat.lt_succ_self rest.length)
        have hshort := skipSpaces_length_lt (List.cons_ne_nil c rest)
        rw [if_pos hspace, List.length_cons, hskip, ok_bind, if_pos (congrArg some hspace)]
        dsimp only
        by_cases hend : NormalizeTrigger.skipSpaces (c :: rest) = []
        · rw [if_pos (decide_eq_true hend), if_pos hend]
          rfl
        · have hloop := shrinkLoop_eq (show At (Shrinking.mk (c :: rest) 0 cur).str cur _ from hat')
              hend (skipSpaces_head _) (Nat.zero_le _)
            (Nat.le_of_lt hshort) le_rfl
          rw [decide_eq_false hend, if_neg Bool.false_ne_true, if_neg hend]
          exact hloop
      · have hloop := shrinkLoop_eq (show At (Shrinking.mk (c :: rest) 0 0).str 0 _ from hat) (List.cons_ne_nil c rest)
          (fun c' hc' => by rwa [← Option.some.inj hc']) le_rfl le_rfl le_rfl
        rw [if_neg hspace, if_neg (mt Option.some.inj hspace)]
        exact hloop

theorem simplify_eq (s : Simplifier) (trigger : Bytes) (name : String) (str : Bytes) :
    simplify s trigger name str = (NormalizeTrigger.simplify s trigger name str).mapError .thrown := by
  rw [simplify, NormalizeTrigger.simplify, mapError_bind]
  congr 1
  funext result
  split_ifs with hresult
  · rfl
  · rw [shrink_eq hresult]
    rfl

/-! ## 部分に分ける -/

theorem addWords_eq {first : Nat} {word : Bytes} (h : At str first (word ++ rest))
    (hcur : cur = first + word.length) (hword : space ∉ word)
    (hwords : ∀ w ∈ words (word ++ rest), w ≠ []) (hfuel : rest.length < fuel) :
    addWords str fuel first cur d = .ok ((words (word ++ rest)).foldl (fun d word => d.push word false 1) d) := by
  subst hcur
  induction fuel generalizing first word rest d with
  | zero => exact absurd hfuel (Nat.not_lt_zero _)
  | succ fuel ih =>
      have hat := h.append
      rw [addWords, h.between]
      cases rest with
      | nil =>
          rw [if_pos (hat.eq_end_iff.mpr rfl), List.append_nil, words_of_not_mem hword]
          rfl
      | cons c rest =>
          rw [if_neg hat.ne_end, hat.read, ok_bind]
          by_cases hspace : c = space
          · subst hspace
            rw [words_append, words_of_not_mem hword] at hwords
            have htail : ∀ w ∈ words rest, w ≠ [] := fun w hw => hwords w (List.mem_cons_of_mem word hw)
            obtain _ | ⟨c', rest⟩ := rest
            · exact absurd rfl (htail [] List.mem_cons_self)
            have hc' : c' ≠ space := by
              rintro rfl
              exact htail []
                (by rw [← List.nil_append (space :: rest),
                words_append]; exact List.mem_append_left _ List.mem_cons_self) rfl
            rw [if_pos rfl, words_append, words_of_not_mem hword, List.singleton_append, List.foldl_cons]
            have hrest := @ih rest (d.push word false 1) (first + word.length + 1) [c'] hat.tail
                (by simpa using Ne.symm hc') htail
              (Nat.lt_of_succ_lt (Nat.lt_of_succ_lt_succ hfuel))
            exact hrest
          · have happend : word ++ c :: rest = word ++ [c] ++ rest := by simp
            rw [happend] at h hwords ⊢
            have hrest := @ih rest d first (word ++ [c]) h (by simp [hword, Ne.symm hspace]) hwords
                (Nat.lt_of_succ_lt_succ hfuel)
            rw [List.length_append, ← Nat.add_assoc] at hrest
            rw [if_neg hspace]
            exact hrest

theorem addPart_eq (s : Simplifier) (trigger text : Bytes) (quotes exact : Bool) (d : Division) :
    addPart s trigger text quotes exact d = (NormalizeTrigger.addPart s trigger text quotes exact d).mapError .thrown := by
  rw [addPart, NormalizeTrigger.addPart]
  by_cases htext : text = []
  · rw [if_pos htext, if_pos htext]
    rfl
  · rw [if_neg htext, if_neg htext, simplify_eq]
    rcases simplify_cases s trigger text with ⟨tmp, htmp, hplain⟩ | ⟨e, e', he, -⟩
    · rw [htmp]
      change (if tmp = [] then _ else _) = Except.mapError _ (if tmp = [] then _ else _)
      by_cases hnil : tmp = []
      · rw [if_pos hnil, if_pos hnil]
        rfl
      · rw [if_neg hnil, if_neg hnil]
        cases exact with
        | false => rfl
        | true =>
            have hwords := simplify_words hplain hnil
            have hsplit := splitWords_eq [] tmp List.not_mem_nil hwords
            have hadd := @addWords_eq tmp tmp d (tmp.length + 1) 0 0 [] (At.start tmp) rfl
                List.not_mem_nil hwords (Nat.lt_succ_self _)
            rw [if_pos rfl, if_pos rfl, hadd, hsplit]
            rfl
    · rw [he]
      rfl

def afterPart (s : Simplifier) (trigger : Bytes) (exact : Bool) (fuel : Nat) (rest : Bytes)
    (d : Division) : Except Exception Division :=
  match NormalizeTrigger.next rest with
  | [] => if exact then throw ⟨"no right bracket in trigger >", trigger, "<"⟩ else return d
  | cur => NormalizeTrigger.divideLoop s trigger exact fuel cur d

theorem divideLoop_eq (s : Simplifier) (exact : Bool) (h : At T cur rest) (hne : rest ≠ [])
    (hhead : ∀ c ∈ rest.head?, isBlank c = false)
    {fuel' : Nat} (hfuel : rest.length ≤ fuel) (hfuel' : rest.length ≤ fuel') :
    divideLoop s T exact fuel cur d = (NormalizeTrigger.divideLoop s T exact fuel' rest d).mapError .thrown := by
  induction fuel generalizing cur rest d fuel' with
  | zero => exact absurd (List.length_eq_zero_iff.mp (Nat.le_zero.mp hfuel)) hne
  | succ fuel ih =>
      obtain _ | fuel' := fuel'
      · exact absurd (List.length_eq_zero_iff.mp (Nat.le_zero.mp hfuel')) hne
      obtain _ | ⟨c, rest⟩ := rest
      · exact absurd rfl hne
      rw [divideLoop, NormalizeTrigger.divideLoop, h.read, ok_bind]
      have hlen := h.length
      rw [List.length_cons] at hlen hfuel hfuel'
      -- 部分の後の、どちらの写しでも同じ続き。
      have hrest : ∀ (text rest' : Bytes) (cur' : Nat), At T cur' rest' →
          (NormalizeTrigger.next rest').length ≤ rest.length →
          (addPart s T text (decide (c = quote)) exact d >>= fun d => nextOrEnd T cur' >>= fun r =>
            if r.1 then (if exact then throw (.thrown ⟨"no right bracket in trigger >", T, "<"⟩) else return d)
            else divideLoop s T exact fuel r.2 d) =
          (NormalizeTrigger.addPart s T text (decide (c = quote)) exact d >>= afterPart s T
          exact fuel' rest').mapError .thrown := by
        intro text rest' cur' hat hshort
        rw [mapError_bind, addPart_eq]
        congr 1
        funext d
        rw [afterPart]
        obtain ⟨cur'', hnext, hat'⟩ := nextOrEnd_spec hat
        rw [hnext, ok_bind]
        have hhead' := next_head rest'
        cases hcur : NormalizeTrigger.next rest' with
        | nil => cases exact <;> rfl
        | cons c' rest'' =>
            rw [hcur] at hat' hshort hhead'
            exact ih hat' (List.cons_ne_nil c' rest'') hhead' (by omega) (by omega)
      by_cases hright : exact = true ∧ c = right
      · obtain ⟨cur', hnext, -⟩ := nextOrEnd_spec h.tail
        rw [if_pos hright, if_pos hright, hnext, ok_bind]
        by_cases hend : NormalizeTrigger.next rest = []
        · rw [if_neg (not_not.mpr hend), decide_eq_true hend]
          rfl
        · rw [if_pos hend, decide_eq_false hend]
          rfl
      · rw [if_neg hright, if_neg hright]
        by_cases hphrase : (!exact && decide (c = quote)) = true
        · have hfind := findQuote_eq h.tail (show rest.length < T.length + 1 by omega)
          rw [if_pos hphrase, if_pos hphrase, hfind, ok_bind]
          rcases hlist : NormalizeTrigger.findQuote rest with _ | ⟨text, rest'⟩
          · rfl
          · have hsplit := (of_findQuote hlist).1
            have hat := h.tail
            rw [hsplit] at hat
            obtain _ | ⟨c', rest'⟩ := rest'
            · have hend : cur + 1 + text.length = T.length := hat.append.eq_end_iff.mpr rfl
              dsimp only [Option.map_some]
              rw [if_pos hend]
              rfl
            · dsimp only [Option.map_some]
              have hle : (NormalizeTrigger.next rest').length ≤ rest.length := by
                have hnext := next_length_le rest'
                rw [hsplit, List.length_append, List.length_cons]
                omega
              rw [if_neg hat.append.ne_end]
              have htext := hat.between
              have hgoal := hrest text rest' _ hat.append.tail hle
              simp only [pure_bind, htext]
              exact hgoal
        · rw [if_neg hphrase, if_neg hphrase]
          by_cases hexact : exact = true ∧ decide (c = quote) = true
          · have hfind := findSpaceOrQuote_eq h.tail exact (show rest.length < T.length + 1 by omega)
            rw [if_pos hexact, if_pos hexact, hfind, ok_bind]
            rcases hlist : NormalizeTrigger.findSpaceOrQuote exact rest with _ | ⟨text, rest'⟩
            · rfl
            · have hsplit := findSpaceOrQuote_split hlist
              have hat := h
              rw [hsplit, ← List.cons_append] at hat
              have hle : (NormalizeTrigger.next rest').length ≤ rest.length := by
                have hnext := next_length_le rest'
                rw [hsplit, List.length_append]
                omega
              have htext := hat.between
              have hgoal := hrest (c :: text) rest' _ hat.append hle
              rw [List.length_cons, Nat.add_comm text.length 1, ← Nat.add_assoc] at htext hgoal
              simp only [Option.map_some, pure_bind, htext, if_pos hexact]
              exact hgoal
          · have hfind :=
              findSpaceOrQuote_eq h exact (show (c :: rest).length < T.length + 1 by rw [List.length_cons]; omega)
            rw [if_neg hexact, if_neg hexact, hfind, ok_bind]
            rcases hlist : NormalizeTrigger.findSpaceOrQuote exact (c :: rest) with _ | ⟨text, rest'⟩
            · rfl
            · have hsplit := findSpaceOrQuote_split hlist
              have hat := h
              rw [hsplit] at hat
              have hle : (NormalizeTrigger.next rest').length ≤ rest.length := by
                have hnext := next_length_le rest'
                have hlength := congrArg List.length hsplit
                rw [List.length_append, List.length_cons] at hlength
                have hquote : c ≠ quote := by
                  rintro rfl
                  cases exact with
                  | true => exact hexact ⟨rfl, rfl⟩
                  | false => exact hphrase rfl
                have hpos := List.length_pos_of_ne_nil (findSpaceOrQuote_ne_nil (hhead c rfl) hquote hright hlist)
                omega
              have htext := hat.between
              have hgoal := hrest text rest' _ hat.append hle
              simp only [Option.map_some, pure_bind, htext, if_neg hexact]
              exact hgoal

theorem divide_eq (s : Simplifier) (T : Bytes) : divide s T = (NormalizeTrigger.divide s T).mapError .thrown := by
  rw [divide, NormalizeTrigger.divide]
  by_cases hlen : T.length > 1024
  · rw [if_pos hlen, if_pos hlen]
    rfl
  · rw [if_neg hlen, if_neg hlen]
    by_cases hnil : T = []
    · subst hnil
      rfl
    · obtain ⟨cur, hnext, hat⟩ := next_spec (At.start T) hnil le_rfl
      have hhead := next_head T
      rw [if_neg hnil, hnext, ok_bind]
      cases hrest : NormalizeTrigger.next T with
      | nil => rfl
      | cons c rest =>
          rw [hrest] at hat hhead
          have hlength := hat.length
          rw [List.length_cons] at hlength
          simp only [List.cons_ne_nil, decide_false, Bool.false_eq_true, if_false, hat.read, ok_bind]
          by_cases hleft : c = left
          · obtain ⟨cur', hnext', hat'⟩ := nextOrEnd_spec hat.tail
            have hhead' := next_head rest
            rw [if_pos hleft, if_pos hleft, hnext', ok_bind]
            have hle := next_length_le rest
            cases hrest' : NormalizeTrigger.next rest with
            | nil => rfl
            | cons c' rest' =>
                rw [hrest'] at hat' hhead' hle
                have hloop := @divideLoop_eq T (c' :: rest') ⟨[], 0, 1⟩ T.length cur' s true hat'
                    (List.cons_ne_nil c' rest') hhead'
                  (c' :: rest').length (by omega) le_rfl
                simp only [List.cons_ne_nil, decide_false, Bool.false_eq_true, if_false, hloop, mapError_bind]
                rfl
          · have hloop := @divideLoop_eq T (c :: rest) ⟨[], 0, 0⟩ T.length cur s false hat (List.cons_ne_nil c rest) hhead
              (c :: rest).length (by rw [List.length_cons]; omega) le_rfl
            rw [if_neg hleft, if_neg hleft, hloop, mapError_bind]
            rfl

end Pointer

/-! ## 読むことのできるトリガー -/

def Enclosed (l : Bytes) : Prop :=
  ∃ body after, l = body ++ right :: after ∧ (∀ c ∈ body, c ≠ left ∧ c ≠ right) ∧ ∀ c ∈ after, isBlank c = true

theorem not_enclosed_nil : ¬ Enclosed [] := by
  rintro ⟨body, after, h, -⟩
  cases body <;> cases h

theorem not_enclosed_left (l : Bytes) : ¬ Enclosed (left :: l) := by
  rintro ⟨_ | ⟨c, body⟩, after, h, hbody, -⟩
  · cases h
  · obtain ⟨rfl, -⟩ := List.cons.inj h
    exact (hbody left List.mem_cons_self).1 rfl

theorem enclosed_right_iff (l : Bytes) : Enclosed (right :: l) ↔ next l = [] := by
  constructor
  · rintro ⟨_ | ⟨c, body⟩, after, h, hbody, hafter⟩
    · obtain rfl : l = after := (List.cons.inj h).2
      exact next_of_blanks hafter
    · obtain ⟨rfl, -⟩ := List.cons.inj h
      exact absurd rfl (hbody right List.mem_cons_self).2
  · intro hnext
    exact ⟨[], l, rfl, fun c hc => (nomatch hc), by rw [next_eq] at hnext; simpa using hnext⟩

theorem enclosed_cons_iff {l : Bytes} (hleft : c ≠ left) (hright : c ≠ right) : Enclosed (c :: l) ↔ Enclosed l := by
  constructor
  · rintro ⟨_ | ⟨c', body⟩, after, h, hbody, hafter⟩
    · obtain ⟨rfl, -⟩ := List.cons.inj h
      exact absurd rfl hright
    · obtain ⟨rfl, rfl⟩ := List.cons.inj h
      exact ⟨body, after, rfl, (List.forall_mem_cons.mp hbody).2, hafter⟩
  · rintro ⟨body, after, rfl, hbody, hafter⟩
    exact ⟨c :: body, after, rfl, List.forall_mem_cons.mpr ⟨⟨hleft, hright⟩, hbody⟩, hafter⟩

theorem enclosed_next_iff (l : Bytes) : Enclosed (next l) ↔ Enclosed l := by
  induction l with
  | nil => rfl
  | cons c l ih =>
      rw [next_eq, List.dropWhile_cons]
      split_ifs with hblank
      · have hplain : c ≠ left ∧ c ≠ right := by
          constructor <;> rintro rfl <;> cases hblank
        rw [enclosed_cons_iff hplain.1 hplain.2, ← ih, next_eq]
      · rfl

theorem enclosed_findSpaceOrQuote {l : Bytes} :
    (findSpaceOrQuote true l = none → ¬ Enclosed l) ∧ ∀ r, findSpaceOrQuote true l = some r →
    (Enclosed l ↔ Enclosed r.2) := by
  induction l with
  | nil =>
      refine ⟨fun h => absurd h (Option.some_ne_none _), fun r h => ?_⟩
      obtain rfl := Option.some.inj h
      rfl
  | cons c l ih =>
      simp only [findSpaceOrQuote, if_true]
      split_ifs with hstop hleft hright
      · refine ⟨fun h => h.elim, fun r h => ?_⟩
        obtain rfl := Option.some.inj h
        rfl
      · subst hleft
        exact ⟨fun _ => not_enclosed_left l, fun r h => h.elim⟩
      · refine ⟨fun h => h.elim, fun r h => ?_⟩
        obtain rfl := Option.some.inj h
        rfl
      · rw [enclosed_cons_iff hleft hright]
        refine ⟨fun h => ih.1 (Option.map_eq_none_iff.mp h), fun r h => ?_⟩
        obtain ⟨r, hr, rfl⟩ := Option.map_eq_some_iff.mp h
        exact ih.2 r hr

theorem simplify_returns (hs : ∀ str, s.caseChange str ≠ none) (T text : Bytes) :
    ∃ tmp, simplify s T "trigger" text = .ok tmp := by
  obtain ⟨res, hres⟩ := Option.ne_none_iff_exists'.mp (hs text)
  rw [simplify, simplifyCommon, hres]
  cases s.putSpaces with
  | none =>
      dsimp only
      rw [pure_bind]
      split_ifs <;> exact ⟨_, rfl⟩
  | some putSpaces =>
      dsimp only
      split_ifs with hnil
      · exact ⟨_, rfl⟩
      · rw [pure_bind]
        split_ifs <;> exact ⟨_, rfl⟩

theorem addPart_returns (hs : ∀ str, s.caseChange str ≠ none) (T text : Bytes) (quotes exact : Bool)
    (d : Division) : ∃ d', addPart s T text quotes exact d = .ok d' := by
  obtain ⟨tmp, htmp⟩ := simplify_returns hs T text
  rw [addPart, htmp]
  split_ifs
  · exact ⟨_, rfl⟩
  · rw [ok_bind]
    split_ifs <;> exact ⟨_, rfl⟩
  · rw [ok_bind]
    split_ifs <;> exact ⟨_, rfl⟩

theorem not_returns {α : Type} (e : Exception) : ¬ ∃ a : α, Except.error e = .ok a := by
  rintro ⟨a, h⟩
  cases h

theorem divideLoop_exact_iff (hs : ∀ str, s.caseChange str ≠ none) (hne : rest ≠ [])
    (hhead : ∀ c ∈ rest.head?, isBlank c = false)
    (hfuel : rest.length ≤ fuel) : (∃ d', divideLoop s T true fuel rest d = .ok d') ↔ Enclosed rest := by
  induction fuel generalizing rest d with
  | zero => exact absurd (List.length_eq_zero_iff.mp (Nat.le_zero.mp hfuel)) hne
  | succ fuel ih =>
      obtain _ | ⟨c, l⟩ := rest
      · exact absurd rfl hne
      by_cases hright : c = right
      · subst hright
        rw [enclosed_right_iff, divideLoop, if_pos ⟨rfl, rfl⟩]
        by_cases hend : next l = []
        · rw [if_neg (not_not.mpr hend)]
          exact iff_of_true ⟨d, rfl⟩ hend
        · rw [if_pos hend]
          exact iff_of_false (not_returns _) hend
      · have hquote : c = quote → (Enclosed (c :: l) ↔ Enclosed l) := by
          rintro rfl
          exact enclosed_cons_iff (by decide) (by decide)
        have henclosed : Enclosed (c :: l) ↔ Enclosed (if c = quote then l else c :: l) := by
          split_ifs with hq
          · exact hquote hq
          · rfl
        obtain ⟨hnone, hsome⟩ := @enclosed_findSpaceOrQuote (if c = quote then l else c :: l)
        rw [divideLoop_exact hright, henclosed]
        rcases hfind : findSpaceOrQuote true (if c = quote then l else c :: l) with _ | ⟨text, rest'⟩
        · exact iff_of_false (not_returns _) (hnone hfind)
        · rw [hsome _ hfind, ← enclosed_next_iff]
          obtain ⟨d₁, hadd⟩ := addPart_returns hs T (if c = quote then c :: text else text) (decide (c = quote)) true d
          dsimp only
          rw [hadd, ok_bind, exactRest]
          have hhead' := next_head rest'
          have hsplit := findSpaceOrQuote_split hfind
          have hnext' := next_length_le rest'
          have hle : (next rest').length ≤ fuel := by
            rw [List.length_cons] at hfuel
            have hlength := congrArg List.length hsplit
            rw [List.length_append] at hlength
            split_ifs at hfind hlength with hq
            · omega
            · rw [List.length_cons] at hlength
              have hpos := List.length_pos_of_ne_nil (findSpaceOrQuote_ne_nil (hhead c rfl) hq (fun h => hright h.2) hfind)
              omega
          cases hnext : next rest' with
          | nil => exact iff_of_false (not_returns _) not_enclosed_nil
          | cons c' rest'' =>
              rw [hnext] at hhead' hle
              exact ih (List.cons_ne_nil c' rest'') hhead' hle

theorem next_bracketed {before : Bytes} (h : ∀ c ∈ before, isBlank c = true) (rest : Bytes) :
    next (before ++ left :: rest) = left :: rest := by
  rw [next_blanks h, next_of_head]
  rintro c hc
  rw [← Option.some.inj hc]
  rfl

theorem readable_left_iff (hnext : next T = left :: rest) : Readable T ↔ Enclosed rest := by
  constructor
  · intro h
    cases h with
    | blank h =>
        rw [next_of_blanks h] at hnext
        cases hnext
    | pieces h => exact absurd rfl (h.next_ne_left left (by rw [hnext]; rfl))
    | bracketed h hblank hbody =>
        obtain ⟨hbefore, hafter⟩ := List.forall_mem_append.mp hblank
        rw [h, next_bracketed hbefore] at hnext
        exact ⟨_, _, (List.cons.inj hnext).2.symm, hbody, hafter⟩
  · rintro ⟨body, after, rfl, hbody, hafter⟩
    have hsplit : T.takeWhile isBlank ++ next T = T := List.takeWhile_append_dropWhile
    have hbefore : ∀ c ∈ T.takeWhile isBlank, isBlank c = true := fun c hc => List.all_eq_true.mp List.all_takeWhile c hc
    rw [hnext] at hsplit
    exact .bracketed hsplit.symm (List.forall_mem_append.mpr ⟨hbefore, hafter⟩) hbody

theorem readable_plain_iff (hnext : ∀ c ∈ (next T).head?, c ≠ left) : Readable T ↔ ∃ ps, Spells ps T := by
  constructor
  · intro h
    cases h with
    | blank h => exact ⟨[], .nil h⟩
    | pieces h => exact ⟨_, h⟩
    | bracketed h hblank =>
        rw [h, next_bracketed (List.forall_mem_append.mp hblank).1] at hnext
        exact absurd rfl (hnext left rfl)
  · rintro ⟨ps, h⟩
    exact .pieces h

theorem divide_iff (hs : ∀ str, s.caseChange str ≠ none) (hlen : T.length ≤ 1024) :
    (∃ r, divide s T = .ok r) ↔ Readable T := by
  by_cases hleft : ∃ rest, next T = left :: rest
  · obtain ⟨rest, hnext⟩ := hleft
    rw [readable_left_iff hnext, ← enclosed_next_iff, divide, if_neg (by omega), hnext]
    have hhead := next_head rest
    cases hrest : next rest with
    | nil =>
        simp only [if_true, hrest]
        exact iff_of_false (not_returns _) not_enclosed_nil
    | cons c rest' =>
        rw [hrest] at hhead
        rw [← @divideLoop_exact_iff s T (c :: rest') ⟨[], 0, 1⟩ (c :: rest').length hs
          (List.cons_ne_nil c rest') hhead le_rfl]
        simp only [if_true, hrest]
        constructor
        · rintro ⟨r, h⟩
          obtain ⟨d, hloop, -⟩ := bind_eq_ok.mp h
          exact ⟨d, hloop⟩
        · rintro ⟨d, hloop⟩
          exact ⟨(⟨true, d.parts⟩, d), bind_eq_ok.mpr ⟨d, hloop, rfl⟩⟩
  · have hhead : ∀ c ∈ (next T).head?, c ≠ left := by
      rintro c hc rfl
      obtain ⟨rest, hnext⟩ := List.head?_eq_some_iff.mp hc
      exact hleft ⟨rest, hnext⟩
    rw [readable_plain_iff hhead]
    constructor
    · rintro ⟨⟨split, d⟩, h⟩
      refine exists_spells h ?_
      rw [divide, if_neg (by omega)] at h
      cases hnext : next T with
      | nil =>
          rw [hnext] at h
          exact congrArg (fun r => r.1.exact) (Except.ok.inj h).symm
      | cons c rest =>
          rw [hnext] at h hhead
          simp only [hhead c rfl, if_false] at h
          obtain ⟨d', -, h⟩ := bind_eq_ok.mp h
          exact congrArg (fun r => r.1.exact) (Except.ok.inj h).symm
    · rintro ⟨ps, h⟩
      have hsimplifies : Simplifies s ps := by
        intro p _
        obtain ⟨tmp, htmp⟩ := simplify_returns hs [] p.text
        rw [Piece.part, htmp]
        split_ifs
        · simp
        · cases tmp <;> simp
      rw [divide_spells h hlen, addParts_ok hsimplifies]
      exact ⟨_, rfl⟩

end UnixCommons.Language.NormalizeTrigger
