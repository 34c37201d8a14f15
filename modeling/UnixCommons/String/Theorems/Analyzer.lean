import Mathlib.Data.List.TakeWhile
import UnixCommons.String.Analyzer

/-!
# 語の並びの解析の定理

範囲の読み方では、悪い語はそれだけを失う。
-/

namespace UnixCommons.String.Analyzer

open Lib

/-! ## 入力 -/

namespace Input

variable {text rest : Bytes} {c last : UInt8} {fuel : Nat} {p : UInt8 → Bool}

/-- 残りの文字が `text` である入力。`last` は、その前の記号である。 -/
def view : Bytes → UInt8 → Input
  | [], last => ⟨[], false, last⟩
  | c :: rest, _ => ⟨rest, true, c⟩

@[simp] theorem good_nil : (view [] last).good = false := rfl

@[simp] theorem good_cons : (view (c :: rest) last).good = true := rfl

@[simp] theorem currentSymbol_nil : (view [] last).currentSymbol = last := rfl

@[simp] theorem currentSymbol_cons : (view (c :: rest) last).currentSymbol = c := rfl

theorem get_start (text : Bytes) (last : UInt8) : Input.get ⟨text, true, last⟩ = view text last := by
  cases text <;> rfl

theorem get_view_cons (c last : UInt8) (rest : Bytes) : (view (c :: rest) last).get = view rest c := by
  cases rest <;> rfl

theorem getWhile_view (p : UInt8 → Bool) (text : Bytes) (last : UInt8) (h : text.length < fuel) :
    ∃ last', getWhile (fun input => input.good && p input.currentSymbol) fuel (view text last) = .ok
      (view (text.dropWhile p) last') := by
  induction text generalizing last fuel with
  | nil =>
      obtain ⟨fuel, rfl⟩ := Nat.exists_eq_succ_of_ne_zero (Nat.ne_zero_of_lt h)
      exact ⟨last, rfl⟩
  | cons c rest ih =>
      obtain ⟨fuel, rfl⟩ := Nat.exists_eq_succ_of_ne_zero (Nat.ne_zero_of_lt h)
      rw [List.length_cons] at h
      simp only [getWhile, get_view_cons, good_cons, currentSymbol_cons, Bool.true_and]
      by_cases hp : p c
      · rw [if_pos hp, List.dropWhile_cons_of_pos hp]
        exact ih c (by omega)
      · rw [if_neg hp, List.dropWhile_cons_of_neg hp]
        exact ⟨last, rfl⟩

/-- 読めるか記号が `p` を満たす間、飛ばすループ。最後の記号が `p` を満たせば、終わらない。 -/
theorem getWhile_skipping_endless (text : Bytes) (last : UInt8) (h : p (text.getLastD last) = true) (fuel : Nat) :
    getWhile (fun input => input.good || p input.currentSymbol) fuel (view text last) = .error .endless := by
  induction fuel generalizing text last with
  | zero => rfl
  | succ fuel ih =>
      cases text with
      | nil =>
          rw [List.getLastD_nil] at h
          simp only [getWhile, good_nil, currentSymbol_nil, Bool.false_or, h, if_true]
          exact ih [] last h
      | cons c rest =>
          simp only [getWhile, get_view_cons, good_cons, Bool.true_or, if_true]
          refine ih rest c ?_
          rwa [List.getLastD_cons] at h

theorem getWhile_skipping_ends (text : Bytes) (last : UInt8) (h : p (text.getLastD last) = false)
    (hfuel : text.length < fuel) :
    ∃ last', getWhile (fun input => input.good || p input.currentSymbol) fuel (view text last) = .ok (view [] last') := by
  induction text generalizing last fuel with
  | nil =>
      obtain ⟨fuel, rfl⟩ := Nat.exists_eq_succ_of_ne_zero (Nat.ne_zero_of_lt hfuel)
      rw [List.getLastD_nil] at h
      simp only [getWhile, good_nil, currentSymbol_nil, Bool.false_or, h]
      exact ⟨last, rfl⟩
  | cons c rest ih =>
      obtain ⟨fuel, rfl⟩ := Nat.exists_eq_succ_of_ne_zero (Nat.ne_zero_of_lt hfuel)
      rw [List.length_cons] at hfuel
      simp only [getWhile, get_view_cons, good_cons, Bool.true_or, if_true]
      rw [List.getLastD_cons] at h
      exact ih c h (by omega)

end Input

open Input (view good_cons good_nil currentSymbol_cons)

/-! ## 一つの語 -/

section

variable {params : AnalyzerParams} {mode : Mode} {text rest word : Bytes} {last : UInt8}
    {fuel : Nat} {tree : Option TreeNode} {result : List Bytes}
  {warnings : Bytes}

structure Fits (params : AnalyzerParams) (mode : Mode) : Prop where
  ignore : params.ignoreSuccessiveSeparators = true
  separators : ∀ c, checkSymbolInSet mode.separators c = isSeparator params c
  recognize : ∀ c, isSpecial params c = false →
    mode.recognize c = if isRegular params c then .regular else if isIgnored params c then .ignored else .illegal

theorem Plain.mono {text' : Bytes} (h : Plain params text) (hsub : ∀ c ∈ text', c ∈ text) :
    Plain params text' := fun c hc => h c (hsub c hc)

def skipped (params : AnalyzerParams) (text : Bytes) : Bytes :=
  text.dropWhile fun c => isSeparator params c || isIgnored params c

theorem sequenceLoop_separator (hfits : Fits params mode) {c : UInt8}
    (hc : isSeparator params c = true) (hfuel : rest.length + 4 ≤ fuel) :
    ∃ last', sequenceLoop params mode fuel ⟨view (c :: rest) last, tree, result, warnings⟩ =
      sequenceLoop params mode (fuel - 1)
        ⟨view (skipped params rest) last', none, (State.flush ⟨view [] last, tree, result, warnings⟩).result, warnings⟩ := by
  obtain ⟨fuel, rfl⟩ : ∃ k, fuel = k + 2 := ⟨fuel - 2, by omega⟩
  have hlen : (c :: rest).length < fuel := by
    rw [List.length_cons]
    omega
  obtain ⟨last', hpass⟩ := Input.getWhile_view (fun c => isSeparator params c || isIgnored params c) (c :: rest) last hlen
  rw [List.dropWhile_cons_of_pos (by rw [hc]; rfl)] at hpass
  refine ⟨last', ?_⟩
  have hloop : separatorLoop params (fuel + 1) ⟨view (c :: rest) last, tree, result, warnings⟩ =
      .ok ⟨view (skipped params rest) last', none,
        (State.flush ⟨view [] last, tree, result, warnings⟩).result, warnings⟩ := by
    unfold separatorLoop passSeparatorSymbols
    rw [if_pos hfits.ignore]
    cases tree with
    | none =>
        dsimp only [State.flush]
        erw [hpass]
        rfl
    | some node =>
        dsimp only [State.flush]
        erw [hpass]
        rfl
  rw [sequenceLoop, good_cons, currentSymbol_cons, hfits.separators, hc, if_pos rfl, if_pos rfl, hloop]
  rfl

theorem sequenceLoop_word (hfits : Fits params mode) {node : Bytes}
    (hsep : ∀ c ∈ word, isSeparator params c = false) (hwell : isWell params word = true)
    (hplain : Plain params word) (rest : Bytes) (last : UInt8) :
    ∃ last', sequenceLoop params mode (fuel + word.length) ⟨view (word ++ rest) last, some ⟨node, 1⟩, result, warnings⟩ =
      sequenceLoop params mode fuel ⟨view rest last', some ⟨node ++ word.filter (isRegular params),
      1⟩, result, warnings⟩ := by
  induction word generalizing node last with
  | nil => exact ⟨last, by rw [List.filter_nil, List.append_nil]; rfl⟩
  | cons c word ih =>
      have hc := hsep c (List.mem_cons_self ..)
      have hspecial : isSpecial params c = false := by
        rcases hplain c (List.mem_cons_self ..) with h | h
        · rw [hc] at h
          cases h
        · exact h
      rw [isWell, List.all_cons, Bool.and_eq_true, Bool.or_eq_true] at hwell
      have hsep' : ∀ c ∈ word, isSeparator params c = false := fun c h => hsep c (List.mem_cons_of_mem _ h)
      have hplain' : Plain params word := hplain.mono fun c h => List.mem_cons_of_mem _ h
      have hnext : fuel + (c :: word).length = fuel + word.length + 1 := by rw [List.length_cons, Nat.add_assoc]
      rw [hnext, sequenceLoop, List.cons_append, good_cons, currentSymbol_cons, hfits.separators,
        hc, if_pos rfl, if_neg Bool.false_ne_true]
      dsimp only [Option.isNone_some]
      rw [if_neg Bool.false_ne_true, currentSymbol_cons, hfits.recognize c hspecial]
      by_cases hregular : isRegular params c
      · rw [if_pos hregular, List.filter_cons_of_pos hregular]
        obtain ⟨last', hloop⟩ := @ih (node ++ [c]) hsep' hwell.2 hplain' c
        refine ⟨last', ?_⟩
        rw [List.append_assoc] at hloop
        exact (congrArg (fun input => sequenceLoop params mode _ ⟨input, _, _, _⟩)
          (Input.get_view_cons c last _)).trans hloop
      · rw [if_neg hregular, if_pos (hwell.1.resolve_left hregular), List.filter_cons_of_neg hregular]
        obtain ⟨last', hloop⟩ := @ih node hsep' hwell.2 hplain' c
        refine ⟨last', ?_⟩
        exact (congrArg (fun input => sequenceLoop params mode _ ⟨input, _, _, _⟩)
          (Input.get_view_cons c last _)).trans hloop

theorem sequenceLoop_create (hfits : Fits params mode) {c : UInt8} (hc : isSeparator params c = false) :
    sequenceLoop params mode fuel ⟨view (c :: rest) last, none, result, warnings⟩ =
      sequenceLoop params mode fuel ⟨view (c :: rest) last, some ⟨[], 1⟩, result, warnings⟩ := by
  cases fuel with
  | zero => rfl
  | succ fuel =>
      rw [sequenceLoop, sequenceLoop, good_cons, currentSymbol_cons, hfits.separators, hc,
        if_pos rfl, if_neg Bool.false_ne_true, if_pos rfl, if_neg Bool.false_ne_true]
      rfl

def emit (params : AnalyzerParams) (first : Bool) (chunk : Bytes) : List Bytes :=
  if isWell params chunk = true ∧ strip params first chunk ≠ []
    then [(strip params first chunk).filter (isRegular params)] else []

def emitAll (params : AnalyzerParams) : Bool → List Bytes → List Bytes
  | _, [] => []
  | first, chunk :: chunks => emit params first chunk ++ emitAll params false chunks

theorem sequenceLoop_well (hfits : Fits params mode)
    (hsep : ∀ c ∈ word, isSeparator params c = false) (hwell : isWell params word = true)
    (hplain : Plain params word) (rest : Bytes) (last : UInt8) :
    ∃ last' tree, sequenceLoop params mode (fuel + word.length) ⟨view (word ++ rest) last, none, result, warnings⟩ =
        sequenceLoop params mode fuel ⟨view rest last', tree, result, warnings⟩ ∧
      ∀ input, State.flush ⟨input, tree, result, warnings⟩ = ⟨input, none, result ++ emit params true word, warnings⟩ := by
  cases word with
  | nil =>
      refine ⟨last, none, rfl, fun input => ?_⟩
      rw [emit, if_neg fun h => h.2 rfl, List.append_nil]
      rfl
  | cons c word =>
      obtain ⟨last', hloop⟩ := @sequenceLoop_word _ _ _ fuel result warnings hfits [] hsep hwell hplain rest last
      refine ⟨last', _, (sequenceLoop_create hfits (hsep c (List.mem_cons_self ..))).trans hloop, fun input => ?_⟩
      have hstrip : strip params true (c :: word) ≠ [] := List.cons_ne_nil c word
      rw [emit, if_pos ⟨hwell, hstrip⟩]
      rfl

theorem exists_first_bad (h : isWell params word = false) :
    ∃ before bad after, word = before ++ bad :: after ∧ isWell params before = true ∧
      isRegular params bad = false ∧ isIgnored params bad = false := by
  induction word with
  | nil => cases h
  | cons c word ih =>
      rw [isWell, List.all_cons] at h
      by_cases hc : (isRegular params c || isIgnored params c) = true
      · rw [hc, Bool.true_and] at h
        obtain ⟨before, bad, after, rfl, hbefore, hbad⟩ := ih h
        refine ⟨c :: before, bad, after, rfl, ?_, hbad⟩
        rw [isWell, List.all_cons, hc]
        exact hbefore
      · obtain ⟨hregular, hignored⟩ := Bool.or_eq_false_iff.mp (Bool.eq_false_iff.mpr hc)
        exact ⟨[], c, word, rfl, rfl, hregular, hignored⟩

theorem sequenceLoop_bad (hfits : Fits params mode)
    (hsep : ∀ c ∈ word, isSeparator params c = false) (hbad : isWell params word = false)
    (hplain : Plain params word) (rest : Bytes) (last : UInt8) (hfuel : word.length ≤ fuel) :
    ∃ bad after last' k, (∃ before, word = before ++ bad :: after) ∧ fuel = k + 1 + (word.length - (after.length + 1)) ∧
      sequenceLoop params mode fuel ⟨view (word ++ rest) last, none, result, warnings⟩ =
        (getWhile mode.skipping k (view (bad :: (after ++ rest)) last')).bind fun input =>
          sequenceLoop params mode k ⟨input, none, result, warnings ++ [bad]⟩ := by
  obtain ⟨before, bad, after, rfl, hbefore, hregular, hignored⟩ := exists_first_bad hbad
  have hlen : (before ++ bad :: after).length = before.length + (after.length + 1) := List.length_append
  rw [hlen] at hfuel ⊢
  have hsepbad : isSeparator params bad = false := hsep bad (by simp)
  have hspecial : isSpecial params bad = false := by
    rcases hplain bad (by simp) with h | h
    · rw [hsepbad] at h
      cases h
    · exact h
  have hbad : ∀ k last' tree, sequenceLoop params mode (k + 1) ⟨view (bad :: (after ++ rest)) last',
      tree, result, warnings⟩ =
      (getWhile mode.skipping k (view (bad :: (after ++ rest)) last')).bind fun input =>
        sequenceLoop params mode k ⟨input, none, result, warnings ++ [bad]⟩ := by
    intro k last' tree
    rw [sequenceLoop, good_cons, currentSymbol_cons, hfits.separators, hsepbad, if_pos rfl, if_neg Bool.false_ne_true]
    have hrecognize : mode.recognize bad = .illegal := by
      rw [hfits.recognize bad hspecial, hregular, hignored]
      rfl
    cases tree with
    | none =>
        dsimp only [State.createTree, Option.isNone_none]
        rw [if_pos rfl]
        dsimp only
        rw [currentSymbol_cons, hrecognize]
        rfl
    | some node =>
        dsimp only [Option.isNone_some]
        rw [if_neg Bool.false_ne_true]
        dsimp only
        rw [currentSymbol_cons, hrecognize]
        rfl
  obtain ⟨last', tree, hloop, -⟩ := @sequenceLoop_well _ _ _ (fuel - before.length) result warnings
    hfits (fun c h => hsep c (List.mem_append_left _ h)) hbefore
    (hplain.mono fun c h => List.mem_append_left _ h) (bad :: (after ++ rest)) last
  rw [Nat.sub_add_cancel (by omega)] at hloop
  refine ⟨bad, after, last', fuel - before.length - 1, ⟨before, rfl⟩, by omega, ?_⟩
  rw [List.append_assoc, List.cons_append, hloop, ← hbad _ last' tree]
  congr 1
  omega

end

/-! ## 区切りの間の並び -/

section

variable {params : AnalyzerParams} {text rest word chunk : Bytes} {cs cs' : List Bytes} {c : UInt8} {first : Bool}

theorem chunks_word (h : ∀ c ∈ word, isSeparator params c = false) : chunks params word = [word] :=
  List.splitOnP_eq_singleton h

theorem chunks_append (h : ∀ c ∈ word, isSeparator params c = false) (hc : isSeparator params c = true) (rest : Bytes) :
    chunks params (word ++ c :: rest) = word :: chunks params rest := by
  rw [chunks, List.splitOnP_append_cons _ _ hc]
  exact congrArg (· ++ chunks params rest) (chunks_word h)

theorem exists_chunk (params : AnalyzerParams) (text : Bytes) :
    ∃ word, (∀ c ∈ word, isSeparator params c = false) ∧
      (text = word ∨ ∃ c rest, isSeparator params c = true ∧ text = word ++ c :: rest) := by
  induction text with
  | nil => exact ⟨[], fun _ h => absurd h List.not_mem_nil, .inl rfl⟩
  | cons c text ih =>
      cases hc : isSeparator params c with
      | true => exact ⟨[], fun _ h => absurd h List.not_mem_nil, .inr ⟨c, text, hc, rfl⟩⟩
      | false =>
          obtain ⟨word, hword, hcase⟩ := ih
          refine ⟨c :: word, fun d hd => ?_, ?_⟩
          · rcases List.mem_cons.mp hd with rfl | hd
            · exact hc
            · exact hword d hd
          · rcases hcase with rfl | ⟨d, rest, hd, rfl⟩
            · exact .inl rfl
            · exact .inr ⟨d, rest, hd, rfl⟩

theorem chunks_cons_separator (hc : isSeparator params c = true) : chunks params (c :: rest) = [] :: chunks params rest :=
  @chunks_append _ [] _ (fun _ h => absurd h List.not_mem_nil) hc rest

theorem chunks_cons (hc : isSeparator params c = false) (h : chunks params rest = chunk :: cs) :
    chunks params (c :: rest) = (c :: chunk) :: cs := by
  unfold chunks at h ⊢
  rw [List.splitOnP_cons_eq_if_modifyHead, h, hc]
  rfl

theorem exists_chunks (params : AnalyzerParams) (text : Bytes) : ∃ chunk cs, chunks params text = chunk :: cs :=
  List.exists_cons_of_ne_nil (List.splitOnP_ne_nil _ _)

theorem chunks_dropWhile (params : AnalyzerParams) (text : Bytes) :
    ∃ lost lead chunk cs, chunks params text = lost ++ (lead ++ chunk) :: cs ∧
      chunks params (skipped params text) = chunk :: cs ∧
        (∀ e ∈ lost, ∀ c ∈ e, isIgnored params c = true) ∧ (∀ c ∈ lead, isIgnored params c = true) ∧
          chunk.dropWhile (isIgnored params) = chunk := by
  induction text with
  | nil => exact ⟨[], [], [], [], rfl, rfl, fun _ h => absurd h List.not_mem_nil, fun _ h => absurd h List.not_mem_nil, rfl⟩
  | cons c text ih =>
      cases hsep : isSeparator params c with
      | true =>
          obtain ⟨lost, lead, chunk, cs, htext, hrest, hlost, hlead, hchunk⟩ := ih
          refine ⟨[] :: lost, lead, chunk, cs, ?_, ?_, ?_, hlead, hchunk⟩
          · rw [chunks_cons_separator hsep, htext]
            rfl
          · rw [skipped, List.dropWhile_cons_of_pos (by rw [hsep]; rfl)]
            exact hrest
          · intro e he d hd
            rcases List.mem_cons.mp he with rfl | he
            · exact absurd hd List.not_mem_nil
            · exact hlost e he d hd
      | false =>
          cases hignored : isIgnored params c with
          | true =>
              obtain ⟨lost, lead, chunk, cs, htext, hrest, hlost, hlead, hchunk⟩ := ih
              have hdrop : chunks params (skipped params (c :: text)) = chunk :: cs := by
                rw [skipped, List.dropWhile_cons_of_pos (by rw [hignored, Bool.or_true])]
                exact hrest
              cases lost with
              | nil =>
                  refine ⟨[], c :: lead, chunk, cs, chunks_cons hsep htext, hdrop, hlost, ?_, hchunk⟩
                  intro d hd
                  rcases List.mem_cons.mp hd with rfl | hd
                  · exact hignored
                  · exact hlead d hd
              | cons e lost =>
                  refine ⟨(c :: e) :: lost, lead, chunk, cs, chunks_cons hsep htext, hdrop, ?_, hlead, hchunk⟩
                  intro e' he' d hd
                  rcases List.mem_cons.mp he' with rfl | he'
                  · rcases List.mem_cons.mp hd with rfl | hd
                    · exact hignored
                    · exact hlost e (List.mem_cons_self ..) d hd
                  · exact hlost e' (List.mem_cons_of_mem _ he') d hd
          | false =>
              obtain ⟨chunk, cs, htext⟩ := exists_chunks params text
              refine ⟨[], [], c :: chunk, cs, chunks_cons hsep htext, ?_, fun _ h =>
                absurd h List.not_mem_nil, fun _ h => absurd h List.not_mem_nil, ?_⟩
              · rw [skipped, List.dropWhile_cons_of_neg (by rw [hsep, hignored]; exact Bool.false_ne_true)]
                exact chunks_cons hsep htext
              · exact List.dropWhile_cons_of_neg (by rw [hignored]; exact Bool.false_ne_true)

theorem isWell_of_ignored (h : ∀ c ∈ chunk, isIgnored params c = true) : isWell params chunk = true :=
  List.all_eq_true.mpr fun c hc => by rw [h c hc, Bool.or_true]

theorem isWell_append_ignored {lead : Bytes} (h : ∀ c ∈ lead, isIgnored params c = true) :
    isWell params (lead ++ chunk) = isWell params chunk := by
  rw [isWell, List.all_append]
  exact (congrArg (· && isWell params chunk) (isWell_of_ignored h)).trans (Bool.true_and _)

theorem emit_ignored (h : ∀ c ∈ chunk, isIgnored params c = true) : emit params false chunk = [] := by
  have hnil : strip params false chunk = [] := List.dropWhile_eq_nil_iff.mpr h
  rw [emit, if_neg fun hne => hne.2 hnil]

theorem emit_append_ignored {lead : Bytes} (h : ∀ c ∈ lead, isIgnored params c = true)
    (hchunk : chunk.dropWhile (isIgnored params) = chunk) :
    emit params false (lead ++ chunk) = emit params true chunk := by
  have hstrip : strip params false (lead ++ chunk) = strip params true chunk := by
    unfold strip
    rw [if_neg Bool.false_ne_true, if_pos rfl, List.dropWhile_append_of_pos h, hchunk]
  rw [emit, emit, hstrip, isWell_append_ignored h]

theorem emitAll_append_ignored {lost : List Bytes} (h : ∀ e ∈ lost, ∀ c ∈ e, isIgnored params c = true) :
    emitAll params false (lost ++ cs) = emitAll params false cs := by
  induction lost with
  | nil => rfl
  | cons e lost ih =>
      rw [List.cons_append, emitAll, emit_ignored (h e (List.mem_cons_self ..)), List.nil_append,
        ih fun e' he' => h e' (List.mem_cons_of_mem _ he')]

theorem emitAll_dropWhile (params : AnalyzerParams) (text : Bytes) :
    emitAll params true (chunks params (skipped params text)) = emitAll params false (chunks params text) := by
  obtain ⟨lost, lead, chunk, cs, htext, hrest, hlost, hlead, hchunk⟩ := chunks_dropWhile params text
  rw [htext, hrest, emitAll_append_ignored hlost, emitAll, emitAll, emit_append_ignored hlead hchunk]

theorem countP_dropWhile (params : AnalyzerParams) (text : Bytes) :
    (chunks params (skipped params text)).countP (!isWell params ·) =
      (chunks params text).countP (!isWell params ·) := by
  obtain ⟨lost, lead, chunk, cs, htext, hrest, hlost, hlead, -⟩ := chunks_dropWhile params text
  have hzero : lost.countP (!isWell params ·) = 0 := by
    refine List.countP_eq_zero.mpr fun e he => ?_
    rw [isWell_of_ignored (hlost e he)]
    decide
  rw [htext, hrest, List.countP_append, hzero, Nat.zero_add, List.countP_cons, List.countP_cons, isWell_append_ignored hlead]

theorem firstBad_dropWhile (params : AnalyzerParams) (text : Bytes) :
    let before := fun text => (chunks params text).takeWhile (isWell params)
    let after := fun text => (chunks params text).dropWhile (isWell params)
    emitAll params true (before (skipped params text)) = emitAll params false (before text) ∧
      (after (skipped params text)).tail = (after text).tail ∧
        (after (skipped params text)).isEmpty = (after text).isEmpty := by
  obtain ⟨lost, lead, chunk, cs, htext, hrest, hlost, hlead, hchunk⟩ := chunks_dropWhile params text
  have hwell : ∀ e ∈ lost, isWell params e = true := fun e he => isWell_of_ignored (hlost e he)
  dsimp only
  rw [htext, hrest, List.takeWhile_append_of_pos hwell, List.dropWhile_append_of_pos hwell, emitAll_append_ignored hlost]
  cases hbad : isWell params chunk with
  | true =>
      have hbad' : isWell params (lead ++ chunk) = true := (isWell_append_ignored hlead).trans hbad
      rw [List.takeWhile_cons_of_pos hbad, List.takeWhile_cons_of_pos hbad',
        List.dropWhile_cons_of_pos hbad, List.dropWhile_cons_of_pos hbad']
      exact ⟨by rw [emitAll, emitAll, emit_append_ignored hlead hchunk], rfl, rfl⟩
  | false =>
      have hbad' : isWell params (lead ++ chunk) = false := (isWell_append_ignored hlead).trans hbad
      rw [List.takeWhile_cons_of_neg (by rw [hbad]; decide), List.takeWhile_cons_of_neg (by rw [hbad']; decide),
        List.dropWhile_cons_of_neg (by rw [hbad]; decide), List.dropWhile_cons_of_neg (by rw [hbad']; decide)]
      exact ⟨rfl, rfl, rfl⟩

end

/-! ## 解析の終わり -/

section

variable {params : AnalyzerParams} {mode : Mode} {text rest word : Bytes} {last c : UInt8}
    {fuel n : Nat} {result out : List Bytes} {warnings : Bytes}

def Ends (params : AnalyzerParams) (mode : Mode) (fuel : Nat) (s : State) (out : List Bytes) (n : Nat) : Prop :=
  ∃ t, sequenceLoop params mode fuel s = .ok t ∧ t.flush.result = out ∧ t.flush.warnings.length = n

theorem Ends.of_eq {fuel' : Nat} {s s' : State} (h : Ends params mode fuel' s' out n)
    (heq : sequenceLoop params mode fuel s = sequenceLoop params mode fuel' s') : Ends params mode fuel s out n := by
  obtain ⟨t, ht, hout⟩ := h
  exact ⟨t, heq.trans ht, hout⟩

theorem ends_well (hfits : Fits params mode) (hsep : ∀ c ∈ word, isSeparator params c = false)
    (hwell : isWell params word = true) (hplain : Plain params word)
    (hfuel : word.length + 4 ≤ fuel) :
    Ends params mode fuel ⟨view word last, none, result, warnings⟩ (result ++ emit params true word) warnings.length := by
  obtain ⟨k, rfl⟩ : ∃ k, fuel = k + 1 + word.length := ⟨fuel - 1 - word.length, by omega⟩
  obtain ⟨last', tree, hloop, hflush⟩ := @sequenceLoop_well _ _ _ (k + 1) result warnings hfits hsep hwell hplain [] last
  rw [List.append_nil] at hloop
  have hend := hflush (view [] last')
  exact ⟨⟨view [] last', tree, result, warnings⟩, hloop, congrArg State.result hend,
    congrArg (List.length ∘ State.warnings) hend⟩

theorem sequenceLoop_chunk (hfits : Fits params mode)
    (hsep : ∀ c ∈ word, isSeparator params c = false) (hwell : isWell params word = true)
    (hplain : Plain params word) (hc : isSeparator params c = true) (hfuel : (word ++ c :: rest).length + 3 ≤ fuel) :
    ∃ last', sequenceLoop params mode fuel ⟨view (word ++ c :: rest) last, none, result, warnings⟩ =
      sequenceLoop params mode (fuel - word.length - 1)
        ⟨view (skipped params rest) last', none, result ++ emit params true word, warnings⟩ := by
  rw [List.length_append, List.length_cons] at hfuel
  obtain ⟨k, rfl⟩ : ∃ k, fuel = k + word.length := ⟨fuel - word.length, by omega⟩
  obtain ⟨last₁, tree, hloop, hflush⟩ := @sequenceLoop_well _ _ _ k result warnings hfits hsep hwell hplain (c :: rest) last
  obtain ⟨last', hnext⟩ := @sequenceLoop_separator params mode rest last₁ k tree result warnings hfits c hc (by omega)
  refine ⟨last', ?_⟩
  rw [hloop, hnext, hflush, Nat.add_sub_cancel]

theorem length_skipped_le (params : AnalyzerParams) (text : Bytes) :
    (skipped params text).length ≤ text.length := (List.dropWhile_sublist _).length_le

theorem Plain.chunk (h : Plain params text)
    (hcase : text = word ∨ ∃ c rest, isSeparator params c = true ∧ text = word ++ c :: rest) :
    Plain params word :=
  h.mono fun d hd => by
    rcases hcase with rfl | ⟨c, rest, -, rfl⟩
    · exact hd
    · exact List.mem_append_left _ hd

theorem Plain.skipped (h : Plain params (word ++ c :: rest)) : Plain params (skipped params rest) :=
  h.mono fun _ hd => List.mem_append_right _ (List.mem_cons_of_mem _ ((List.dropWhile_sublist _).subset hd))

theorem rangeMode_bad {tail : Bytes} (hfits : Fits params (rangeMode params))
    (hsep : ∀ c ∈ word, isSeparator params c = false)
    (hbad : isWell params word = false) (hplain : Plain params word)
    (htail : tail = [] ∨ ∃ c rest, isSeparator params c = true ∧ tail = c :: rest)
    (hfuel : (word ++ tail).length + 4 ≤ fuel) :
    ∃ bad last' k, fuel - word.length ≤ k ∧ sequenceLoop params
      (rangeMode params) fuel ⟨view (word ++ tail) last, none, result, warnings⟩ =
      sequenceLoop params (rangeMode params) k ⟨view tail last', none, result, warnings ++ [bad]⟩ := by
  rw [List.length_append] at hfuel
  obtain ⟨bad, after, last₁, k, ⟨before, rfl⟩, hk, hloop⟩ :=
    @sequenceLoop_bad _ _ _ fuel result warnings hfits hsep hbad hplain tail last (by omega)
  have hlen : (before ++ bad :: after).length = before.length + (after.length + 1) := List.length_append
  rw [hlen] at hfuel hk
  have hequal : ∀ d, checkSymbolInSet params.rangeSeparators d = isSeparator params d := hfits.separators
  have hpos : ∀ d ∈ bad :: after, (!checkSymbolInSet params.rangeSeparators d) = true := by
    intro d hd
    rw [hequal, hsep d (List.mem_append_right _ hd)]
    rfl
  have hstop : (bad :: (after ++ tail)).dropWhile (fun d => !checkSymbolInSet params.rangeSeparators d) = tail := by
    rw [← List.cons_append, List.dropWhile_append_of_pos hpos]
    rcases htail with rfl | ⟨c, rest, hc, rfl⟩
    · rfl
    · refine List.dropWhile_cons_of_neg ?_
      rw [hequal, hc]
      decide
  obtain ⟨last', hskip⟩ :=
    @Input.getWhile_view k (fun d => !checkSymbolInSet params.rangeSeparators d) (bad :: (after ++ tail)) last₁
    (by rw [List.length_cons, List.length_append]; omega)
  rw [hstop] at hskip
  refine ⟨bad, last', k, by omega, hloop.trans ?_⟩
  exact congrArg (fun input => Except.bind input fun input => sequenceLoop params (rangeMode params)
    k ⟨input, none, result, warnings ++ [bad]⟩) hskip

theorem rangeMode_ends (hfits : Fits params (rangeMode params)) (hplain : Plain params text)
    (hfuel : text.length + 4 ≤ fuel) :
    Ends params (rangeMode params) fuel ⟨view text last, none, result, warnings⟩
      (result ++ emitAll params true (chunks params text))
      (warnings.length + (chunks params text).countP (!isWell params ·)) := by
  induction hn : text.length using Nat.strong_induction_on generalizing text fuel last result warnings with
  | _ n ih =>
      obtain ⟨word, hword, hcase⟩ := exists_chunk params text
      cases hwell : isWell params word with
      | true =>
          rcases hcase with rfl | ⟨c, rest, hc, rfl⟩
          · rw [chunks_word hword, emitAll, emitAll, List.append_nil, List.countP_singleton, hwell]
            exact ends_well hfits hword hwell hplain hfuel
          · obtain ⟨last', hloop⟩ := @sequenceLoop_chunk _ _ rest _ last c _ result warnings hfits hword hwell
              (hplain.mono fun c h => List.mem_append_left _ h) hc (Nat.le_of_succ_le hfuel)
            have hlen := length_skipped_le params rest
            rw [List.length_append, List.length_cons] at hn hfuel
            have hrest : Ends params (rangeMode params) (fuel - word.length - 1)
                ⟨view (skipped params rest) last', none, result ++ emit params true word, warnings⟩
                (result ++ emit params true word ++ emitAll params true (chunks params (skipped params rest)))
                (warnings.length + (chunks params (skipped params rest)).countP (!isWell params ·)) :=
              ih _ (by omega) hplain.skipped (by omega) rfl
            rw [emitAll_dropWhile, countP_dropWhile, List.append_assoc] at hrest
            rw [chunks_append hword hc, emitAll, List.countP_cons_of_neg (by rw [hwell]; decide)]
            exact hrest.of_eq hloop
      | false =>
          have hleft := hplain.chunk hcase
          rcases hcase with rfl | ⟨c, rest, hc, rfl⟩
          · obtain ⟨bad, last', k, hk, hloop⟩ := @rangeMode_bad _ _ last fuel result warnings
              [] hfits hword hwell hleft (.inl rfl) (by rwa [List.append_nil])
            rw [List.append_nil] at hloop
            rw [chunks_word hword, emitAll, emitAll, List.append_nil, List.countP_singleton, hwell,
              emit, if_neg (by rw [hwell]; simp), List.append_nil]
            obtain ⟨k, rfl⟩ : ∃ j, k = j + 1 := ⟨k - 1, by omega⟩
            exact ⟨⟨view [] last', none, result, warnings ++ [bad]⟩, hloop, rfl, List.length_append⟩
          · obtain ⟨bad, last₁, k, hk, hloop⟩ := @rangeMode_bad _ _ last fuel result warnings
              (c :: rest) hfits hword hwell hleft (.inr ⟨c, rest, hc, rfl⟩) hfuel
            have hlen := length_skipped_le params rest
            rw [List.length_append, List.length_cons] at hn hfuel
            obtain ⟨last', hnext⟩ := @sequenceLoop_separator params (rangeMode params) rest last₁ k
              none result (warnings ++ [bad]) hfits c hc (by omega)
            have hrest : Ends params (rangeMode params) (k - 1) ⟨view (skipped params rest) last',
                none, result, warnings ++ [bad]⟩
                (result ++ emitAll params true (chunks params (skipped params rest)))
                ((warnings ++ [bad]).length + (chunks params (skipped params rest)).countP (!isWell params ·)) :=
              ih _ (by omega) hplain.skipped (by omega) rfl
            rw [emitAll_dropWhile, countP_dropWhile, List.length_append, List.length_singleton,
              Nat.add_assoc, Nat.add_comm 1] at hrest
            rw [chunks_append hword hc, emitAll, List.countP_cons_of_pos (by rw [hwell]; rfl), emit,
              if_neg (by rw [hwell]; simp), List.nil_append]
            exact hrest.of_eq (hloop.trans hnext)

theorem getLastD_append_cons (word rest : Bytes) (c d : UInt8) : (word ++ c :: rest).getLastD d = rest.getLastD c := by
  induction word generalizing d with
  | nil => exact List.getLastD_cons ..
  | cons e word ih => exact (List.getLastD_cons ..).trans (ih e)

theorem getLastD_mem (h : word ≠ []) (d : UInt8) : word.getLastD d ∈ word := by
  rw [List.getLastD_eq_getLast?, List.getLast?_eq_some_getLast h]
  exact List.getLast_mem h

theorem getLast?_chunks (hc : isSeparator params c = true) : (chunks params text).getLast? = some
    [] ↔ isSeparator params (text.getLastD c) = true := by
  induction hn : text.length using Nat.strong_induction_on generalizing text c with
  | _ n ih =>
      obtain ⟨word, hword, rfl | ⟨d, rest, hd, rfl⟩⟩ := exists_chunk params text
      · rw [chunks_word hword, List.getLast?_singleton, Option.some_inj]
        by_cases hnil : text = []
        · subst hnil
          exact iff_of_true rfl hc
        · refine iff_of_false hnil ?_
          rw [hword _ (getLastD_mem hnil c)]
          exact Bool.false_ne_true
      · obtain ⟨chunk, cs, hchunks⟩ := exists_chunks params rest
        rw [List.length_append, List.length_cons] at hn
        rw [chunks_append hword hd, getLastD_append_cons, ← ih rest.length (by omega) hd rfl,
          hchunks, List.getLast?_cons_cons]

/-- 普通の読み方では、悪い並びの後を全て飛ばす。入力が区切りで終われば、終わらない。 -/
theorem charMode_bad {tail : Bytes} (hfits : Fits params (charMode params)) (hsep : ∀ c ∈ word, isSeparator params c = false)
    (hbad : isWell params word = false) (hplain : Plain params word) (hfuel : (word ++ tail).length + 4 ≤ fuel) :
    (isSeparator params ((word ++ tail).getLastD last) = false → Ends params (charMode params) fuel
    ⟨view (word ++ tail) last, none, result, warnings⟩
        result (warnings.length + 1)) ∧
      (isSeparator params ((word ++ tail).getLastD last) = true →
        sequenceLoop params (charMode params) fuel ⟨view (word ++ tail) last, none, result,
        warnings⟩ = .error .endless) := by
  rw [List.length_append] at hfuel
  obtain ⟨bad, after, last₁, k, ⟨before, rfl⟩, hk, hloop⟩ :=
    @sequenceLoop_bad _ _ _ fuel result warnings hfits hsep hbad hplain tail last (by omega)
  have hlen : (before ++ bad :: after).length = before.length + (after.length + 1) := List.length_append
  rw [hlen] at hfuel hk
  have hlast : ((before ++ bad :: after) ++ tail).getLastD last = (bad :: (after ++ tail)).getLastD last₁ := by
    rw [List.append_assoc, List.cons_append, getLastD_append_cons, List.getLastD_cons]
  rw [hlast]
  constructor
  · intro hend
    obtain ⟨last', hskip⟩ := @Input.getWhile_skipping_ends k (isSeparator params)
      (bad :: (after ++ tail)) last₁ hend (by rw [List.length_cons, List.length_append]; omega)
    obtain ⟨k, rfl⟩ : ∃ j, k = j + 1 := ⟨k - 1, by omega⟩
    refine ⟨⟨view [] last', none, result, warnings ++ [bad]⟩, hloop.trans ?_, rfl, List.length_append⟩
    exact congrArg (fun input => Except.bind input fun input => sequenceLoop params
      (charMode params) (k + 1) ⟨input, none, result, warnings ++ [bad]⟩) hskip
  · intro hend
    have hskip := @Input.getWhile_skipping_endless (isSeparator params) (bad :: (after ++ tail)) last₁ hend k
    exact hloop.trans
      (congrArg (fun input => Except.bind input fun input => sequenceLoop params (charMode params) k
      ⟨input, none, result, warnings ++ [bad]⟩) hskip)

theorem charMode_ends (hfits : Fits params (charMode params)) (hplain : Plain params text) (hfuel : text.length + 4 ≤ fuel) :
    (((chunks params text).dropWhile (isWell params)).tail.getLast? ≠ some [] →
        Ends params (charMode params) fuel ⟨view text last, none, result, warnings⟩
          (result ++ emitAll params true ((chunks params text).takeWhile (isWell params)))
          (warnings.length + if ((chunks params text).dropWhile (isWell params)).isEmpty then 0 else 1)) ∧
      (((chunks params text).dropWhile (isWell params)).tail.getLast? = some [] →
        sequenceLoop params (charMode params) fuel ⟨view text last, none, result, warnings⟩ = .error .endless) := by
  induction hn : text.length using Nat.strong_induction_on generalizing text fuel last result warnings with
  | _ n ih =>
      obtain ⟨word, hword, hcase⟩ := exists_chunk params text
      cases hwell : isWell params word with
      | true =>
          rcases hcase with rfl | ⟨c, rest, hc, rfl⟩
          · rw [chunks_word hword, List.takeWhile_cons_of_pos hwell, List.dropWhile_cons_of_pos hwell]
            refine ⟨fun _ => ?_, fun hfalse => nomatch hfalse⟩
            rw [List.takeWhile_nil, emitAll, emitAll, List.append_nil]
            exact ends_well hfits hword hwell hplain hfuel
          · obtain ⟨last', hloop⟩ := @sequenceLoop_chunk _ _ rest _ last c _ result warnings hfits hword hwell
              (hplain.mono fun c h => List.mem_append_left _ h) hc (Nat.le_of_succ_le hfuel)
            have hlen := length_skipped_le params rest
            rw [List.length_append, List.length_cons] at hn hfuel
            obtain ⟨hout, htail, hempty⟩ := firstBad_dropWhile params rest
            have hrest := @ih _ (by omega) (skipped params rest) last' (fuel - word.length - 1)
                (result ++ emit params true word) warnings hplain.skipped (by omega) rfl
            rw [htail, hempty, hout, List.append_assoc] at hrest
            rw [chunks_append hword hc, List.takeWhile_cons_of_pos hwell, List.dropWhile_cons_of_pos hwell, emitAll]
            exact ⟨fun h => (hrest.1 h).of_eq hloop, fun h => hloop.trans (hrest.2 h)⟩
      | false =>
          have hneg : ¬ isWell params word = true := Bool.eq_false_iff.mp hwell
          have hleft := hplain.chunk hcase
          rcases hcase with rfl | ⟨c, rest, hc, rfl⟩
          · have hne : text ≠ [] := by
              rintro rfl
              cases hwell
            have hstop := @charMode_bad _ _ last fuel result warnings [] hfits hword hwell hleft (by rwa [List.append_nil])
            rw [List.append_nil] at hstop
            rw [chunks_word hword, List.takeWhile_cons_of_neg hneg, List.dropWhile_cons_of_neg hneg]
            refine ⟨fun _ => ?_, fun hfalse => nomatch hfalse⟩
            rw [emitAll, List.append_nil]
            exact hstop.1 (hword _ (getLastD_mem hne last))
          · have hstop := @charMode_bad _ _ last fuel result warnings (c :: rest) hfits hword hwell hleft hfuel
            rw [chunks_append hword hc, List.takeWhile_cons_of_neg hneg,
              List.dropWhile_cons_of_neg hneg, List.tail_cons, Ne, getLast?_chunks hc, emitAll,
              List.append_nil]
            rw [getLastD_append_cons] at hstop
            exact ⟨fun h => hstop.1 (Bool.eq_false_iff.mpr h), hstop.2⟩

end

/-! ## 書くべき語 -/

section

variable {params : AnalyzerParams} {chunk : Bytes} {cs out : List Bytes} {first : Bool}

def kept (params : AnalyzerParams) (chunk : Bytes) : Bytes := chunk.filter (!isIgnored params ·)

def want (params : AnalyzerParams) (chunk : Bytes) : List Bytes := if isWell params chunk = true ∧
    kept params chunk ≠ [] then [kept params chunk] else []

def wantAll (params : AnalyzerParams) (cs : List Bytes) : List Bytes :=
  ((cs.filter (isWell params)).map (kept params)).filter (· ≠ [])

theorem wantAll_cons (chunk : Bytes) (cs : List Bytes) : wantAll params
    (chunk :: cs) = want params chunk ++ wantAll params cs := by
  unfold wantAll want
  cases hwell : isWell params chunk with
  | false =>
      rw [List.filter_cons_of_neg (by rw [hwell]; decide), if_neg (fun h => nomatch h.1)]
      rfl
  | true =>
      rw [List.filter_cons_of_pos hwell, List.map_cons]
      by_cases hkept : kept params chunk = []
      · rw [List.filter_cons_of_neg (by simp [hkept]), if_neg (fun h => h.2 hkept)]
        rfl
      · rw [List.filter_cons_of_pos (by simp [hkept]), if_pos ⟨rfl, hkept⟩]
        rfl

theorem wantAll_append (cs cs' : List Bytes) : wantAll params (cs ++ cs') = wantAll params cs ++ wantAll params cs' := by
  rw [wantAll, List.filter_append, List.map_append, List.filter_append]
  rfl

theorem kept_eq_nil_iff : kept params chunk = [] ↔ ∀ c ∈ chunk, isIgnored params c = true := by
  simp [kept, List.filter_eq_nil_iff]

theorem exists_not_ignored {word : Bytes} (h : word ∈ wantAll params cs) : ∃ c ∈ word, isIgnored params c = false := by
  obtain ⟨hmem, hne⟩ := List.mem_filter.mp h
  obtain ⟨chunk, -, rfl⟩ := List.mem_map.mp hmem
  obtain ⟨c, hc⟩ := List.exists_mem_of_ne_nil _ (of_decide_eq_true hne)
  refine ⟨c, hc, ?_⟩
  have := (List.mem_filter.mp hc).2
  rwa [Bool.not_eq_true'] at this

theorem kept_dropWhile (chunk : Bytes) : kept params (chunk.dropWhile (isIgnored params)) = kept params chunk := by
  induction chunk with
  | nil => rfl
  | cons c chunk ih =>
      cases hc : isIgnored params c with
      | true =>
          rw [List.dropWhile_cons_of_pos hc, ih, kept, kept, List.filter_cons_of_neg (by rw [hc]; decide)]
      | false => rw [List.dropWhile_cons_of_neg (by rw [hc]; decide)]

theorem kept_strip (first : Bool) (chunk : Bytes) : kept params (strip params first chunk) = kept params chunk := by
  cases first with
  | false => exact kept_dropWhile chunk
  | true => rfl

theorem strip_subset {c : UInt8} (h : c ∈ strip params first chunk) : c ∈ chunk := by
  cases first with
  | false => exact (List.dropWhile_sublist _).subset h
  | true => exact h

theorem filter_regular_eq_kept_iff (hwell : ∀ c ∈ chunk, isRegular params c = true ∨
    isIgnored params c = true) : chunk.filter (isRegular params) = kept params chunk ↔ ∀ c ∈ chunk,
      ¬ (isRegular params c = true ∧ isIgnored params c = true) := by
  constructor
  · intro heq c hc hboth
    have hmem : c ∈ kept params chunk := heq ▸ List.mem_filter.mpr ⟨hc, hboth.1⟩
    have hnot := (List.mem_filter.mp hmem).2
    rw [hboth.2] at hnot
    cases hnot
  · intro hdisjoint
    refine List.filter_congr fun c hc => ?_
    have hno := hdisjoint c hc
    have hor := hwell c hc
    cases hr : isRegular params c <;> cases hi : isIgnored params c <;> simp_all

theorem emit_spec (h : first = true → chunk = [] ∨ ∃ c ∈ chunk, isIgnored params c = false) :
    (emit params first chunk).length = (want params chunk).length ∧
    (emit params first chunk = want params chunk ↔ Proper params first chunk) := by
  unfold emit want Proper
  cases hwell : isWell params chunk with
  | false => simp
  | true =>
      have hnil : strip params first chunk = [] ↔ kept params chunk = [] := by
        rw [← kept_strip first chunk]
        constructor
        · intro heq
          rw [heq]
          rfl
        · intro hkept
          have hall := kept_eq_nil_iff.mp hkept
          cases first with
          | false =>
              by_contra hne
              have hhead : isIgnored params ((strip params false chunk).head hne) = false :=
                List.head_dropWhile_not (isIgnored params) hne
              rw [hall _ (List.head_mem hne)] at hhead
              cases hhead
          | true =>
              rcases h rfl with hchunk | ⟨c, hc, hnot⟩
              · exact hchunk
              · rw [hall c hc] at hnot
                cases hnot
      have hword : ∀ c ∈ strip params first chunk, isRegular params c = true ∨ isIgnored params c = true := fun c hc =>
        Bool.or_eq_true_iff.mp (List.all_eq_true.mp hwell c (strip_subset hc))
      by_cases hkept : kept params chunk = []
      · rw [if_neg fun hh => hh.2 (hnil.mpr hkept), if_neg fun hh => hh.2 hkept]
        refine ⟨rfl, iff_of_true rfl fun _ => ⟨?_, h⟩⟩
        rw [hnil.mpr hkept]
        exact fun _ hc => absurd hc List.not_mem_nil
      · rw [if_pos ⟨rfl, mt hnil.mp hkept⟩, if_pos ⟨rfl, hkept⟩]
        refine ⟨rfl, ?_⟩
        rw [List.cons.injEq, and_iff_left rfl, ← kept_strip first chunk, filter_regular_eq_kept_iff hword]
        exact ⟨fun hh _ => ⟨hh, h⟩, fun hh => (hh rfl).1⟩

theorem emitAll_eq_iff (cs out : List Bytes) : emitAll params false cs = wantAll params cs ++ out ↔
    AllProper params false cs ∧ out = [] := by
  induction cs with
  | nil => exact ⟨fun h => ⟨trivial, h.symm⟩, fun h => h.2.symm⟩
  | cons chunk cs ih =>
      obtain ⟨hlen, hiff⟩ := @emit_spec params chunk false fun hfalse => nomatch hfalse
      rw [emitAll, wantAll_cons, AllProper, List.append_assoc, and_assoc, ← ih, ← hiff]
      exact ⟨fun h => List.append_inj h hlen, fun h => by rw [h.1, h.2]⟩

theorem emitAll_first_eq_iff (cs : List Bytes) (hout : ∀ word ∈ out, ∃ c ∈ word, isIgnored params c = false) :
    emitAll params true cs = wantAll params cs ++ out ↔ AllProper params true cs ∧ out = [] := by
  cases cs with
  | nil => exact ⟨fun h => ⟨trivial, h.symm⟩, fun h => h.2.symm⟩
  | cons chunk cs =>
      by_cases hfirst : chunk = [] ∨ ∃ c ∈ chunk, isIgnored params c = false
      · obtain ⟨hlen, hiff⟩ := @emit_spec params chunk true fun _ => hfirst
        rw [emitAll, wantAll_cons, AllProper, List.append_assoc, and_assoc, ← emitAll_eq_iff, ← hiff]
        exact ⟨fun h => List.append_inj h hlen, fun h => by rw [h.1, h.2]⟩
      · -- 無視される記号だけの最初の語が、余計に書かれる。
        obtain ⟨hne, hall⟩ := not_or.mp hfirst
        have hignored : ∀ c ∈ chunk, isIgnored params c = true := fun c hc => by
          by_contra hnot
          exact hall ⟨c, hc, Bool.eq_false_iff.mpr hnot⟩
        have hwell := isWell_of_ignored hignored
        refine iff_of_false (fun heq => ?_) fun h => hfirst ((h.1.1 hwell).2 rfl)
        have hmem : chunk.filter (isRegular params) ∈ wantAll params (chunk :: cs) ++ out := by
          rw [← heq, emitAll, emit, if_pos ⟨hwell, hne⟩]
          exact List.mem_append_left _ (List.mem_singleton_self _)
        have hsome : ∃ c ∈ chunk.filter (isRegular params), isIgnored params c = false := by
          rcases List.mem_append.mp hmem with hmem | hmem
          · exact exists_not_ignored hmem
          · exact hout _ hmem
        obtain ⟨c, hc, hnot⟩ := hsome
        rw [hignored c (List.mem_filter.mp hc).1] at hnot
        cases hnot

end

/-! ## 定理 -/

section

variable {raw params : AnalyzerParams} {mode : Mode} {text : Bytes} {cs : List Bytes}

theorem init_spec (h : init raw = some params) :
    params.ignoreSuccessiveSeparators = raw.ignoreSuccessiveSeparators ∧ params.immediateRangeMode = raw.immediateRangeMode ∧
      params.mainSeparators = raw.mainSeparators ∧
        (params.immediateRangeMode = true → params.rangeSeparators = if raw.rangeSeparators.isEmpty
        then raw.mainSeparators else raw.rangeSeparators) := by
  have hfill : ∃ allowed, fillIgnored raw = { raw with allowIgnoredSymbs := allowed } := by
    unfold fillIgnored
    split
    · exact ⟨false, rfl⟩
    · exact ⟨raw.allowIgnoredSymbs, rfl⟩
  obtain ⟨allowed, hfill⟩ := hfill
  unfold init at h
  rw [hfill] at h
  split at h
  · cases h
  split at h
  · cases h
  split at h
  · cases h
  split at h
  · split at h
    · cases h
    · obtain rfl := Option.some.inj h
      exact ⟨rfl, rfl, rfl, fun _ => rfl⟩
  · split at h
    · cases h
    · rename_i hmode
      obtain rfl := Option.some.inj h
      exact ⟨rfl, rfl, rfl, fun htrue => absurd htrue hmode⟩

theorem charMode_fits (hignore : params.ignoreSuccessiveSeparators = true)
    (hmode : params.immediateRangeMode = false) : Fits params (charMode params) := by
  refine ⟨hignore, fun _ => rfl, fun c hc => ?_⟩
  unfold isSpecial at hc
  rw [hmode] at hc
  unfold isRegular isIgnored
  rw [hmode]
  dsimp only [charMode, Bool.false_eq_true, if_false] at hc ⊢
  unfold recognizeSymbol at hc ⊢
  grind

theorem rangeMode_fits (hignore : params.ignoreSuccessiveSeparators = true) (hmode : params.immediateRangeMode = true)
    (hequal : ∀ c, checkSymbolInSet params.rangeSeparators c = isSeparator params c) : Fits params (rangeMode params) := by
  refine ⟨hignore, hequal, fun c hc => ?_⟩
  unfold isSpecial at hc
  rw [hmode] at hc
  unfold isRegular isIgnored
  rw [hmode]
  dsimp only [rangeMode, if_true] at hc ⊢
  unfold recognizeRangeSymbol at hc ⊢
  grind

theorem process_of_ends {fuel n : Nat} {out : List Bytes} {last : UInt8}
    (h : Ends params mode fuel ⟨view text last, none, [], []⟩ out n) :
    ∃ s, processSequence params mode text last fuel = .ok s ∧ s.result = out ∧ s.warnings.length = n := by
  obtain ⟨t, ht, hout, hn⟩ := h
  refine ⟨t.flush, ?_, hout, hn⟩
  rw [processSequence, Input.get_start, ht]
  rfl

theorem costsOnlyItself_iff_of_ends {last : UInt8} {out : List Bytes} {n : Nat}
    (h : ∀ fuel ≥ text.length + 4, ∃ s, processCharSequence params text last fuel = .ok s ∧
    s.result = out ∧ s.warnings.length = n) :
    CostsOnlyItself params text last ↔ out = wantAll params (chunks params text) ∧
      n = (chunks params text).countP (!isWell params ·) := by
  constructor
  · rintro ⟨m, hm⟩
    obtain ⟨s, hs, hout, hn⟩ := h (max m (text.length + 4)) (Nat.le_max_right ..)
    obtain ⟨s', hs', hout', hn'⟩ := hm (max m (text.length + 4)) (Nat.le_max_left ..)
    obtain rfl := Except.ok.inj (hs.symm.trans hs')
    exact ⟨hout.symm.trans hout', hn.symm.trans hn'⟩
  · rintro ⟨hout, hn⟩
    refine ⟨text.length + 4, fun fuel hfuel => ?_⟩
    obtain ⟨s, hs, hout', hn'⟩ := h fuel hfuel
    exact ⟨s, hs, hout'.trans hout, hn'.trans hn⟩

theorem later_iff (cs : List Bytes) : (wantAll params cs = [] ∧ cs.countP (!isWell params ·) = 0) ↔
    ∀ chunk ∈ cs, ∀ c ∈ chunk, isIgnored params c = true := by
  constructor
  · rintro ⟨hwant, hcount⟩ chunk hchunk
    have hwell : isWell params chunk = true := by
      have := List.countP_eq_zero.mp hcount chunk hchunk
      rwa [Bool.not_eq_true', Bool.not_eq_false] at this
    refine kept_eq_nil_iff.mp ?_
    by_contra hne
    have hmem : kept params chunk ∈ wantAll params cs :=
      List.mem_filter.mpr ⟨List.mem_map.mpr ⟨chunk, List.mem_filter.mpr ⟨hchunk, hwell⟩, rfl⟩, decide_eq_true hne⟩
    rw [hwant] at hmem
    cases hmem
  · intro hall
    constructor
    · refine List.filter_eq_nil_iff.mpr fun word hword => ?_
      obtain ⟨chunk, hchunk, rfl⟩ := List.mem_map.mp hword
      rw [kept_eq_nil_iff.mpr (hall chunk (List.mem_filter.mp hchunk).1)]
      decide
    · refine List.countP_eq_zero.mpr fun chunk hchunk => ?_
      rw [isWell_of_ignored (hall chunk hchunk)]
      decide

theorem firstBad_iff (cs : List Bytes) :
    (emitAll params true (cs.takeWhile (isWell params)) = wantAll params cs ∧
        (if (cs.dropWhile (isWell params)).isEmpty then 0 else 1) = cs.countP (!isWell params ·)) ↔
      AllProper params true (cs.takeWhile (isWell params)) ∧
        ∀ chunk ∈ (cs.dropWhile (isWell params)).tail, ∀ c ∈ chunk, isIgnored params c = true := by
  have hsplit : wantAll params cs = wantAll params (cs.takeWhile (isWell params)) ++ wantAll params
      (cs.dropWhile (isWell params)) := by
    rw [← wantAll_append, List.takeWhile_append_dropWhile]
  have hcount : cs.countP (!isWell params ·) = (cs.dropWhile (isWell params)).countP (!isWell params ·) := by
    have hzero : (cs.takeWhile (isWell params)).countP (!isWell params ·) = 0 :=
      List.countP_eq_zero.mpr fun chunk hchunk => by
      rw [List.mem_takeWhile_imp hchunk]
      decide
    rw [← List.takeWhile_append_dropWhile (p := isWell params) (l := cs), List.countP_append,
      List.takeWhile_append_dropWhile, hzero, Nat.zero_add]
  rw [hsplit, hcount, emitAll_first_eq_iff _ fun word hword => exists_not_ignored hword, and_assoc, ← later_iff]
  refine and_congr_right fun _ => ?_
  cases hbad : cs.dropWhile (isWell params) with
  | nil => simp [wantAll]
  | cons chunk later =>
      have hneg : isWell params chunk = false := by
        have hhead := List.head?_dropWhile_not (isWell params) cs
        rw [hbad] at hhead
        exact hhead
      rw [wantAll_cons, want, if_neg (by rw [hneg]; simp), List.nil_append,
        List.countP_cons_of_pos (by rw [hneg]; rfl), List.tail_cons]
      dsimp only [List.isEmpty_cons]
      rw [if_neg Bool.false_ne_true]
      exact and_congr_right fun _ => ⟨fun h => by omega, fun h => by omega⟩

theorem processCharSequence_char (hmode : params.immediateRangeMode = false) (text : Bytes) (last : UInt8) (fuel : Nat) :
    processCharSequence params text last fuel = processSequence params (charMode params) text last fuel := by
  rw [processCharSequence, hmode]
  rfl

theorem charMode_costs_iff (hfits : Fits params (charMode params))
    (hmode : params.immediateRangeMode = false) (hplain : Plain params text) (last : UInt8)
    (hlast : ((chunks params text).dropWhile (isWell params)).tail.getLast? ≠ some []) :
    CostsOnlyItself params text last ↔ emitAll params true
      ((chunks params text).takeWhile (isWell params)) = wantAll params (chunks params text) ∧
      (if ((chunks params text).dropWhile (isWell params)).isEmpty then 0 else 1) =
      (chunks params text).countP (!isWell params ·) := by
  refine costsOnlyItself_iff_of_ends fun fuel hfuel => ?_
  obtain ⟨s, hs, hout, hn⟩ := process_of_ends ((@charMode_ends _ _ last _ [] [] hfits hplain hfuel).1 hlast)
  exact ⟨s, (processCharSequence_char hmode text last fuel).trans hs, hout, hn.trans (Nat.zero_add _)⟩

/-- どの設定とどの入力でも、悪い語がそれだけを失うのは、`Harmless` が成り立つ時、しかもその時に限る。 -/
theorem bad_lexeme_iff (hinit : init raw = some params)
    (hignore : raw.ignoreSuccessiveSeparators = true) (hequal : raw.immediateRangeMode = true →
    raw.rangeSeparators = [] ∨ ∀ c, c ∈ raw.rangeSeparators ↔ c ∈ raw.mainSeparators)
    (hplain : Plain params text) (currentSymbol : UInt8) :
    CostsOnlyItself params text currentSymbol ↔ Harmless params text := by
  obtain ⟨hignore', hmode', hmain, hrange⟩ := init_spec hinit
  rw [hignore] at hignore'
  cases hmode : params.immediateRangeMode with
  | false =>
      have hfits := charMode_fits hignore' hmode
      unfold Harmless
      rw [hmode, if_neg Bool.false_ne_true]
      dsimp only
      rw [← and_assoc, ← firstBad_iff]
      by_cases hlast : ((chunks params text).dropWhile (isWell params)).tail.getLast? = some []
      · refine iff_of_false ?_ fun h => h.2 hlast
        rintro ⟨n, hn⟩
        obtain ⟨s, hs, -⟩ := hn (max n (text.length + 4)) (Nat.le_max_left ..)
        have hendless :=
          (@charMode_ends _ _ currentSymbol _ [] [] hfits hplain (Nat.le_max_right n (text.length + 4))).2 hlast
        rw [processCharSequence_char hmode, processSequence, Input.get_start, hendless] at hs
        cases hs
      · rw [and_iff_left hlast]
        exact charMode_costs_iff hfits hmode hplain currentSymbol hlast
  | true =>
      have hequal' : ∀ c, checkSymbolInSet params.rangeSeparators c = isSeparator params c := by
        intro c
        unfold checkSymbolInSet isSeparator checkSymbolInSet
        rw [hrange hmode, hmain]
        split
        · rfl
        · rename_i hne
          rcases hequal (hmode'.symm.trans hmode) with hnil | hiff
          · exact absurd (List.isEmpty_iff.mpr hnil) hne
          · rw [Bool.eq_iff_iff, List.contains_iff_mem, List.contains_iff_mem, hiff]
      have hfits := rangeMode_fits hignore' hmode hequal'
      have hprocess : ∀ fuel, processCharSequence params text currentSymbol fuel =
          processSequence params (rangeMode params) text currentSymbol fuel := by
        intro fuel
        rw [processCharSequence, hmode]
        rfl
      have hiff := @costsOnlyItself_iff_of_ends params text currentSymbol (emitAll params true (chunks params text))
        ((chunks params text).countP (!isWell params ·)) fun fuel hfuel => by
          obtain ⟨s, hs, hout, hn⟩ := process_of_ends (@rangeMode_ends _ _ currentSymbol _ [] [] hfits hplain hfuel)
          exact ⟨s, (hprocess fuel).trans hs, hout, hn.trans (Nat.zero_add _)⟩
      rw [hiff, and_iff_left rfl]
      unfold Harmless
      rw [hmode, if_pos rfl, ← and_iff_left (a := AllProper params true (chunks params text)) (rfl : ([] : List Bytes) = []),
        ← emitAll_first_eq_iff _ fun _ h => absurd h List.not_mem_nil, List.append_nil]

end

theorem bad_lexeme_iff_sample :
    CostsOnlyItself ⟨92, [44], true, [97, 98], true, [32], false, ⟨false, 0, 0⟩, ⟨false, 0, 0⟩,
      false, ⟨false, 0, 0⟩, [], [], 0, false⟩ [97, 32, 98, 44, 97, 98, 44, 33] 0 := by
  have hinit : init ⟨92, [44], true, [97, 98], true, [32], false, ⟨false, 0, 0⟩, ⟨false, 0, 0⟩,
      false, ⟨false, 0, 0⟩, [], [], 0, false⟩ =
      some ⟨92, [44], true, [97, 98], true, [32], false, ⟨false, 0, 0⟩, ⟨false, 0, 0⟩, false,
      ⟨false, 0, 0⟩, [], [], 0, false⟩ := rfl
  exact (bad_lexeme_iff hinit rfl (fun hfalse => nomatch hfalse) (forall_mem_bytes (by decide)) 0).mpr (by decide +kernel)

/-- `!,a` では、悪い語の後の `a` も失われる。 -/
theorem bad_lexeme_drops_rest :
    ¬ ∀ (raw params : AnalyzerParams) (text : Bytes) (currentSymbol : UInt8),
      init raw = some params → raw.ignoreSuccessiveSeparators = true →
      (raw.immediateRangeMode = true → raw.rangeSeparators = [] ∨ ∀ c, c ∈ raw.rangeSeparators ↔
      c ∈ raw.mainSeparators) → Plain params text →
        CostsOnlyItself params text currentSymbol := by
  intro h
  have hplain : Plain ⟨92, [44], true, [97, 98], true, [32], false, ⟨false, 0, 0⟩, ⟨false, 0, 0⟩,
      false, ⟨false, 0, 0⟩, [], [], 0, false⟩ [33, 44, 97] := forall_mem_bytes (by decide)
  have hinit : init ⟨92, [44], true, [97, 98], true, [32], false, ⟨false, 0, 0⟩, ⟨false, 0, 0⟩,
      false, ⟨false, 0, 0⟩, [], [], 0, false⟩ = some _ := rfl
  have hcosts := h _ _ [33, 44, 97] 0 hinit rfl (fun hfalse => nomatch hfalse) hplain
  have hlost := (charMode_costs_iff (charMode_fits rfl rfl) rfl hplain 0 (by decide)).mp hcosts
  exact absurd hlost.1 (by decide)

end UnixCommons.String.Analyzer
