import UnixCommons.String.Tokenizer
import Mathlib.Data.List.TakeWhile

/-!
# 語に分ける補題

一つの語を取ると、最初の区切りまでが語であり、残りは区切りの後である。
-/

namespace UnixCommons.String.Tokenizer

open Lib

variable {p : UInt8 → Bool} {token rest s : Bytes} {sep : UInt8} {fuel : Nat} {state : SplitterState}

/-! ## 文字の集合の検索 -/

theorem findOwned_eq (p : UInt8 → Bool) (s : Bytes) :
    findOwned p s = (s.dropWhile (!p ·), if s.dropWhile (!p ·) = [] then none else some 1) := by
  induction s with
  | nil => rfl
  | cons ch s ih =>
      rw [findOwned, List.dropWhile_cons]
      cases hch : p ch with
      | true => simp
      | false => simp [ih]

theorem findNonowned_eq (p : UInt8 → Bool) (s : Bytes) : findNonowned p s = s.dropWhile p := by
  induction s with
  | nil => rfl
  | cons ch s ih =>
      rw [findNonowned, List.dropWhile_cons]
      cases hch : p ch with
      | true => simp [ih]
      | false => simp

theorem findOwned_missing (h : ∀ b ∈ s, p b = false) : findOwned p s = ([], none) := by
  have hdrop : s.dropWhile (!p ·) = [] := List.dropWhile_eq_nil_iff.mpr fun b hb => by simp [h b hb]
  rw [findOwned_eq, hdrop, if_pos rfl]

theorem findOwned_found (h : ∀ b ∈ token, p b = false) (hsep : p sep = true) :
    findOwned p (token ++ sep :: rest) = (sep :: rest, some 1) := by
  have hdrop : (token ++ sep :: rest).dropWhile (!p ·) = sep :: rest := by
    rw [List.dropWhile_append_of_pos fun b hb => by simp [h b hb], List.dropWhile_cons, hsep]
    rfl
  rw [findOwned_eq, hdrop, if_neg (List.cons_ne_nil _ _)]

theorem between_append (token rest : Bytes) : between (token ++ rest) rest = token := by
  rw [between, List.length_append, Nat.add_sub_cancel, List.take_left]

theorem separator_cases (p : UInt8 → Bool) (s : Bytes) :
    (∀ b ∈ s, p b = false) ∨ ∃ token sep rest, s = token ++ sep :: rest ∧ (∀ b ∈ token, p b = false) ∧ p sep = true := by
  by_cases h : ∀ b ∈ s, p b = false
  · exact Or.inl h
  · push Not at h
    obtain ⟨b, hb, hp⟩ := h
    obtain ⟨sep, before, after, hbefore, hsep, heq, -⟩ := List.exists_of_eraseP hb (Bool.eq_true_of_not_eq_false hp)
    exact Or.inr ⟨before, sep, after, heq, fun b hb => Bool.eq_false_of_not_eq_true (hbefore b hb), hsep⟩

/-! ## 区切りで切った語 -/

def fields (p : UInt8 → Bool) (s : Bytes) : List Bytes := if s = [] then [] else s.splitOnP p

def reported (p : UInt8 → Bool) (s : Bytes) : List Bytes := if s.getLast?.any p then (fields p s).dropLast else fields p s

def nonemptyFields (p : UInt8 → Bool) (s : Bytes) : List Bytes := (fields p s).filter (· ≠ [])

theorem mem_splitOnP {b : UInt8} (p : UInt8 → Bool) (hb : b ∈ s) : p b = true ∨ ∃ token ∈ s.splitOnP p, b ∈ token := by
  induction s with
  | nil => cases hb
  | cons ch s ih =>
      rw [List.splitOnP_cons_eq_if_modifyHead]
      cases hch : p ch with
      | true =>
          rw [if_pos rfl]
          rcases List.mem_cons.mp hb with rfl | hb
          · exact Or.inl hch
          · obtain h | ⟨token, htoken, h⟩ := ih hb
            · exact Or.inl h
            · exact Or.inr ⟨token, List.mem_cons_of_mem _ htoken, h⟩
      | false =>
          obtain ⟨token, tokens, heq⟩ := List.exists_cons_of_ne_nil (List.splitOnP_ne_nil p s)
          rw [if_neg Bool.false_ne_true, heq, List.modifyHead_cons]
          rw [heq] at ih
          rcases List.mem_cons.mp hb with rfl | hb
          · exact Or.inr ⟨_, List.mem_cons_self, List.mem_cons_self⟩
          · obtain h | ⟨token', htoken, h⟩ := ih hb
            · exact Or.inl h
            · rcases List.mem_cons.mp htoken with rfl | htoken
              · exact Or.inr ⟨_, List.mem_cons_self, List.mem_cons_of_mem _ h⟩
              · exact Or.inr ⟨token', List.mem_cons_of_mem _ htoken, h⟩

theorem reported_last (hne : s ≠ []) (h : ∀ b ∈ s, p b = false) : reported p s = [s] := by
  have hlast : s.getLast?.any p = false := by
    rw [List.getLast?_eq_some_getLast hne]
    exact h _ (List.getLast_mem hne)
  rw [reported, hlast, if_neg Bool.false_ne_true, fields, if_neg hne, List.splitOnP_eq_singleton h]

theorem reported_next (h : ∀ b ∈ token, p b = false) (hsep : p sep = true) :
    reported p (token ++ sep :: rest) = token :: reported p rest := by
  have hfields : fields p (token ++ sep :: rest) = token :: rest.splitOnP p := by
    rw [fields, if_neg (by simp), List.splitOnP_append_cons_of_forall_mem h sep hsep]
  rw [reported, hfields, List.getLast?_append_cons]
  by_cases hrest : rest = []
  · subst hrest
    simp [hsep, reported, fields]
  · have hlast : (sep :: rest).getLast? = rest.getLast? := by
      rw [List.getLast?_cons, List.getLast?_eq_some_getLast hrest]
      rfl
    rw [hlast, reported, fields, if_neg hrest, List.dropLast_cons_of_ne_nil (List.splitOnP_ne_nil _ _)]
    split_ifs <;> rfl

theorem reported_eq_fields_iff (p : UInt8 → Bool) (s : Bytes) : reported p s = fields p s ↔ s.getLast?.any p = false := by
  unfold reported
  cases hlast : s.getLast?.any p with
  | false => simp
  | true =>
      have hne : s ≠ [] := by
        rintro rfl
        cases hlast
      have hpos : 0 < (fields p s).length := by
        rw [fields, if_neg hne]
        exact List.length_pos_of_ne_nil (List.splitOnP_ne_nil _ _)
      refine iff_of_false (fun h => ?_) Bool.noConfusion
      have hlen := congrArg List.length h
      rw [if_pos rfl, List.length_dropLast] at hlen
      omega

theorem nonemptyFields_eq (p : UInt8 → Bool) (s : Bytes) : nonemptyFields p s = (s.splitOnP p).filter (· ≠ []) := by
  rw [nonemptyFields, fields]
  split_ifs with h
  · subst h
    rfl
  · rfl

theorem nonemptyFields_dropWhile (p : UInt8 → Bool) (s : Bytes) : nonemptyFields p (s.dropWhile p) = nonemptyFields p s := by
  induction s with
  | nil => rfl
  | cons ch s ih =>
      rw [List.dropWhile_cons]
      cases hch : p ch with
      | true =>
          rw [if_pos rfl, ih, nonemptyFields_eq, nonemptyFields_eq, List.splitOnP_cons_eq_if_modifyHead, if_pos hch]
          rfl
      | false => rfl

theorem nonemptyFields_last (hne : s ≠ []) (h : ∀ b ∈ s, p b = false) : nonemptyFields p s = [s] := by
  rw [nonemptyFields_eq, List.splitOnP_eq_singleton h]
  simp [hne]

theorem nonemptyFields_next (hne : token ≠ []) (h : ∀ b ∈ token, p b = false) (hsep : p sep = true) :
    nonemptyFields p (token ++ sep :: rest) = token :: nonemptyFields p (sep :: rest) := by
  have hskip : nonemptyFields p (sep :: rest) = nonemptyFields p rest := by
    rw [nonemptyFields_eq, nonemptyFields_eq, List.splitOnP_cons_eq_if_modifyHead, if_pos hsep]
    rfl
  rw [hskip, nonemptyFields_eq, nonemptyFields_eq, List.splitOnP_append_cons_of_forall_mem h sep hsep]
  simp [hne]

/-! ## 空の語も返す版 -/

theorem getTokenEmpty_next (hstr : state.str = token ++ sep :: rest) (h : ∀ b ∈ token, p b = false) (hsep : p sep = true) :
    getTokenEmpty (.of p) state = .ok (some token, { state with separator := some (sep :: rest), str := rest }) := by
  rw [getTokenEmpty, if_neg (by simp [hstr]), Category.of, hstr]
  simp only [findOwned_found h hsep, between_append, if_neg (List.cons_ne_nil sep rest)]
  rfl

theorem getTokenEmpty_last (hne : state.str ≠ []) (h : ∀ b ∈ state.str, p b = false) :
    getTokenEmpty (.of p) state = .ok (some state.str, { state with separator := some [], str := [] }) := by
  have hbetween : between state.str [] = state.str := List.take_length
  rw [getTokenEmpty, if_neg hne, Category.of]
  simp only [findOwned_missing h, hbetween]
  rfl

theorem collect_empty (p : UInt8 → Bool) (hfuel : state.str.length < fuel) :
    ∃ state', collect true (.of p) fuel state = .ok (reported p state.str, state') ∧ state'.error = state.error := by
  induction fuel generalizing state with
  | zero => exact absurd hfuel (Nat.not_lt_zero _)
  | succ fuel ih =>
      rw [collect, getToken, if_pos rfl]
      by_cases hne : state.str = []
      · rw [getTokenEmpty, if_pos hne, hne]
        exact ⟨state, rfl, rfl⟩
      · rcases separator_cases p state.str with h | ⟨token, sep, rest, hstr, h, hsep⟩
        · have hpos := List.length_pos_of_ne_nil hne
          obtain ⟨state', hrest, herror⟩ := @ih { state with separator := some [], str := [] } (by simp; omega)
          rw [getTokenEmpty_last hne h, reported_last hne h]
          simp only [ok_bind, hrest]
          exact ⟨state', rfl, herror⟩
        · have hlen : rest.length < fuel := by
            simp only [hstr, List.length_append, List.length_cons] at hfuel
            omega
          obtain ⟨state', hrest, herror⟩ := @ih { state with separator := some (sep :: rest), str := rest } hlen
          rw [getTokenEmpty_next hstr h hsep, hstr, reported_next h hsep]
          simp only [ok_bind, hrest]
          exact ⟨state', rfl, herror⟩

/-! ## 空の語を返さない版 -/

theorem getTokenNonempty_null (hnull : state.null = true) :
    getTokenNonempty (.of p) state = .ok (none, { state with error := true }) := by
  rw [getTokenNonempty, hnull, if_pos rfl]
  rfl

theorem getTokenNonempty_none (hnull : state.null = false) (h : state.str.dropWhile p = []) :
    getTokenNonempty (.of p) state = .ok (none, state) := by
  rw [getTokenNonempty, hnull, if_neg Bool.false_ne_true, Category.of]
  simp only [findNonowned_eq, h]
  rfl

theorem getTokenNonempty_next (hnull : state.null = false)
    (hstr : state.str.dropWhile p = token ++ sep :: rest) (hne : token ≠ [])
    (h : ∀ b ∈ token, p b = false) (hsep : p sep = true) :
    getTokenNonempty (.of p) state =
      .ok (some token, { state with separator := some (sep :: rest), str := sep :: rest }) := by
  have hfirst : token ++ sep :: rest ≠ sep :: rest :=
    fun heq => hne (List.append_left_eq_self.mp heq)
  rw [getTokenNonempty, hnull, if_neg Bool.false_ne_true, Category.of]
  simp only [findNonowned_eq, hstr, findOwned_found h hsep, between_append, if_neg hfirst]
  rfl

theorem getTokenNonempty_last (hnull : state.null = false) (hstr : state.str.dropWhile p = token)
    (hne : token ≠ []) (h : ∀ b ∈ token, p b = false) :
    getTokenNonempty (.of p) state =
      .ok (some token, { state with separator := some [], str := [] }) := by
  have hbetween : between token [] = token := List.take_length
  rw [getTokenNonempty, hnull, if_neg Bool.false_ne_true, Category.of]
  simp only [findNonowned_eq, hstr, findOwned_missing h, hbetween, if_neg hne]
  rfl

theorem collect_nonempty (p : UInt8 → Bool) (hnull : state.null = false)
    (hfuel : state.str.length < fuel) :
    ∃ state', collect false (.of p) fuel state = .ok (nonemptyFields p state.str, state') ∧ state'.error = state.error := by
  induction fuel generalizing state with
  | zero => exact absurd hfuel (Nat.not_lt_zero _)
  | succ fuel ih =>
      rw [collect, getToken, if_neg Bool.false_ne_true, ← nonemptyFields_dropWhile]
      have hdrop := (List.dropWhile_sublist p (l := state.str)).length_le
      by_cases hne : state.str.dropWhile p = []
      · rw [getTokenNonempty_none hnull hne, hne]
        exact ⟨state, rfl, rfl⟩
      · rcases separator_cases p (state.str.dropWhile p) with h | ⟨token, sep, rest, hstr, h, hsep⟩
        · have hpos := List.length_pos_of_ne_nil hne
          obtain ⟨state', hrest, herror⟩ := @ih { state with separator := some [], str := [] } hnull (by simp; omega)
          rw [getTokenNonempty_last hnull rfl hne h, nonemptyFields_last hne h]
          simp only [ok_bind, hrest]
          exact ⟨state', rfl, herror⟩
        · -- 先頭は区切りでないので、語は空でない。
          have htoken : token ≠ [] := by
            rintro rfl
            have hhead := List.head_dropWhile_not p hne
            simp only [hstr, List.nil_append, List.head_cons] at hhead
            rw [hsep] at hhead
            cases hhead
          have hpos := List.length_pos_of_ne_nil htoken
          have hlen : (sep :: rest).length < fuel := by
            rw [hstr, List.length_append] at hdrop
            omega
          obtain ⟨state', hrest, herror⟩ := @ih { state with separator := some (sep :: rest), str := sep :: rest } hnull hlen
          rw [getTokenNonempty_next hnull hstr htoken h hsep, hstr, nonemptyFields_next htoken h hsep]
          simp only [ok_bind, hrest]
          exact ⟨state', rfl, herror⟩

theorem trim_eq (p : UInt8 → Bool) (s : Bytes) : trim p s = (s.dropWhile p).rdropWhile p := by
  rw [trim, findNonowned_eq]
  by_cases h : s.dropWhile p = []
  · rw [if_neg (not_not.mpr h), h]
    rfl
  · rw [if_pos h]

theorem trim_eq_self_iff : trim p s = s ↔ (∀ b ∈ s.head?, p b = false) ∧ ∀ b ∈ s.getLast?, p b = false := by
  rw [trim_eq]
  constructor
  · intro h
    have hprefix := (List.rdropWhile_prefix p (s.dropWhile p)).length_le
    have hdrop : s.dropWhile p = s := (List.dropWhile_suffix p).eq_of_length_le (by rw [h] at hprefix; exact hprefix)
    rw [hdrop] at h
    refine ⟨fun b hb => ?_, fun b hb => ?_⟩
    · cases s with
      | nil => cases hb
      | cons a s =>
          obtain rfl := Option.some.inj hb
          simpa using List.dropWhile_eq_self_iff.mp hdrop (Nat.succ_pos _)
    · have hne : s ≠ [] := by
        rintro rfl
        cases hb
      rw [List.getLast?_eq_some_getLast hne] at hb
      obtain rfl := Option.some.inj hb
      simpa using List.rdropWhile_eq_self_iff.mp h hne
  · rintro ⟨hhead, hlast⟩
    have hdrop : s.dropWhile p = s := by
      cases s with
      | nil => rfl
      | cons a s => exact List.dropWhile_cons_of_neg (by simp [hhead a rfl])
    rw [hdrop, List.rdropWhile_eq_self_iff]
    intro hne
    simp [hlast _ (List.getLast?_eq_some_getLast hne)]

end UnixCommons.String.Tokenizer
