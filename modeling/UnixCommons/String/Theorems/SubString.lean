import UnixCommons.String.Lemmas.SubString
import UnixCommons.String.Lemmas.Tokenizer

/-! # 部分文字列と語の定理 -/

/-!
## 部分文字列の検索の定理
-/

namespace UnixCommons.String.SubString

open Lib UTF8Handler

/-- どの検索のどの版も、条件の成り立つ時に、しかもその時に限って、範囲の外を読まずに `std::string` の値を返す。 -/
theorem substring_search_iff (s : SubString) (c : Call) : c.run s = .ok (c.std s) ↔ c.Agrees s := by
  obtain ⟨f, a, pos⟩ := c
  have hs := s.size_lt
  have hpos : pos.toNat < 2 ^ 64 := pos.toNat_lt
  unfold Call.run Call.std Call.Agrees
  dsimp only
  cases a with
  | char ch =>
      by_cases hf : f = .findLastNotOf
      · subst hf
        exact iff_of_false (fun h => by cases h) id
      · refine iff_of_true (searchChar_eq f hf) ?_
        cases f <;> first | exact hf rfl | trivial
  | str t =>
      have hiff := search_iff (t := t) f hs hpos
      cases f <;> exact hiff
  | pointer t =>
      have hiff := search_iff (t := t.bytes) f hs hpos
      dsimp only
      rw [ofPointer_cstring, ok_bind]
      cases f <;> exact hiff
  | counted ptr count h =>
      have hiff := search_iff (t := ptr.take count.toNat) f hs hpos
      cases f with
      | rfind =>
          dsimp only [searchCounted, Argument.needle]
          by_cases hnul : 0 ∈ ptr.take count.toNat
          · rw [ofPointer_eq hnul, ok_bind, rfind_eq, Except.ok.injEq]
            exact (and_iff_right hnul).symm
          · rw [ofPointer_error hnul]
            exact iff_of_false (fun h => by cases h) fun h => hnul h.1
      | find => exact hiff
      | findFirstOf => exact hiff
      | findFirstNotOf => exact hiff
      | findLastOf => exact hiff
      | findLastNotOf => exact hiff

/-- 空の `t` を `"ab"` の 1 から探すと、`std::string` の 1 ではなく 0 を返す。 -/
theorem substring_search_differs :
    Call.run ⟨.find, .str [], 1⟩ ⟨[0x61, 0x62], by decide⟩ = .ok 0 ∧ Call.std ⟨.find, .str [], 1⟩
      ⟨[0x61, 0x62], by decide⟩ = 1 ∧
      Call.run ⟨.find, .str [0x61], 2⟩ ⟨[0x61], by decide⟩ = .error .invalidRange ∧
      Call.run ⟨.rfind, .counted [0x61, 0x62] 1 (by decide), 2⟩ ⟨[0x61, 0x62], by decide⟩ =
      .error .outside ∧ Call.run ⟨.findLastNotOf, .str [], 0⟩ ⟨[0x61], by decide⟩ = .ok npos ∧
      Call.std ⟨.findLastNotOf, .str [], 0⟩ ⟨[0x61], by decide⟩ = 0 ∧
      Call.run ⟨.findLastNotOf, .char 0x61, 0⟩ ⟨[0x62], by decide⟩ = .error .undefined ∧
      ¬ ∀ (s : SubString) (c : Call), c.run s = .ok (c.std s) := by
  have hrun : Call.run ⟨.find, .str [], 1⟩ ⟨[0x61, 0x62], by decide⟩ = .ok 0 := by decide
  have hstd : Call.std ⟨.find, .str [], 1⟩ ⟨[0x61, 0x62], by decide⟩ = 1 := by decide
  refine ⟨hrun, hstd, by decide, by decide, by decide, by decide, by decide, fun hall => ?_⟩
  have hsame := hall ⟨[0x61, 0x62], by decide⟩ ⟨.find, .str [], 1⟩
  rw [hrun, hstd] at hsame
  cases hsame

structure PointerAgrees (s : Bytes) (p : CString) : Prop where
  order : ∃ r r', comparePointer s (p.bytes ++ [0]) = .ok r ∧
    (ofPointer (p.bytes ++ [0]) >>= compare s) = .ok r' ∧ r.sign = r'.sign
  antisymmetric : ∃ r r', comparePointer s (p.bytes ++ [0]) = .ok r ∧
    (do compare (← ofPointer (p.bytes ++ [0])) s) = .ok r' ∧ r.sign = -r'.sign

/-- `p` が `s` の真の前半でない時、しかもその時に限って、二つの版は一致する。 -/
theorem compare_pointer_iff (s : SubString) (p : CString) : PointerAgrees s.bytes p ↔
    ¬ (p.bytes <+: s.bytes ∧ p.bytes ≠ s.bytes) := by
  have hpointer := comparePointer_eq s.bytes p.bytes p.nonzero
  constructor
  · rintro ⟨⟨r, r', hr, hr', hsign⟩, _⟩ hprefix
    rw [ofPointer_cstring, ok_bind, compare_eq, orderSign_prefix hprefix.1 hprefix.2] at hr'
    rw [hpointer, if_pos hprefix] at hr
    cases hr
    cases hr'
    exact absurd hsign (by decide)
  · intro hprefix
    rw [if_neg hprefix] at hpointer
    refine ⟨⟨_, orderSign s.bytes p.bytes, hpointer, ?_, rfl⟩, ⟨_, orderSign p.bytes s.bytes, hpointer, ?_, ?_⟩⟩
    · rw [ofPointer_cstring, ok_bind, compare_eq]
    · rw [ofPointer_cstring, ok_bind, compare_eq]
    · rw [orderSign_swap s.bytes p.bytes, Int.sign_neg, neg_neg]

/-- `ab` と `"a"` を比べると、ポインタを受ける版だけが負の値を返す。 -/
theorem compare_pointer_prefix :
    ¬ ∀ (s : SubString) (p : CString), 0 ∉ s.bytes → PointerAgrees s.bytes p := by
  intro h
  have hab := h ⟨[97, 98], by decide⟩ ⟨[97], by decide⟩ (by decide)
  obtain ⟨r, r', hr, hr', hsign⟩ := hab.order
  cases hr
  cases hr'
  exact absurd hsign (by decide)

end UnixCommons.String.SubString

/-!
## 語に分ける定理
-/

namespace UnixCommons.String.Tokenizer

open Lib

def rejoin (p : UInt8 → Bool) (s : Bytes) (tokens : List Bytes) : Bytes :=
  (tokens.zipWith (· ++ ·) (((s.filter p).map fun ch => [ch]) ++ [[]])).flatten

theorem rejoin_fields (p : UInt8 → Bool) (s : Bytes) : rejoin p s (fields p s) = s := by
  rw [rejoin, fields]
  split_ifs with h
  · rw [h]
    rfl
  · exact List.splitOnP_spec s

/-- 分けて失う物がない。空の語も返す版は全ての語を、他の版は空でない語を返し、どちらも誤りなしで終わる。 -/
structure LosesNothing (p : UInt8 → Bool) (str : Option Bytes) : Prop where
  empty : ∃ tokens state, split true (.of p) str = .ok (tokens, state) ∧
    tokens = fields p (str.getD []) ∧ rejoin p (str.getD []) tokens = str.getD [] ∧
    state.error = false
  nonempty : ∃ tokens state, split false (.of p) str = .ok (tokens, state) ∧
    tokens = nonemptyFields p (str.getD []) ∧ state.error = false

/-- `SubString()` では、空の語を返さない版が誤りで終わる。 -/
theorem not_losesNothing_null (p : UInt8 → Bool) : ¬ LosesNothing p none := by
  rintro ⟨-, tokens, state, hsplit, -, herror⟩
  have hnull : getTokenNonempty (.of p) .ofNull = .ok (none, { SplitterState.ofNull with error := true }) :=
    getTokenNonempty_null rfl
  rw [split, collect, getToken, if_neg Bool.false_ne_true, hnull] at hsplit
  cases hsplit
  cases herror

theorem losesNothing_some_iff (p : UInt8 → Bool) (s : Bytes) :
    LosesNothing p (some s) ↔ s.getLast?.any p = false := by
  have hfuel : (SplitterState.of s).str.length < s.length + 1 := Nat.lt_succ_self _
  obtain ⟨state, hempty, herror⟩ := collect_empty p hfuel
  obtain ⟨state', hnonempty, herror'⟩ := collect_nonempty p rfl hfuel
  rw [← reported_eq_fields_iff]
  constructor
  · rintro ⟨⟨tokens, end', hsplit, htokens, -, -⟩, -⟩
    rw [split, hempty] at hsplit
    cases hsplit
    exact htokens
  · intro h
    refine ⟨⟨_, _, hempty, h, ?_, herror⟩, ⟨_, _, hnonempty, rfl, herror'⟩⟩
    rw [SplitterState.of, h]
    exact rejoin_fields p s

/-- `SubString()` でなく、区切りで終わらない文字列では、しかもその時に限って、分けて失う物がない。 -/
theorem splitter_loses_nothing_iff (p : UInt8 → Bool) (str : Option Bytes) :
    LosesNothing p str ↔ ∃ s, str = some s ∧ s.getLast?.any p = false := by
  cases str with
  | none => simp [not_losesNothing_null p]
  | some s => simp [losesNothing_some_iff p s]

/-- `a,` を分けると、最後の空の語が返らない。 -/
theorem splitter_loses_last :
    ¬ ∀ (separator : UInt8) (s : Bytes), LosesNothing (· == separator) (some s) := by
  intro h
  exact absurd ((losesNothing_some_iff _ _).mp (h 44 [97, 44])) (by decide)

end UnixCommons.String.Tokenizer
