import UnixCommons.String.Lemmas.Flatten

/-!
# UTF-8 の定理

UTF-8 の検査と、文字の集合、続いた文字をまとめること。
-/

namespace UnixCommons.String.UTF8Handler

open Lib Lib.Utf8

/-! ## UTF-8 の検査の定理

`is_correct_utf8_string` が表 3-7 の正確な検査であることは、正しい先頭の部分の後に、三つ目のバイトを読まないことで誤る並びがない
ことである。
-/

/-- 正確な検査。NUL の後を読まずに終わり、正しい文字列であるとき、かつそのときに限り 0 を返し、そうでなければ最初の正しくない並びの始まりを返す。 -/
structure ValidatorRight (str : CString) : Prop where
  result : ∃ r, isCorrectUtf8String str.bytes = .ok r ∧ (r = none ↔ WellFormed str.bytes) ∧ ∀ k,
    r = some k → FirstBad str.bytes k
  octets : ∀ k n, isCorrectUtf8Sequence (str.bytes.drop k) = .ok (true, n) →
    getOctetCount ((str.bytes.drop k).headD 0).toNat = n

/-- 正しい先頭の部分の後に、四バイトの並びの二つのバイトと、NUL、または後に続くバイトでないものと後に続くバイトがある。 -/
def HidesThird (str : CString) : Prop := ∃ w r, str.bytes = w ++ r ∧ WellFormed w ∧ SkipsThird r

theorem utf8_validator_iff (str : CString) : ValidatorRight str ↔ ¬ HidesThird str := by
  constructor
  · rintro ⟨⟨r, hr, hnone, hsome⟩, -⟩ ⟨w, rest, heq, hw, hs⟩
    have hbad : FirstBad str.bytes w.length := by
      refine ⟨?_, ?_⟩
      · rwa [heq, List.take_left]
      · rw [heq, List.drop_left]
        exact hs.spec.1
    cases r with
    | none => exact hbad.not_wellFormed (hnone.mp rfl)
    | some k =>
        -- 返された位置は `w` の終わりより後にあるが、そこまでの部分は正しい。
        unfold isCorrectUtf8String at hr
        rw [heq] at hr
        have hlt := stringLoop_of_skipsThird hw hs hr
        have hfirst := hsome k rfl
        have hk : k ≤ str.bytes.length := by
          by_contra hgt
          exact hfirst.2.1 (List.drop_eq_nil_of_le (by omega))
        have := hbad.le_of_wellFormed hfirst.1 hk
        omega
  · intro h
    refine ⟨?_, fun k n hn => octetsCount_eq hn⟩
    have hs : ∀ w r, str.bytes = w ++ r → WellFormed w → ¬ SkipsThird r := fun w r heq hw hs => h ⟨w, r, heq, hw, hs⟩
    rcases stringLoop_spec 0 str.nonzero (Nat.lt_succ_self _) hs with ⟨hr, hw⟩ | ⟨k, hr, hbad⟩
    · exact ⟨none, hr, iff_of_true rfl hw, by simp⟩
    · refine ⟨some (0 + k), hr, iff_of_false (by simp) hbad.not_wellFormed, ?_⟩
      rintro _ ⟨⟩
      rwa [Nat.zero_add]

/-- `F1 80 41 80` は正しいとされ、`F1 80` では NUL の後が読まれる。 -/
theorem utf8_validator_hides_third :
    ¬ ValidatorRight ⟨[0xF1, 0x80, 0x41, 0x80], by decide⟩ ∧ isCorrectUtf8String [0xF1, 0x80, 0x41, 0x80] = .ok none ∧
      ¬ ValidatorRight ⟨[0xF1, 0x80], by decide⟩ ∧ isCorrectUtf8String [0xF1, 0x80] = .error .pastNul := by
  have h₁ : isCorrectUtf8String [0xF1, 0x80, 0x41, 0x80] = .ok none := by decide
  have h₂ : isCorrectUtf8String [0xF1, 0x80] = .error .pastNul := by decide
  refine ⟨?_, h₁, ?_, h₂⟩
  · rintro ⟨⟨r, hr, hnone, -⟩, -⟩
    obtain rfl : none = r := by
      rw [h₁] at hr
      simpa using hr
    have hbad : FirstBad [0xF1, 0x80, 0x41, 0x80] 0 := by
      refine ⟨.nil, startsBad_four (by decide) ?_⟩
      rintro _ _ _ _ ⟨⟩ - h
      exact absurd h (by decide)
    exact hbad.not_wellFormed (hnone.mp rfl)
  · rintro ⟨⟨r, hr, -⟩, -⟩
    rw [h₂] at hr
    cases hr

end UnixCommons.String.UTF8Handler

namespace UnixCommons.String.UTF8Category

open Lib Lib.Utf8 Generics.CompressedSet

/-! ## UTF-8 の文字の集合は、その集合を表す -/

def Symbol.In (c : Symbol) (chars : State) : Prop := (c.char : Int) ∈ denoted chars.holder

instance (c : Symbol) (chars : State) : Decidable (c.In chars) := inferInstanceAs (Decidable (_ ∈ denoted _))

/-- `p` の成り立つ最初の文字の位置と長さを返し、なければ `missing` を返す。 -/
def FindsFirst (p : Symbol → Prop) (syms : List Symbol) (missing : Option Nat) (r : Except Fault Found) : Prop :=
  (∀ before c after, syms = before ++ c :: after → (∀ x ∈ before, ¬ p x) → p c →
      r = .ok ⟨some (text before).length, some c.octets.length⟩) ∧
    ((∀ c ∈ syms, ¬ p c) → r = .ok ⟨missing, none⟩)

/-- `p` の成り立つ最後の文字の位置と長さを返し、なければ `missing` を返す。 -/
def FindsLast (p : Symbol → Prop) (syms : List Symbol) (missing : Option Nat) (r : Except Fault Found) : Prop :=
  (∀ before c after, syms = before ++ c :: after → (∀ x ∈ after, ¬ p x) → p c →
      r = .ok ⟨some (text before).length, some c.octets.length⟩) ∧
    ((∀ c ∈ syms, ¬ p c) → r = .ok ⟨missing, none⟩)

/-- 木の答え。NUL で終わる文字列では、終わりの NUL も文字として探す。 -/
structure Searches (chars : State) (nodes : List Node) (syms : List Symbol) : Prop where
  findOwned : FindsFirst (fun c => c.In chars) syms (some (text syms).length) (findOwnedRange nodes (text syms))
  findNonowned : FindsFirst (fun c => ¬ c.In chars) syms (some (text syms).length) (findNonownedRange nodes (text syms))
  rfindOwned : FindsLast (fun c => c.In chars) syms (some (text syms).length) (rfindOwned nodes (text syms))
  rfindNonowned : FindsLast (fun c => ¬ c.In chars) syms (some (text syms).length) (rfindNonowned nodes (text syms))
  findOwnedNul : (∀ c ∈ syms, c.octets ≠ [0]) →
    FindsFirst (fun c => c.In chars) (syms ++ [Symbol.nul]) none (UTF8Category.findOwned nodes (text syms))
  findNonownedNul : (∀ c ∈ syms, c.octets ≠ [0]) →
    FindsFirst (fun c => ¬ c.In chars) (syms ++ [Symbol.nul]) none (UTF8Category.findNonowned nodes (text syms))

section
variable {nodes : List Node} {own : Symbol → Bool} (hown : ∀ c rest, isOwned nodes (c.octets ++ rest) = .ok (own c))
include hown

theorem findRangeLoop_first (owned : Bool) (syms : List Symbol) :
    FindsFirst (fun c => own c = owned) syms (some (text syms).length)
      (findRangeLoop nodes owned ((text syms).length + 1) 0 (text syms)) := by
  refine ⟨?_, ?_⟩
  · rintro before c after rfl hb hc
    have hlen := length_le_text (before ++ c :: after)
    rw [List.length_append] at hlen
    rw [findRangeLoop_found hown (by omega) hb hc, Nat.zero_add]
  · intro h
    have hlen := length_le_text syms
    rw [findRangeLoop_missing hown (by omega) h, Nat.zero_add]

theorem rfindLoop_last (owned : Bool) (syms : List Symbol) :
    FindsLast (fun c => own c = owned) syms (some (text syms).length)
      (rfindLoop nodes owned (text syms) (text syms).length (text syms).length) := by
  refine ⟨?_, ?_⟩
  · rintro before c after rfl ha hc
    have := rfindLoop_found hown before after [] ha hc
    rwa [List.append_nil] at this
  · intro h
    have := rfindLoop_missing hown syms [] h
    rwa [List.append_nil] at this

theorem findLoop_first (owned : Bool) {syms : List Symbol} (hnul : ∀ c ∈ syms, c.octets ≠ [0]) :
    FindsFirst (fun c => own c = owned) (syms ++ [Symbol.nul]) none
      (findLoop nodes owned ((text syms).length + 1) 0 (text syms ++ [0])) := by
  have hlen := length_le_text syms
  refine ⟨?_, ?_⟩
  · intro before c after he hb hc
    -- 見つかる文字は、終わりの NUL であるか、その前にある。
    rcases List.eq_nil_or_concat' after with rfl | ⟨after, x, rfl⟩
    · obtain ⟨rfl, hcons⟩ := List.append_inj' he rfl
      obtain rfl : c = Symbol.nul := (List.cons.inj hcons).1.symm
      have hend : text syms ++ [0] = text syms ++ (Symbol.nul.octets ++ []) := rfl
      rw [hend, findLoop_found hown (by omega) hnul hb hc, Nat.zero_add]
    · rw [← List.cons_append, ← List.append_assoc] at he
      obtain ⟨rfl, -⟩ := List.append_inj' he rfl
      rw [List.length_append] at hlen
      rw [text_append, text_cons, List.append_assoc, List.append_assoc,
        findLoop_found hown (by rw [← text_cons, ← text_append]; omega)
        (fun x hx => hnul x (List.mem_append_left _ hx)) hb hc, Nat.zero_add]
  · intro h
    exact findLoop_missing hown (by omega) hnul (fun x hx => h x (List.mem_append_left _ hx))
      (h Symbol.nul (List.mem_append_right _ List.mem_cons_self))

end

theorem Addition.between_iff (x : Addition) (c : Symbol) :
    (x.ends.1.char : Int) ≤ c.char ∧ (c.char : Int) ≤ x.ends.2.char ↔
      x.ends.1.codePoint ≤ c.codePoint ∧ c.codePoint ≤ x.ends.2.codePoint := by
  rw [Int.ofNat_le, Int.ofNat_le, (x.ends.1.sameOrder c).le_iff, (c.sameOrder x.ends.2).le_iff]

theorem utf8_category_represents_set (wide : Nat → Nat → Nat) (additions : List Addition) :
    ∃ chars nodes chars', build additions = .ok chars ∧ (init wide).run chars = .ok nodes chars' ∧
      (∀ (c : Symbol) (rest : Bytes), getChar (c.octets ++ rest) = .ok (c.char, c.octets.length) ∧
        isOwned nodes (c.octets ++ rest) = .ok (decide (c.In chars))) ∧
      (∀ c : Symbol, c.In chars ↔
        ∃ x ∈ additions, x.ends.1.codePoint ≤ c.codePoint ∧ c.codePoint ≤ x.ends.2.codePoint) ∧
      ∀ syms, Searches chars nodes syms := by
  obtain ⟨chars, hbuild, hinv, hmem⟩ := foldlM_apply additions State.init_inv
  obtain ⟨nodes, chars', hinit, hnodes⟩ := init_spec hinv wide
  have hown : ∀ (c : Symbol) (rest : Bytes), isOwned nodes (c.octets ++ rest) = .ok (decide (c.In chars)) :=
    isOwned_symbol hnodes
  refine ⟨chars, nodes, chars', hbuild, hinit, fun c rest => ⟨getChar_symbol c rest, hown c rest⟩, ?_, ?_⟩
  · intro c
    have hc := hmem c.char
    simp only [State.init, mem_denoted_nil, false_or, Addition.between_iff] at hc
    exact hc
  · intro syms
    have htrue : (fun c : Symbol => decide (c.In chars) = true) = fun c => c.In chars := by
      funext c
      rw [decide_eq_true_eq]
    have hfalse : (fun c : Symbol => decide (c.In chars) = false) = fun c => ¬ c.In chars := by
      funext c
      rw [decide_eq_false_iff_not]
    refine ⟨?_, ?_, ?_, ?_, ?_, ?_⟩
    · exact htrue ▸ findRangeLoop_first hown true syms
    · exact hfalse ▸ findRangeLoop_first hown false syms
    · exact htrue ▸ rfindLoop_last hown true syms
    · exact hfalse ▸ rfindLoop_last hown false syms
    · exact fun hnul => htrue ▸ findLoop_first hown true hnul
    · exact fun hnul => hfalse ▸ findLoop_first hown false hnul

end UnixCommons.String.UTF8Category

namespace UnixCommons.String.Flatten

open Lib Collapse Generics.CompressedSet UTF8Category

/-! ## 続いた文字をまとめる定理

`dest` の大きさは、二つの長さの積を 64 ビットで求めた物である。積が溢れなければ、置き換える文字列の一つごとに、除かれる文字が少なくとも一つあるので、
結果は収まる。
-/

/-- 二つの `flatten` は、長さが収まる時、しかもその時に限って正しい。ASCII の文字列では、二つの結果は同じである。 -/
theorem flatten_collapses_iff (maxSize : Nat) (wide : Nat → Nat → Nat) (additions : List Addition) (p : UInt8 → Bool) :
    ∃ chars nodes chars', build additions = .ok chars ∧ (init wide).run chars = .ok nodes chars' ∧
      (∀ str replacement, AsciiRight maxSize p str replacement ↔
      RunFits maxSize p single str replacement (∀ b ∈ replacement, p b = false)) ∧
      (∀ syms replacement, Utf8Right maxSize nodes (fun c => c.In chars) syms replacement ↔
        RunFits maxSize (fun c => c.In chars) Symbol.octets syms replacement (Clear (fun c => c.In chars) replacement)) ∧
      (Corresponds p (fun c => c.In chars) → ∀ str replacement, (∀ b ∈ str, b.toNat < 128) →
        flattenUtf8 maxSize nodes str replacement = (flattenAscii maxSize p str replacement).map some) := by
  obtain ⟨chars, hbuild, hinv, -⟩ := foldlM_apply additions State.init_inv
  obtain ⟨nodes, chars', hinit, hnodes⟩ := init_spec hinv wide
  have hown : ∀ (c : Symbol) (rest : Bytes), isOwned nodes (c.octets ++ rest) =
      .ok (decide (c.In chars)) := isOwned_symbol hnodes
  exact ⟨chars, nodes, chars', hbuild, hinit, asciiRight_iff maxSize p, utf8Right_iff hown maxSize,
    fun hp str replacement h => flattenUtf8_ascii hown hp maxSize h replacement⟩

/-- `2 ^ 32` 個の `a` を、`2 ^ 32` 個の `b` に替えると、大きさは零になり、外に書く。 -/
theorem flatten_overruns : ¬ ∀ str replacement, AsciiRight (2 ^ 63 - 1) (· == 97) str replacement := by
  intro h
  have hfits := ((asciiRight_iff _ _ _ _).mp (h (List.replicate (2 ^ 32 - 1 + 1) 97) (List.replicate (2 ^ 32) 98))).first
  rw [Fits, destSize, flatMap_single, runs_replicate rfl, List.length_replicate,
    List.length_replicate, if_pos (by decide)] at hfits
  omega

end UnixCommons.String.Flatten
