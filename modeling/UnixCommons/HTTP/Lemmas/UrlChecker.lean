import UnixCommons.HTTP.Lemmas.UrlParts
import UnixCommons.String.Lemmas.Tokenizer

/-! # URL の検査の補題 -/

namespace UnixCommons.HTTP

open Lib Lib.Uri String.AsciiStringManip String.JsUnicode String.Tokenizer

variable {parts : UrlParts} {category url : Bytes}

/-! ## 符号化した文字列 -/

inductive Encoded (category : Bytes) : Bytes → Prop
  | nil : Encoded category []
  | plain {ch : UInt8} {rest : Bytes} (h : isOwned category ch = true)
      (hrest : Encoded category rest) : Encoded category (ch :: rest)
  | escape {a b : UInt8} {rest : Bytes} (ha : isOwned hexNumber a = true)
      (hb : isOwned hexNumber b = true) (hrest : Encoded category rest) :
      Encoded category (ascii '%' :: a :: b :: rest)

theorem findInvalid_plain {ch : UInt8} {rest : Bytes} (h : isOwned category ch = true) :
    findInvalid category (ch :: rest) = findInvalid category rest := by
  rw [findInvalid.eq_def]
  dsimp only
  rw [if_pos h]

theorem findInvalid_escape {a b : UInt8} {rest : Bytes} (h : isOwned category (ascii '%') = false)
    (ha : isOwned hexNumber a = true)
    (hb : isOwned hexNumber b = true) : findInvalid category (ascii '%' :: a :: b :: rest) = findInvalid category rest := by
  rw [findInvalid.eq_def]
  dsimp only
  rw [if_neg (by rw [h]; decide), if_neg (by simp), if_pos ⟨ha, hb⟩]

structure BadStart (category : Bytes) (ch : UInt8) (rest : Bytes) : Prop where
  foreign : isOwned category ch = false
  alone : ch = ascii '%' → ∀ a b tail, rest = a :: b :: tail → ¬ (isOwned hexNumber a = true ∧ isOwned hexNumber b = true)

theorem findInvalid_bad {ch : UInt8} {rest : Bytes} (h : BadStart category ch rest) :
    findInvalid category (ch :: rest) = ch :: rest := by
  rw [findInvalid.eq_def]
  dsimp only
  rw [if_neg (by rw [h.foreign]; decide)]
  split
  · rfl
  next hch =>
      split
      next a b tail => rw [if_neg (h.alone (not_not.mp hch) a b tail rfl)]
      next => rfl

theorem encoded_cases (category : Bytes) (ch : UInt8) (rest : Bytes) :
    isOwned category ch = true ∨ (∃ a b tail, ch = ascii '%' ∧ rest = a :: b :: tail ∧ isOwned category ch = false ∧
      isOwned hexNumber a = true ∧ isOwned hexNumber b = true) ∨ BadStart category ch rest := by
  by_cases h : isOwned category ch = true
  · exact .inl h
  · right
    have hf : isOwned category ch = false := eq_false_of_ne_true h
    by_cases hesc : ch = ascii '%' ∧ ∃ a b tail, rest = a :: b :: tail ∧ isOwned hexNumber a =
      true ∧ isOwned hexNumber b = true
    · obtain ⟨hch, a, b, tail, hrest, ha, hb⟩ := hesc
      exact .inl ⟨a, b, tail, hch, hrest, hf, ha, hb⟩
    · refine .inr ⟨hf, ?_⟩
      intro hch a b tail hrest hhex
      exact hesc ⟨hch, a, b, tail, hrest, hhex.1, hhex.2⟩

theorem findInvalid_spec (category str : Bytes) :
    ∃ pre, str = pre ++ findInvalid category str ∧ Encoded category pre ∧
      ∀ ch rest, findInvalid category str = ch :: rest → BadStart category ch rest := by
  induction hn : str.length using Nat.strongRecOn generalizing str with
  | ind n ih =>
      cases str with
      | nil => exact ⟨[], rfl, .nil, fun ch rest h => by cases h⟩
      | cons ch rest =>
          rw [List.length_cons] at hn
          rcases encoded_cases category ch rest with h | ⟨a, b, tail, rfl, rfl, hf, ha, hb⟩ | h
          · obtain ⟨pre, he, hpre, hbad⟩ := ih rest.length (by omega) rest rfl
            rw [findInvalid_plain h]
            refine ⟨ch :: pre, ?_, .plain h hpre, hbad⟩
            rw [List.cons_append, ← he]
          · rw [List.length_cons, List.length_cons] at hn
            obtain ⟨pre, he, hpre, hbad⟩ := ih tail.length (by omega) tail rfl
            rw [findInvalid_escape hf ha hb]
            refine ⟨ascii '%' :: a :: b :: pre, ?_, .escape ha hb hpre, hbad⟩
            rw [List.cons_append, List.cons_append, List.cons_append, ← he]
          · rw [findInvalid_bad h]
            refine ⟨[], rfl, .nil, ?_⟩
            intro ch' rest' he
            obtain ⟨rfl, rfl⟩ := List.cons.inj he
            exact h

theorem encoded_of_findInvalid {str : Bytes} (h : findInvalid category str = []) : Encoded category str := by
  obtain ⟨pre, he, hpre, -⟩ := findInvalid_spec category str
  rw [h, List.append_nil] at he
  rwa [he]

theorem Encoded.forall_mem {P : UInt8 → Prop} {str : Bytes} (h : Encoded category str)
    (hP : ∀ b ∈ category ++ ascii '%' :: hexNumber, P b) : ∀ b ∈ str, P b := by
  have hown : ∀ b, isOwned category b = true → P b := fun b hb => hP b (List.mem_append_left _ (List.contains_iff_mem.mp hb))
  have hhex : ∀ b, isOwned hexNumber b = true → P b :=
    fun b hb => hP b (List.mem_append_right _ (List.mem_cons_of_mem _ (List.contains_iff_mem.mp hb)))
  induction h with
  | nil => simp
  | plain hch _ ih =>
      intro b hb
      rcases List.mem_cons.mp hb with rfl | hb
      · exact hown _ hch
      · exact ih b hb
  | @escape a c rest ha hc _ ih =>
      intro b hb
      simp only [List.mem_cons] at hb
      rcases hb with rfl | rfl | rfl | hb
      · exact hP _ (by simp)
      · exact hhex _ ha
      · exact hhex _ hc
      · exact ih b hb

theorem Encoded.findInvalid_eq {str : Bytes} (h : Encoded category str)
    (hp : isOwned category (ascii '%') = false) : findInvalid category str = [] := by
  induction h with
  | nil => rfl
  | plain hch _ ih => rw [findInvalid_plain hch, ih]
  | escape ha hb _ ih => rw [findInvalid_escape hp ha hb, ih]

theorem isValidEncoded_iff {str : Bytes} (hp : isOwned category (ascii '%') = false) :
    isValidEncoded str category = true ↔ Encoded category str := by
  rw [isValidEncoded, decide_eq_true_iff]
  exact ⟨encoded_of_findInvalid, fun h => h.findInvalid_eq hp⟩

/-! ## 検査を通る成分 -/

structure LabelValid (label : Bytes) : Prop where
  pos : 0 < label.length
  le : label.length ≤ maxHostnameLabelSize
  first : isOwned labelFirstLast (label.getD 0 0) = true
  last : 1 < label.length → isOwned labelFirstLast (label.getD (label.length - 1) 0) = true
  middle : 2 < label.length → isValidChars ((label.drop 1).take (label.length - 2)) labelMiddle = true

theorem checkLabels_iff (labels : List Bytes) : checkLabels url labels = .ok () ↔ ∀ label ∈ labels, LabelValid label := by
  induction labels with
  | nil => simp [checkLabels, pure, Except.pure]
  | cons label labels ih =>
      rw [checkLabels, List.forall_mem_cons]
      by_cases h₁ : label.length = 0 ∨ label.length > maxHostnameLabelSize
      · rw [if_pos h₁]
        refine iff_of_false (by simp [makeInvalid, throw, throwThe, MonadExceptOf.throw]) ?_
        rintro ⟨h, -⟩
        have := h.pos
        have := h.le
        omega
      · rw [if_neg h₁]
        split
        next h₂ =>
            refine iff_of_false (by simp [makeInvalid, throw, throwThe, MonadExceptOf.throw]) ?_
            rintro ⟨h, -⟩
            rcases h₂ with h₃ | ⟨h₃, h₄⟩ | ⟨h₃, h₄⟩
            · exact h₃ h.first
            · exact h₄ (h.last h₃)
            · exact h₄ (h.middle h₃)
        next h₂ =>
            simp only [not_or, not_and, not_not] at h₂
            rw [ih]
            refine ⟨fun h => ⟨⟨by omega, by omega, h₂.1, h₂.2.1, h₂.2.2⟩, h⟩, And.right⟩

def labelText (host : Bytes) : Bytes := if host.getLast? = some (ascii '.') then host.dropLast else host

structure UrlParts.Valid (parts : UrlParts) : Prop where
  scheme : parts.scheme = [] → parts.hasScheme = false
  schemeChars : ∀ ch rest, parts.scheme = ch :: rest → isOwned schemeFirst ch = true ∧
    isValidChars rest schemeNotFirst = true
  userinfo : Encoded userInfo parts.userinfo
  hostSize : parts.host.length ≤ maxHostnameSize
  host : isValidChars parts.host hostChars = true
  labels : ∀ label ∈ tokens (ascii '.') [] (labelText parts.host), LabelValid label
  noHost : parts.host = [] → parts.userinfo = [] ∧ parts.port = []
  port : isValidChars parts.port portChars = true
  path : Encoded pathChars parts.path
  start : parts.path ≠ [] → pathStart parts = false
  query : Encoded queryChars parts.query
  fragment : Encoded fragmentChars parts.fragment

theorem bind_ok_iff {x y : Except Invalid Unit} : (x >>= fun _ => y) = .ok () ↔ x = .ok () ∧ y = .ok () := by
  cases x with
  | ok u => simp
  | error e => simp

theorem checkEncoded_iff {type : String} {part : Bytes} (hp : isOwned category (ascii '%') = false) :
    checkEncoded type url part category = .ok () ↔ Encoded category part := by
  rw [checkEncoded, ← isValidEncoded_iff hp]
  by_cases hne : part = []
  · subst hne
    simp [pure, Except.pure, isValidEncoded, findInvalid]
  · by_cases hv : isValidEncoded part category = true <;>
      simp [hne, hv, pure, Except.pure, makeInvalid, throw, throwThe, MonadExceptOf.throw]

theorem checkScheme_iff : checkScheme url parts = .ok () ↔ (parts.scheme = [] → parts.hasScheme = false) ∧
    ∀ ch rest, parts.scheme = ch :: rest → isOwned schemeFirst ch = true ∧ isValidChars rest schemeNotFirst = true := by
  unfold checkScheme
  cases parts.scheme with
  | nil => cases parts.hasScheme <;> simp [pure, Except.pure, makeInvalid, throw, throwThe, MonadExceptOf.throw]
  | cons ch rest =>
      dsimp only
      by_cases h : isOwned schemeFirst ch = true ∧ isValidChars rest schemeNotFirst = true
      · simp [h, pure, Except.pure]
      · rw [if_pos (not_and_or.mp h)]
        refine iff_of_false (by simp [makeInvalid, throw, throwThe, MonadExceptOf.throw]) ?_
        rintro ⟨-, hall⟩
        exact h (hall ch rest rfl)

theorem checkHost_iff : checkHost url parts = .ok () ↔ parts.host.length ≤ maxHostnameSize ∧
    isValidChars parts.host hostChars = true ∧
    (∀ label ∈ tokens (ascii '.') [] (labelText parts.host), LabelValid label) ∧
    (parts.host = [] → parts.userinfo = [] ∧ parts.port = []) := by
  unfold checkHost
  by_cases hne : parts.host = []
  · rw [if_neg (not_not.mpr hne), hne]
    by_cases h : parts.userinfo ≠ [] ∨ parts.port ≠ []
    · rw [if_pos h]
      refine iff_of_false (by simp [makeInvalid, throw, throwThe, MonadExceptOf.throw]) ?_
      rintro ⟨-, -, -, hno⟩
      obtain ⟨h₁, h₂⟩ := hno rfl
      simp [h₁, h₂] at h
    · rw [if_neg h]
      simp only [not_or, not_not] at h
      simp [pure, Except.pure, isValidChars, labelText, tokens, h, maxHostnameSize]
  · rw [if_pos hne]
    by_cases h : parts.host.length > maxHostnameSize ∨ ¬ isValidChars parts.host hostChars = true
    · rw [if_pos (by simpa using h)]
      refine iff_of_false (by simp [makeInvalid, throw, throwThe, MonadExceptOf.throw]) ?_
      rintro ⟨h₁, h₂, -⟩
      rcases h with h | h
      · omega
      · exact h h₂
    · rw [if_neg (by simpa using h), checkLabels_iff]
      simp only [not_or, not_not, not_lt] at h
      simp [h.1, h.2, hne, labelText]

theorem urlPartsChecker_iff : urlPartsChecker url parts = .ok () ↔ parts.Valid := by
  have hport : checkPort url parts = .ok () ↔ isValidChars parts.port portChars = true := by
    unfold checkPort
    by_cases hne : parts.port = []
    · simp [hne, pure, Except.pure, isValidChars]
    · by_cases hv : isValidChars parts.port portChars = true <;>
        simp [hne, hv, pure, Except.pure, makeInvalid, throw, throwThe, MonadExceptOf.throw]
  have hpath : checkPath url parts = .ok () ↔ Encoded pathChars parts.path ∧
      (parts.path ≠ [] → pathStart parts = false) := by
    rw [checkPath, ← isValidEncoded_iff (by decide)]
    by_cases hne : parts.path = []
    · simp [hne, pure, Except.pure, isValidEncoded, findInvalid]
    · by_cases hv : isValidEncoded parts.path pathChars = true <;> cases hs : pathStart parts <;>
        simp [hne, hv, pure, Except.pure, makeInvalid, throw, throwThe, MonadExceptOf.throw]
  unfold urlPartsChecker
  rw [bind_ok_iff, bind_ok_iff, bind_ok_iff, bind_ok_iff, bind_ok_iff, bind_ok_iff, checkScheme_iff,
    checkEncoded_iff (by decide),
    checkHost_iff, hport, hpath, checkEncoded_iff (by decide), checkEncoded_iff (by decide)]
  constructor
  · rintro ⟨⟨h₁, h₂⟩, h₃, ⟨h₄, h₅, h₆, h₇⟩, h₈, ⟨h₉, h₁₀⟩, h₁₁, h₁₂⟩
    exact ⟨h₁, h₂, h₃, h₄, h₅, h₆, h₇, h₈, h₉, h₁₀, h₁₁, h₁₂⟩
  · rintro ⟨h₁, h₂, h₃, h₄, h₅, h₆, h₇, h₈, h₉, h₁₀, h₁₁, h₁₂⟩
    exact ⟨⟨h₁, h₂⟩, h₃, ⟨h₄, h₅, h₆, h₇⟩, h₈, ⟨h₉, h₁₀⟩, h₁₁, h₁₂⟩

/-! ## ホストのラベル -/

theorem tokens_append {separator : UInt8} {run : Bytes} (h : ∀ b ∈ run, (b == separator) = false) (token rest : Bytes) :
    tokens separator token (run ++ rest) = tokens separator (token ++ run) rest := by
  induction run generalizing token with
  | nil => simp
  | cons ch run ih =>
      rw [List.forall_mem_cons, beq_eq_false_iff_ne] at h
      rw [List.cons_append, tokens, if_neg h.1, ih h.2, List.append_assoc]
      rfl

theorem tokens_eq_reported (separator : UInt8) (str : Bytes) : tokens separator [] str = reported (· == separator) str := by
  induction hn : str.length using Nat.strong_induction_on generalizing str with
  | h n ih =>
      by_cases hne : str = []
      · subst hne
        rfl
      · rcases separator_cases (· == separator) str with h | ⟨token, sep, rest, rfl, h, hsep⟩
        · have happend := tokens_append h [] []
          rw [List.append_nil, List.nil_append] at happend
          rw [happend, reported_last hne h, tokens, if_neg hne]
        · rw [tokens_append h, List.nil_append, tokens, if_pos (beq_iff_eq.mp hsep),
            reported_next h hsep, ih rest.length (by simp [← hn]; omega) rest rfl]

def IsAlphaNum (b : UInt8) : Prop := (0x30 ≤ b.toNat ∧ b.toNat ≤ 0x39) ∨
    (0x41 ≤ b.toNat ∧ b.toNat ≤ 0x5A) ∨ (0x61 ≤ b.toNat ∧ b.toNat ≤ 0x7A)

instance : DecidablePred IsAlphaNum := fun _ => inferInstanceAs (Decidable (_ ∨ _))

def LabelChar (b : UInt8) : Prop := IsAlphaNum b ∨ b = ascii '-' ∨ b = ascii '_'

instance : DecidablePred LabelChar := fun _ => inferInstanceAs (Decidable (_ ∨ _))

/-- 一文字から 63 文字の、`-` で始まらず終わらないラベル。 -/
structure LabelRight (label : Bytes) : Prop where
  size : 1 ≤ label.length ∧ label.length ≤ 63
  chars : ∀ b ∈ label, LabelChar b
  first : label.head? ≠ some (ascii '-')
  last : label.getLast? ≠ some (ascii '-')

theorem mem_charRange {last till b : UInt8} (h : last.toNat ≤ till.toNat) :
    b ∈ charRange last till ↔ last.toNat ≤ b.toNat ∧ b.toNat ≤ till.toNat := by
  have hsub : (till - last).toNat = till.toNat - last.toNat := UInt8.toNat_sub_of_le _ _ (UInt8.le_iff_toNat_le.mpr h)
  have hb := b.toNat_lt
  have ht := till.toNat_lt
  rw [charRange, hsub, List.mem_map]
  constructor
  · rintro ⟨i, hi, rfl⟩
    rw [List.mem_range] at hi
    rw [UInt8.toNat_add, UInt8.toNat_ofNat', Nat.mod_eq_of_lt (by omega), Nat.mod_eq_of_lt (by omega)]
    omega
  · rintro ⟨hle, hge⟩
    refine ⟨b.toNat - last.toNat, List.mem_range.mpr (by omega), UInt8.toNat_inj.mp ?_⟩
    rw [UInt8.toNat_add, UInt8.toNat_ofNat', Nat.mod_eq_of_lt (by omega), Nat.mod_eq_of_lt (by omega)]
    omega

theorem alphaNum_iff (b : UInt8) : isOwned alphaNum b = true ↔ IsAlphaNum b := by
  have heq : alphaNum = (65 :: charRange 65 90 ++ 97 :: charRange 97 122) ++ 48 :: charRange 48 57 := by decide
  have hupper := @mem_charRange 65 90 b (by decide)
  have hlower := @mem_charRange 97 122 b (by decide)
  have hdigit := @mem_charRange 48 57 b (by decide)
  rw [isOwned, List.contains_iff_mem, heq, IsAlphaNum]
  simp only [List.cons_append, List.mem_cons, List.mem_append, hupper, hlower, hdigit, ← UInt8.toNat_inj]
  simp
  omega

theorem labelMiddle_iff (b : UInt8) : isOwned labelMiddle b = true ↔ LabelChar b := by
  have hcategory : charCategory ['-', '_'] = [ascii '-', ascii '_'] := by decide
  rw [LabelChar, ← alphaNum_iff]
  simp [labelMiddle, isOwned, hcategory]

theorem labelFirstLast_iff (b : UInt8) : isOwned labelFirstLast b = true ↔ LabelChar b ∧ b ≠ ascii '-' := by
  have hcategory : charCategory ['_'] = [ascii '_'] := by decide
  have hdash : ¬ IsAlphaNum (ascii '-') := by decide
  have hunder : ascii '_' ≠ ascii '-' := by decide
  have hmem : isOwned labelFirstLast b = true ↔ IsAlphaNum b ∨ b = ascii '_' := by
    rw [← alphaNum_iff]
    simp [labelFirstLast, isOwned, hcategory]
  rw [hmem, LabelChar]
  constructor
  · rintro (h | rfl)
    · exact ⟨Or.inl h, fun hb => hdash (hb ▸ h)⟩
    · exact ⟨Or.inr (Or.inr rfl), hunder⟩
  · tauto

theorem hostChars_of_labelChar (b : UInt8) (h : LabelChar b) : isOwned hostChars b = true := by
  have hcategory : charCategory ['-', '.', '_', '~'] = [ascii '-', ascii '.', ascii '_', ascii '~'] := by decide
  rw [LabelChar, ← alphaNum_iff] at h
  simp only [hostChars, unreserved, isOwned, hcategory, List.contains_iff_mem, List.mem_append, List.mem_cons] at h ⊢
  tauto

theorem labelValid_iff (label : Bytes) : LabelValid label ↔ LabelRight label := by
  rcases label with _ | ⟨a, rest⟩
  · exact iff_of_false (fun h => absurd h.pos (by decide)) fun h => absurd h.size.1 (by decide)
  · rcases List.eq_nil_or_concat' rest with rfl | ⟨mid, z, rfl⟩
    · constructor
      · intro h
        obtain ⟨hchar, hne⟩ := (labelFirstLast_iff a).mp h.first
        exact ⟨⟨h.pos, h.le⟩, by simpa using hchar, by simpa using hne, by simpa using hne⟩
      · intro h
        have hchar := (labelFirstLast_iff a).mpr ⟨h.chars a List.mem_cons_self, by simpa using h.first⟩
        exact ⟨h.size.1, h.size.2, hchar, fun hlt => absurd hlt (lt_irrefl _), fun hlt => absurd hlt
          (Nat.not_lt_of_le one_le_two)⟩
    · have hlast : (a :: (mid ++ [z])).getD ((a :: (mid ++ [z])).length - 1) 0 = z := by simp
      have hmid : (((a :: (mid ++ [z])).drop 1).take ((a :: (mid ++ [z])).length - 2)) = mid := by simp
      constructor
      · intro h
        obtain ⟨ha, hane⟩ := (labelFirstLast_iff a).mp h.first
        obtain ⟨hz, hzne⟩ := (labelFirstLast_iff z).mp (hlast ▸ h.last (by simp))
        refine ⟨⟨h.pos, h.le⟩, ?_, by simpa using hane, by simpa [List.getLast?_cons] using hzne⟩
        intro b hb
        simp only [List.mem_cons, List.mem_append, List.not_mem_nil, or_false] at hb
        rcases hb with rfl | hb | rfl
        · exact ha
        · have hpos := List.length_pos_of_mem hb
          have hall := h.middle (by simp; omega)
          rw [hmid] at hall
          exact (labelMiddle_iff b).mp (List.all_eq_true.mp hall b hb)
        · exact hz
      · intro h
        refine ⟨h.size.1, h.size.2, ?_, fun _ => ?_, fun _ => ?_⟩
        · exact (labelFirstLast_iff a).mpr ⟨h.chars a List.mem_cons_self, by simpa using h.first⟩
        · rw [hlast]
          exact (labelFirstLast_iff z).mpr ⟨h.chars z (by simp), by simpa [List.getLast?_cons] using h.last⟩
        · rw [hmid]
          exact List.all_eq_true.mpr fun b hb => (labelMiddle_iff b).mpr (h.chars b (by simp [hb]))

/-- 255 文字以内で、終わりの `.` を一つ除くと、ラベルの空でない並びであるホスト。 -/
structure HostRight (host : Bytes) : Prop where
  size : host.length ≤ 255
  nonempty : fields (· == ascii '.') (labelText host) ≠ []
  labels : ∀ label ∈ fields (· == ascii '.') (labelText host), LabelRight label

def EndsEmpty (host : Bytes) : Prop := host = [ascii '.'] ∨ ∃ rest, host = rest ++ [ascii '.', ascii '.']

theorem labelText_concat (rest : Bytes) : labelText (rest ++ [ascii '.']) = rest := by simp [labelText]

theorem labelText_cases (host : Bytes) : labelText host = host ∧ host.getLast? ≠ some (ascii '.') ∨
    host = labelText host ++ [ascii '.'] := by
  by_cases h : host.getLast? = some (ascii '.')
  · obtain ⟨rest, rfl⟩ := List.getLast?_eq_some_iff.mp h
    rw [labelText_concat]
    exact Or.inr rfl
  · exact Or.inl ⟨if_neg h, h⟩

theorem tokens_labelText {host : Bytes} (h : ¬ EndsEmpty host) : tokens (ascii '.') []
    (labelText host) = fields (· == ascii '.') (labelText host) := by
  rw [tokens_eq_reported, reported_eq_fields_iff]
  have hlast : (labelText host).getLast? ≠ some (ascii '.') := by
    rcases labelText_cases host with ⟨heq, hlast⟩ | heq
    · rwa [heq]
    · intro hlast
      obtain ⟨rest, hrest⟩ := List.getLast?_eq_some_iff.mp hlast
      exact h (Or.inr ⟨rest, by rw [heq, hrest, List.append_assoc]; rfl⟩)
  cases hget : (labelText host).getLast? with
  | none => rfl
  | some b => exact beq_eq_false_iff_ne.mpr fun hb => hlast (by rw [hget, hb])

theorem HostRight.hostChars {host : Bytes} (h : HostRight host) : isValidChars host hostChars = true := by
  have htext : ∀ b ∈ labelText host, isOwned HTTP.hostChars b = true := by
    intro b hb
    rcases mem_splitOnP (· == ascii '.') hb with hdot | ⟨label, hlabel, hmem⟩
    · rw [beq_iff_eq.mp hdot]
      decide
    · refine hostChars_of_labelChar b ((h.labels label ?_).chars b hmem)
      rwa [fields, if_neg (List.ne_nil_of_mem hb)]
  refine List.all_eq_true.mpr fun b hb => ?_
  rcases labelText_cases host with ⟨heq, -⟩ | heq
  · exact htext b (heq.symm ▸ hb)
  · rw [heq, List.mem_append, List.mem_singleton] at hb
    rcases hb with hb | rfl
    · exact htext b hb
    · decide

/-! ## 検査を通る文字 -/

theorem isValidChars_iff {str : Bytes} : isValidChars str category = true ↔ ∀ b ∈ str, isOwned category b = true := by
  rw [isValidChars, List.all_eq_true]

theorem UrlParts.Valid.scheme_mem (h : parts.Valid) : ∀ b ∈ parts.scheme, delims.inScheme b = true := by
  have hfirst : ∀ b : UInt8, isOwned schemeFirst b = true → delims.inScheme b = true := forall_isOwned (by decide)
  have hrest : ∀ b : UInt8, isOwned schemeNotFirst b = true → delims.inScheme b = true := forall_isOwned (by decide)
  intro b hb
  cases he : parts.scheme with
  | nil =>
      rw [he] at hb
      cases hb
  | cons ch rest =>
      obtain ⟨h₁, h₂⟩ := h.schemeChars ch rest he
      rw [he] at hb
      rcases List.mem_cons.mp hb with rfl | hb
      · exact hfirst _ h₁
      · exact hrest b (isValidChars_iff.mp h₂ b hb)

theorem UrlParts.Valid.userinfo_mem (h : parts.Valid) : ∀ b ∈ parts.userinfo, delims.inAuthority b = true ∧ b ≠ ascii '@' :=
  h.userinfo.forall_mem (forall_mem_bytes (by decide))

theorem UrlParts.Valid.host_mem (h : parts.Valid) : ∀ b ∈ parts.host, delims.inAuthority b = true ∧
    b ≠ ascii '@' ∧ b ≠ ascii ':' := by
  have hchar : ∀ b : UInt8, isOwned hostChars b = true → delims.inAuthority b = true ∧ b ≠ ascii '@' ∧ b ≠ ascii ':' :=
    forall_isOwned (by decide)
  exact fun b hb => hchar b (isValidChars_iff.mp h.host b hb)

theorem UrlParts.Valid.port_mem (h : parts.Valid) : ∀ b ∈ parts.port, delims.inAuthority b = true ∧
    b ≠ ascii '@' ∧ b ≠ ascii ':' := by
  have hchar : ∀ b : UInt8, isOwned portChars b = true → delims.inAuthority b = true ∧ b ≠ ascii '@' ∧ b ≠ ascii ':' :=
    forall_isOwned (by decide)
  exact fun b hb => hchar b (isValidChars_iff.mp h.port b hb)

theorem UrlParts.Valid.path_mem (h : parts.Valid) : ∀ b ∈ parts.path, delims.inPath b = true :=
  h.path.forall_mem (forall_mem_bytes (by decide +kernel))

theorem UrlParts.Valid.query_mem (h : parts.Valid) : ∀ b ∈ parts.query, delims.inQuery b = true :=
  h.query.forall_mem (forall_mem_bytes (by decide +kernel))

theorem UrlParts.Valid.rooted (h : parts.Valid) (hhost : parts.host ≠ []) : StartsWith (· = delims.slash) parts.path := by
  intro a rest he
  have hs := h.start (by rw [he]; simp)
  rw [pathStart, if_pos hhost, he] at hs
  show a = ascii '/'
  simpa using hs

theorem UrlParts.Valid.single (h : parts.Valid) (hhost : parts.host = []) (rest : Bytes) :
    parts.path ≠ delims.slash :: delims.slash :: rest := by
  intro he
  have hs := h.start (by rw [he]; simp)
  rw [pathStart, if_neg (not_not.mpr hhost), he] at hs
  exact of_decide_eq_false hs rfl

end UnixCommons.HTTP
