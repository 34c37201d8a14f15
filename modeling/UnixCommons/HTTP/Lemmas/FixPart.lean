import UnixCommons.HTTP.Lemmas.HttpAddress
import UnixCommons.String.Lemmas.StringManip

/-!
# 成分を直すことの補題

直した成分は、初めの正しい部分、符号、`QUERY` について正しい部分が並んだものである。
-/

namespace UnixCommons.HTTP

open Lib Lib.Uri String.AsciiStringManip

variable {category checker : Bytes} {ch a b : UInt8} {pre rest tail : Bytes}

/-! ## 符号化した文字列を繋ぐ -/

theorem encoded_cons_iff (hch : ch ≠ ascii '%') : Encoded category (ch :: rest) ↔
    isOwned category ch = true ∧ Encoded category rest := by
  constructor
  · intro h
    cases h with
    | plain hown hrest => exact ⟨hown, hrest⟩
    | escape => exact absurd rfl hch
  · exact fun h => .plain h.1 h.2

theorem encoded_escape_iff (hp : isOwned category (ascii '%') = false)
    (ha : isOwned hexNumber a = true) (hb : isOwned hexNumber b = true) :
    Encoded category (ascii '%' :: a :: b :: rest) ↔ Encoded category rest := by
  constructor
  · intro h
    cases h with
    | plain hown _ =>
        rw [hp] at hown
        cases hown
    | escape _ _ hrest => exact hrest
  · exact .escape ha hb

theorem ne_percent (hp : isOwned category (ascii '%') = false) (h : isOwned category ch = true) : ch ≠ ascii '%' := by
  rintro rfl
  rw [hp] at h
  cases h

theorem Encoded.append_iff (h : Encoded category pre) (hp : isOwned category (ascii '%') = false)
    (hc : isOwned checker (ascii '%') = false) :
    Encoded checker (pre ++ rest) ↔ Encoded checker pre ∧ Encoded checker rest := by
  induction h with
  | nil => exact ⟨fun h => ⟨.nil, h⟩, And.right⟩
  | plain hch _ ih =>
      have hne := ne_percent hp hch
      rw [List.cons_append, encoded_cons_iff hne, encoded_cons_iff hne, ih, and_assoc]
  | escape ha hb _ ih => rw [List.cons_append, List.cons_append, List.cons_append,
      encoded_escape_iff hc ha hb, encoded_escape_iff hc ha hb, ih]

theorem Encoded.restrict_iff (h : Encoded category pre) (hp : isOwned category (ascii '%') = false)
    (hc : isOwned checker (ascii '%') = false)
    (hhex : ∀ b, isOwned hexNumber b = true → isOwned checker b = true) :
    Encoded checker pre ↔ ∀ b ∈ pre, isOwned category b = true → isOwned checker b = true := by
  induction h with
  | nil => exact iff_of_true .nil fun b hb => absurd hb (List.not_mem_nil)
  | plain hch _ ih => rw [encoded_cons_iff (ne_percent hp hch), List.forall_mem_cons, ih, imp_iff_right hch]
  | escape ha hb _ ih =>
      rw [encoded_escape_iff hc ha hb, List.forall_mem_cons, List.forall_mem_cons, List.forall_mem_cons, ih]
      exact ⟨fun h => ⟨fun hown => absurd rfl (ne_percent hp hown), fun _ => hhex _ ha, fun _ =>
        hhex _ hb, h⟩, fun h => h.2.2.2⟩

/-! ## 全ての符号を読む -/

theorem unmimeAll_escape (ha : isOwned hexNumber a = true) (hb : isOwned hexNumber b = true)
    (rest : Bytes) : unmimeAll (ascii '%' :: a :: b :: rest) = hexToChar a b :: unmimeAll rest := by
  rw [unmimeAll, if_pos ⟨rfl, ha, hb⟩]

theorem unmimeAll_literal (h : ch = ascii '%' → ∀ a b tail, rest = a :: b :: tail →
    ¬ (isOwned hexNumber a = true ∧ isOwned hexNumber b = true)) :
    unmimeAll (ch :: rest) = ch :: unmimeAll rest := by
  rw [unmimeAll.eq_def]
  dsimp only
  split
  next a b tail => rw [if_neg fun hesc => h hesc.1 a b tail rfl hesc.2]
  next => rfl

theorem unmimeAll_escapeChar (ch : UInt8) (rest : Bytes) : unmimeAll (escapeChar ch ++ rest) = ch :: unmimeAll rest := by
  obtain ⟨hchar, hhigh, hlow⟩ := String.MimeUrl.hexToChar_digits ch
  have hescape := unmimeAll_escape hhigh hlow rest
  rw [hchar] at hescape
  exact hescape

theorem Encoded.unmimeAll_append (h : Encoded category pre) (hp : isOwned category (ascii '%') = false) (rest : Bytes) :
    unmimeAll (pre ++ rest) = unmimeAll pre ++ unmimeAll rest := by
  induction h with
  | nil => rfl
  | plain hch _ ih =>
      have hne : ∀ {text : Bytes}, _ := fun {text} => @unmimeAll_literal _ text fun h => absurd h (ne_percent hp hch)
      rw [List.cons_append, hne, hne, ih, List.cons_append]
  | escape ha hb _ ih =>
      rw [List.cons_append, List.cons_append, List.cons_append, unmimeAll_escape ha hb,
        unmimeAll_escape ha hb, ih, List.cons_append]

/-! ## 直すループ -/

theorem encoded_escapeChar (ch : UInt8) (h : Encoded category rest) : Encoded category (escapeChar ch ++ rest) := by
  obtain ⟨-, hhigh, hlow⟩ := String.MimeUrl.hexToChar_digits ch
  exact .escape hhigh hlow h

theorem encoded_escapeChar_iff (ch : UInt8) (hc : isOwned category (ascii '%') = false) :
    Encoded category (escapeChar ch ++ rest) ↔ Encoded category rest := by
  obtain ⟨-, hhigh, hlow⟩ := String.MimeUrl.hexToChar_digits ch
  exact encoded_escape_iff hc hhigh hlow

theorem between_append (pre rest : Bytes) : between (pre ++ rest) rest = pre := by
  rw [between, List.length_append, Nat.add_sub_cancel, List.take_left]

theorem queryChars_percent : isOwned queryChars (ascii '%') = false := by decide

structure Checker (checker : Bytes) : Prop where
  percent : isOwned checker (ascii '%') = false
  hex : ∀ b, isOwned hexNumber b = true → isOwned checker b = true

/-- `checker` について正しくない文字 `ch` の後に `old` が続く所から直したもの。 -/
structure Fixes (ch : UInt8) (old out : Bytes) : Prop where
  encoded : Encoded queryChars out
  unmime : unmimeAll out = ch :: unmimeAll old
  restrict : ∀ checker, Checker checker →
    (Encoded checker out ↔ ∀ b ∈ old, isOwned queryChars b = true → isOwned checker b = true)

theorem fixLoop_spec {fuel : Nat} {old : Bytes} (hfuel : old.length < fuel) (newPart : Bytes) :
    ∃ out, fixLoop fuel (ch :: old) newPart = newPart ++ out ∧ Fixes ch old out := by
  induction fuel generalizing ch old newPart with
  | zero => exact absurd hfuel (Nat.not_lt_zero _)
  | succ fuel ih =>
      obtain ⟨seg, heq, hseg, hbad⟩ := findInvalid_spec queryChars old
      rw [fixLoop]
      generalize findInvalid queryChars old = str at heq hbad ⊢
      subst heq
      rw [between_append]
      cases str with
      | nil =>
          refine ⟨escapeChar ch ++ seg, ?_, encoded_escapeChar ch hseg, ?_, ?_⟩
          · cases fuel <;> rw [fixLoop, List.append_assoc]
          · rw [unmimeAll_escapeChar, List.append_nil]
          · intro checker hc
            rw [encoded_escapeChar_iff ch hc.percent, List.append_nil]
            exact hseg.restrict_iff queryChars_percent hc.percent hc.hex
      | cons ch' old' =>
          have hstart := hbad ch' old' rfl
          obtain ⟨out, hout, hfixes⟩ :=
            @ih ch' old' (by simp only [List.length_append, List.length_cons] at hfuel; omega)
              (newPart ++ escapeChar ch ++ seg)
          refine ⟨escapeChar ch ++ (seg ++ out), ?_, ?_, ?_, ?_⟩
          · rw [hout, List.append_assoc, List.append_assoc]
          · exact encoded_escapeChar ch ((hseg.append_iff queryChars_percent queryChars_percent).mpr ⟨hseg, hfixes.encoded⟩)
          · rw [unmimeAll_escapeChar, hseg.unmimeAll_append queryChars_percent,
              hseg.unmimeAll_append queryChars_percent, hfixes.unmime,
              unmimeAll_literal hstart.alone]
          · intro checker hc
            rw [encoded_escapeChar_iff ch hc.percent, hseg.append_iff queryChars_percent hc.percent,
              hseg.restrict_iff queryChars_percent hc.percent hc.hex, hfixes.restrict checker hc,
              List.forall_mem_append, List.forall_mem_cons]
            refine and_congr_right fun _ => ⟨fun h => ⟨fun hown => ?_, h⟩, And.right⟩
            rw [hstart.foreign] at hown
            cases hown

/-! ## 直した成分 -/

/-- 直した成分は検査を通り、全ての符号を読んだ文字列は変わらない。 -/
structure FixSound (part checker : Bytes) : Prop where
  valid : isValidEncoded ((httpFixPart part checker).getD part) checker = true
  unmime : unmimeAll ((httpFixPart part checker).getD part) = unmimeAll part

/-- 最初の正しくない文字の後では、`QUERY` に属する文字は `checker` にも属する。 -/
def KeepsChecker (part checker : Bytes) : Prop := ∀ b ∈ (findInvalid checker part).tail,
    isOwned queryChars b = true → isOwned checker b = true

theorem httpFixPart_spec (part : Bytes) (hc : Checker checker) :
    unmimeAll ((httpFixPart part checker).getD part) = unmimeAll part ∧
      (isValidEncoded ((httpFixPart part checker).getD part) checker = true ↔ KeepsChecker part checker) := by
  obtain ⟨pre, heq, hpre, hbad⟩ := findInvalid_spec checker part
  rw [isValidEncoded_iff hc.percent, httpFixPart, KeepsChecker]
  cases hstr : findInvalid checker part with
  | nil =>
      rw [hstr, List.append_nil] at heq
      rw [if_pos rfl, Option.getD_none]
      exact ⟨rfl, iff_of_true (heq ▸ hpre) fun b hb => absurd hb List.not_mem_nil⟩
  | cons ch old =>
      rw [hstr] at heq hbad
      have hbetween : between part (ch :: old) = pre := by
        rw [heq]
        exact between_append pre (ch :: old)
      have hlen : old.length < part.length := by
        rw [heq, List.length_append, List.length_cons]
        omega
      obtain ⟨out, hout, hfixes⟩ := @fixLoop_spec ch part.length old hlen pre
      rw [if_neg (List.cons_ne_nil _ _), Option.getD_some, hbetween, hout, List.tail_cons]
      constructor
      · rw [hpre.unmimeAll_append hc.percent, hfixes.unmime, heq, hpre.unmimeAll_append hc.percent,
          unmimeAll_literal (hbad ch old rfl).alone]
      · rw [hpre.append_iff hc.percent hc.percent, hfixes.restrict checker hc]
        exact and_iff_right hpre

theorem fixSound_iff (part : Bytes) (hc : Checker checker) : FixSound part checker ↔ KeepsChecker part checker := by
  obtain ⟨hunmime, hvalid⟩ := httpFixPart_spec part hc
  exact ⟨fun h => hvalid.mp h.valid, fun h => ⟨hvalid.mpr h, hunmime⟩⟩

/-! ## 分けた成分の文字 -/

theorem mem_of_findInvalid_tail {part : Bytes} {b : UInt8} (h : b ∈ (findInvalid category part).tail) : b ∈ part := by
  obtain ⟨pre, heq, -, -⟩ := findInvalid_spec category part
  rw [heq]
  exact List.mem_append_right pre (List.mem_of_mem_tail h)

theorem urlComponents_path (url : Bytes) : ∀ b ∈ (urlComponents url).path, delims.inPath b = true := by
  cases url with
  | nil => exact fun b hb => List.mem_takeWhile_imp hb
  | cons ch rest =>
      rw [urlComponents]
      split
      · exact fun b hb => List.mem_takeWhile_imp hb
      · exact fun b hb => List.mem_takeWhile_imp hb

theorem splitResult_path (url : Bytes) : ∀ b ∈ (splitResult url).path, delims.inPath b = true := by
  obtain ⟨_, _, _, _, heq, -⟩ := splitResult_eq url
  rw [heq]
  exact urlComponents_path url

theorem splitResult_userinfo (url : Bytes) : ∀ b ∈ (splitResult url).userinfo,
    delims.inAuthority b = true ∧ b ≠ ascii '@' := by
  obtain ⟨hasPath, userinfo, host, port, heq, rest, hsplit, -⟩ := splitResult_eq url
  rw [heq]
  show ∀ b ∈ userinfo, _
  intro b hb
  rcases hsplit with ⟨hauth, hat⟩ | ⟨-, rfl, -⟩
  · have hmem : b ∈ (urlComponents url).authority.getD [] := hauth ▸ List.mem_append_left _ hb
    cases hcase : (urlComponents url).authority with
    | none => rw [hcase] at hmem; cases hmem
    | some authority =>
        rw [hcase, Option.getD_some] at hmem
        exact ⟨urlComponents_authority url authority hcase b hmem, fun h => hat (h ▸ hb)⟩
  · cases hb

/-! ## 四つの成分 -/

theorem checker_userInfo : Checker userInfo := ⟨by decide, forall_isOwned (by decide)⟩

theorem checker_path : Checker pathChars := ⟨by decide, forall_isOwned (by decide)⟩

theorem checker_query : Checker queryChars := ⟨by decide, forall_isOwned (by decide)⟩

theorem checker_fragment : Checker fragmentChars := ⟨by decide, forall_isOwned (by decide)⟩

/-- `USER_INFO` に属さず、`QUERY` に属する、`/`、`?`、`@` のほかの文字。 -/
def braces : Bytes := List.map ascii ['{', '}', '|', '^', '[', ']', '`']

theorem keepsChecker_path (url : Bytes) : KeepsChecker (splitResult url).path pathChars := by
  have hquery : ∀ b, isOwned queryChars b = true → isOwned pathChars b = true ∨ delims.inPath b =
      false := forall_isOwned (by decide)
  intro b hb hown
  refine (hquery b hown).resolve_right fun hout => ?_
  rw [splitResult_path url b (mem_of_findInvalid_tail hb)] at hout
  cases hout

theorem keepsChecker_userinfo_iff (url : Bytes) :
    KeepsChecker (splitResult url).userinfo userInfo ↔
      ∀ b ∈ (findInvalid userInfo (splitResult url).userinfo).tail, b ∉ braces := by
  have hquery : ∀ b, isOwned queryChars b = true → isOwned userInfo b = true ∨ b ∈ braces ∨
      delims.inAuthority b = false ∨ b = ascii '@' :=
    forall_isOwned (by decide)
  have hbrace : ∀ b ∈ braces, isOwned queryChars b = true ∧ isOwned userInfo b = false := forall_mem_bytes (by decide)
  constructor
  · intro h b hb hmem
    obtain ⟨hown, hforeign⟩ := hbrace b hmem
    rw [h b hb hown] at hforeign
    cases hforeign
  · intro h b hb hown
    obtain ⟨hauth, hat⟩ := splitResult_userinfo url b (mem_of_findInvalid_tail hb)
    rcases hquery b hown with hin | hmem | hout | rfl
    · exact hin
    · exact absurd hmem (h b hb)
    · rw [hauth] at hout
      cases hout
    · exact absurd rfl hat

end UnixCommons.HTTP
