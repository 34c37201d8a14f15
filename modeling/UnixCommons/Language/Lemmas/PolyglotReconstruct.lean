import Mathlib.Tactic
import UnixCommons.Language.Lemmas.PolyglotTokenizer

/-!
# 切れ端を選ぶことの補題

選ばれた切れ端の列は、文の分け方であり、その重さは始めの点の重さである。
-/

namespace UnixCommons.Language.Polyglot

open Lib

/-! ## 最も重い候補 -/

theorem foldl_first_max {α : Type} (f : α → Int) (xs : List α) (m : α) :
    xs.foldl (fun m x => if f m < f x then x else m) m ∈ m :: xs ∧
      ∀ x ∈ m :: xs, f x ≤ f (xs.foldl (fun m x => if f m < f x then x else m) m) := by
  induction xs generalizing m with
  | nil => simp
  | cons x xs ih =>
      obtain ⟨hmem, hmax⟩ := ih (if f m < f x then x else m)
      rw [List.forall_mem_cons] at hmax
      obtain ⟨hhead, htail⟩ := hmax
      simp only [List.foldl_cons, List.mem_cons, forall_eq_or_imp] at hmem ⊢
      split at hmem <;> rename_i hlt
      · rw [if_pos hlt] at hhead htail ⊢
        exact ⟨.inr hmem, by omega, hhead, htail⟩
      · rw [if_neg hlt] at hhead htail ⊢
        refine ⟨?_, hhead, by omega, htail⟩
        rcases hmem with hmem | hmem
        · exact .inl hmem
        · exact .inr (.inr hmem)

theorem maxVariant_spec (vs : List Variant) : (maxVariant vs = none ∧ vs = []) ∨
    ∃ v, maxVariant vs = some v ∧ v ∈ vs ∧ ∀ y ∈ vs, y.weight ≤ v.weight := by
  cases vs with
  | nil => exact .inl ⟨rfl, rfl⟩
  | cons v vs => exact .inr ⟨_, rfl, foldl_first_max Variant.weight vs v⟩

theorem maxSuffix_spec (svs : List SuffixVariant) : (maxSuffix svs = none ∧ svs = []) ∨
    ∃ sv, maxSuffix svs = some sv ∧ sv ∈ svs ∧ ∀ y ∈ svs, y.weight ≤ sv.weight := by
  cases svs with
  | nil => exact .inl ⟨rfl, rfl⟩
  | cons sv svs => exact .inr ⟨_, rfl, foldl_first_max SuffixVariant.weight svs sv⟩

theorem foldl_heavier (svs : List SuffixVariant) (m : Int × Option SuffixVariant) {r : Int × Option SuffixVariant}
    (hr : svs.foldl (fun m sv => if m.1 < sv.weight then (sv.weight, some sv) else m) m = r) :
    m.1 ≤ r.1 ∧ (∀ y ∈ svs, y.weight ≤ r.1) ∧ (r = m ∨ ∃ sv ∈ svs, r = (sv.weight, some sv)) := by
  induction svs generalizing m with
  | nil => simp [← hr]
  | cons sv svs ih =>
      rw [List.foldl_cons] at hr
      obtain ⟨hle, hmax, hcase⟩ := ih _ hr
      rw [List.forall_mem_cons, List.exists_mem_cons_iff]
      split at hle <;> rename_i hlt
      · rw [if_pos hlt] at hcase
        refine ⟨by omega, ⟨hle, hmax⟩, .inr ?_⟩
        rcases hcase with hcase | hcase
        · exact .inl hcase
        · exact .inr hcase
      · rw [if_neg hlt] at hcase
        refine ⟨hle, ⟨by omega, hmax⟩, ?_⟩
        rcases hcase with hcase | hcase
        · exact .inl hcase
        · exact .inr (.inr hcase)

theorem heavierSuffix_spec (weight : Int) (svs : List SuffixVariant) :
    (heavierSuffix weight svs = none ∧ ∀ y ∈ svs, y.weight ≤ weight) ∨
      ∃ sv, heavierSuffix weight svs = some sv ∧ sv ∈ svs ∧ weight ≤ sv.weight ∧ ∀ y ∈ svs, y.weight ≤ sv.weight := by
  obtain ⟨hle, hmax, heq | ⟨sv, hsv, heq⟩⟩ := foldl_heavier svs (weight, none) rfl
  · left
    rw [heq] at hmax
    exact ⟨congrArg Prod.snd heq, hmax⟩
  · right
    rw [heq] at hle hmax
    exact ⟨sv, congrArg Prod.snd heq, hsv, hle, hmax⟩

theorem choosePiece_cases (i : Nat) (point : BiTokenizePoint) :
    (point.variants = [] ∧ point.suffixVariants = []) ∨
      (∃ v ∈ point.variants, choosePiece i point = some (.word v.node i v.sepPos, v.sepPos) ∧
        (∀ y ∈ point.variants, y.weight ≤ v.weight) ∧ ∀ y ∈ point.suffixVariants, y.weight ≤ v.weight) ∨
      ∃ sv ∈ point.suffixVariants, choosePiece i point = some (.suffix sv.node i sv.sepPos, sv.sepPos) ∧
        (∀ y ∈ point.variants, y.weight ≤ sv.weight) ∧ ∀ y ∈ point.suffixVariants, y.weight ≤ sv.weight := by
  rcases maxVariant_spec point.variants with ⟨hnone, hempty⟩ | ⟨v, hv, hmem, hmax⟩
  · rcases maxSuffix_spec point.suffixVariants with ⟨-, hempty'⟩ | ⟨sv, hsv, hmem', hmax'⟩
    · exact .inl ⟨hempty, hempty'⟩
    · exact .inr (.inr ⟨sv, hmem', by simp [choosePiece, hnone, hsv], by simp [hempty], hmax'⟩)
  · rcases heavierSuffix_spec v.weight point.suffixVariants with ⟨hnone, hlight⟩ | ⟨sv, hsv, hmem', hheavy, hmax'⟩
    · exact .inr (.inl ⟨v, hmem, by simp [choosePiece, hv, hnone], hmax, hlight⟩)
    · exact .inr (.inr ⟨sv, hmem', by simp [choosePiece, hv, hsv], fun y hy => Int.le_trans (hmax y hy) hheavy, hmax'⟩)

/-! ## 文の分け方 -/

variable {η : Type} [DecidableEq η] {h : IncHash Nat η} {t : Tokenizer h} {text : List Nat} {i last : Nat} {vec : Points}

def Tokenizer.PieceAt (t : Tokenizer h) (text : List Nat) : Piece → Prop
  | .unknown first last => first < last ∧ last ≤ text.length
  | .word node first last => t.WordAt text first last node
  | .suffix s first last => (∃ start, t.SuffixAt text start first last s) ∧ AsianRange text first last

inductive Segmentation (t : Tokenizer h) (text : List Nat) : Nat → List Piece → Prop
  | nil : Segmentation t text text.length []
  | cons {piece : Piece} {rest : List Piece} (head : t.PieceAt text piece)
      (tail : Segmentation t text piece.last rest) : Segmentation t text piece.first (piece :: rest)

omit [DecidableEq η] in
theorem unknown_path {k : Nat} (hle : i + k ≤ text.length) : Path (t.Edge text) i (i + k) (k * (t.minEl + 1)) := by
  induction k generalizing i with
  | zero => simpa using Path.nil i
  | succ k ih =>
      have hrest := ih (i := i + 1) (by omega)
      have hpath := Path.cons (.inl ⟨by omega, rfl, rfl⟩) hrest
      have hweight : ((k + 1 : Nat) : Int) * (t.minEl + 1) = t.minEl + 1 + k * (t.minEl + 1) := by
        push_cast
        ring
      rw [hweight, Nat.add_comm k 1, ← Nat.add_assoc]
      exact hpath

omit [DecidableEq η] in
theorem Tokenizer.PieceAt.path {piece : Piece} (hpiece : t.PieceAt text piece) :
    Path (t.Edge text) piece.first piece.last (piece.weight t.minEl) := by
  cases piece with
  | unknown first last =>
      obtain ⟨hlt, hle⟩ := hpiece
      have hlast : first + (last - first) = last := by omega
      have hpath : Path (t.Edge text) first (first + (last - first))
          (((last - first : Nat) : Int) * (t.minEl + 1)) := unknown_path (by omega)
      rw [hlast] at hpath
      exact hpath
  | word node first last =>
      simpa [Piece.weight, Piece.last] using Path.cons (.inr (.inl ⟨node, hpiece, rfl⟩)) (Path.nil last)
  | suffix s first last =>
      obtain ⟨⟨start, hsuffix⟩, hasian⟩ := hpiece
      simpa [Piece.weight, Piece.last] using Path.cons (.inr (.inr ⟨start, s, hsuffix, hasian, rfl⟩)) (Path.nil last)

omit [DecidableEq η] in
theorem Segmentation.path {pieces : List Piece} (hseg : Segmentation t text i pieces) :
    Path (t.Edge text) i text.length (totalWeight t.minEl pieces) := by
  induction hseg with
  | nil => exact .nil _
  | cons head tail ih => exact head.path.append ih

omit [DecidableEq η] in
theorem choosePiece_spec (hok : PointOk t text vec i) (hunk : (vec i).unkWeight ≠ (vec i).weight) :
    ∃ piece, choosePiece i (vec i) = some (piece, piece.last) ∧ piece.first = i ∧
      t.PieceAt text piece ∧ piece.weight t.minEl + (vec piece.last).weight = (vec i).weight := by
  -- 選ばれた候補の重さは、点の重さである。
  have hweight : ∀ w ∈ (vec i).weights, (∀ y ∈ (vec i).variants, y.weight ≤ w) →
      (∀ y ∈ (vec i).suffixVariants, y.weight ≤ w) → w = (vec i).weight := by
    intro w hw hvariant hsuffix
    refine Int.le_antisymm (hok.best.2 hw) ?_
    rcases hok.best.1 with heq | ⟨y, hy, heq⟩ | ⟨y, hy, heq⟩
    · exact absurd heq.symm hunk
    · exact heq ▸ hvariant y hy
    · exact heq ▸ hsuffix y hy
  rcases choosePiece_cases i (vec i) with ⟨hempty, hempty'⟩ | ⟨v, hv, hchoose, hmax, hmax'⟩ | ⟨sv, hsv, hchoose, hmax, hmax'⟩
  · have hbest := hok.best.1
    simp only [BiTokenizePoint.weights, hempty, hempty', Set.mem_ofPred_eq, List.not_mem_nil,
      false_and, exists_false, or_false] at hbest
    exact absurd hbest.symm hunk
  · obtain ⟨hat, hfreq⟩ := (hok.variants v).mp hv
    have heq := hweight v.weight (.inr (.inl ⟨v, hv, rfl⟩)) hmax hmax'
    exact ⟨.word v.node i v.sepPos, hchoose, rfl, hat, by rw [← heq, hfreq]; exact Int.add_comm _ _⟩
  · obtain ⟨hat, hasian, hfreq⟩ := (hok.suffixes sv).mp hsv
    have heq := hweight sv.weight (.inr (.inr ⟨sv, hsv, rfl⟩)) hmax hmax'
    exact ⟨.suffix sv.node i sv.sepPos, hchoose, rfl, ⟨hat, hasian⟩, by rw [← heq, hfreq]; exact Int.add_comm _ _⟩

omit [DecidableEq η] in
theorem Tokenizer.PieceAt.first_lt_last (hs : t.LongerIn text) {piece : Piece}
    (hpiece : t.PieceAt text piece) : piece.first < piece.last ∧ piece.last ≤ text.length := by
  cases piece with
  | unknown first last => exact hpiece
  | word node first last => exact ⟨hpiece.1, hpiece.2.1⟩
  | suffix s first last =>
      obtain ⟨⟨start, hsuffix⟩, -⟩ := hpiece
      exact ⟨Nat.lt_trans (hsuffix.first_lt hs) hsuffix.1, hsuffix.2.1⟩

/-! ## 選択のループ -/

/-- `unknown_seq_i` は、-1 であるか、`i` より前の位置である。 -/
def SeqBefore (unknownSeq : Int) (i : Nat) : Prop := unknownSeq = -1 ∨ ∃ u : Nat, unknownSeq = u ∧ u < i

def seqStart (unknownSeq : Int) (i : Nat) : Nat := if unknownSeq = -1 then i else unknownSeq.toNat

theorem seqStart_natCast (u i : Nat) : seqStart u i = u := by
  rw [seqStart, if_neg (by omega), Int.toNat_natCast]

theorem toInt_eq (hi : i < 2 ^ 31) : toInt i = i := by
  unfold toInt
  apply Int.bmod_eq_of_le
  · norm_num
  · norm_num
    omega

theorem SeqBefore.le {unknownSeq : Int} (hu : SeqBefore unknownSeq i) : seqStart unknownSeq i ≤ i := by
  rcases hu with rfl | ⟨u, rfl, hlt⟩
  · exact Nat.le_refl i
  · rw [seqStart_natCast]
    exact Nat.le_of_lt hlt

theorem SeqBefore.succ {unknownSeq next : Int} (hu : SeqBefore unknownSeq i) (hi : i < 2 ^ 31)
    (hnext : (if unknownSeq = -1 then toInt i else unknownSeq) = next) :
    SeqBefore next (i + 1) ∧ seqStart next (i + 1) = seqStart unknownSeq i := by
  rcases hu with rfl | ⟨u, rfl, hlt⟩
  · rw [if_pos rfl, toInt_eq hi] at hnext
    rw [← hnext, seqStart_natCast]
    exact ⟨.inr ⟨i, rfl, Nat.lt_succ_self i⟩, rfl⟩
  · rw [if_neg (by omega)] at hnext
    rw [← hnext, seqStart_natCast, seqStart_natCast]
    exact ⟨.inr ⟨u, rfl, Nat.lt_succ_of_lt hlt⟩, rfl⟩

theorem SeqBefore.flush {unknownSeq : Int} (hu : SeqBefore unknownSeq i) :
    (flushUnknown unknownSeq i = some [] ∧ seqStart unknownSeq i = i) ∨
      ∃ u, u < i ∧ flushUnknown unknownSeq i = some [.unknown u i] ∧ seqStart unknownSeq i = u := by
  rcases hu with rfl | ⟨u, rfl, hlt⟩
  · exact .inl ⟨rfl, rfl⟩
  · refine .inr ⟨u, hlt, ?_, seqStart_natCast u i⟩
    rw [flushUnknown, if_neg (by omega), if_neg (by omega), Int.toNat_natCast]

omit [DecidableEq η] in
theorem Segmentation.flush {unknownSeq : Int} {rest : List Piece} (hu : SeqBefore unknownSeq i)
    (hi : i ≤ text.length) (hrest : Segmentation t text i rest) :
    ∃ unknown, flushUnknown unknownSeq i = some unknown ∧
      Segmentation t text (seqStart unknownSeq i) (unknown ++ rest) ∧
      totalWeight t.minEl (unknown ++ rest) =
        ((i - seqStart unknownSeq i : Nat) : Int) * (t.minEl + 1) + totalWeight t.minEl rest := by
  rcases hu.flush with ⟨hflush, hstart⟩ | ⟨u, hlt, hflush, hstart⟩
  · exact ⟨[], hflush, by rwa [hstart], by simp [hstart]⟩
  · have hunknown : t.PieceAt text (.unknown u i) := ⟨hlt, hi⟩
    rw [hstart]
    exact ⟨_, hflush, .cons hunknown hrest, rfl⟩

omit [DecidableEq η] in
theorem reconstructLoop_spec (hs : t.LongerIn text) (hshort : text.length ≤ 2 ^ 31)
    (hlast : (vec text.length).weight = 0) (hvec : ∀ i, i < text.length → PointOk t text vec i)
    {fuel : Nat} {unknownSeq : Int} (hi : i ≤ text.length) (hfuel : text.length - i < fuel)
    (hu : SeqBefore unknownSeq i) :
    ∃ pieces, reconstructLoop text.length vec fuel i unknownSeq = some pieces ∧
      Segmentation t text (seqStart unknownSeq i) pieces ∧
      totalWeight t.minEl pieces = ((i - seqStart unknownSeq i : Nat) : Int) * (t.minEl + 1) + (vec i).weight := by
  induction fuel generalizing i unknownSeq with
  | zero => omega
  | succ fuel ih =>
      simp only [reconstructLoop]
      rcases Nat.eq_or_lt_of_le hi with rfl | hlt
      · obtain ⟨unknown, hflush, hseg, hweight⟩ := Segmentation.nil.flush hu hi
        rw [if_neg (Nat.lt_irrefl _), hlast]
        rw [List.append_nil] at hseg hweight
        exact ⟨unknown, hflush, hseg, hweight⟩
      · have hok := hvec i hlt
        rw [if_pos hlt]
        split
        · rename_i hunk
          generalize hnext : (if unknownSeq = -1 then toInt i else unknownSeq) = next
          obtain ⟨hbefore, hstart⟩ := hu.succ (by omega) hnext
          obtain ⟨pieces, hpieces, hseg, hweight⟩ := ih hlt (by omega) hbefore
          rw [hstart] at hseg hweight
          refine ⟨pieces, hpieces, hseg, ?_⟩
          have hle := hu.le
          have hcount : ((i + 1 - seqStart unknownSeq i : Nat) : Int) =
              ((i - seqStart unknownSeq i : Nat) : Int) + 1 := by omega
          rw [hweight, hcount, ← hunk, hok.unk]
          ring
        · rename_i hunk
          obtain ⟨piece, hchoose, hfirst, hpiece, hweight⟩ := choosePiece_spec hok hunk
          obtain ⟨hlt', hle'⟩ := hpiece.first_lt_last hs
          obtain ⟨rest, hrest, hseg, hrestWeight⟩ := ih hle' (by omega) (.inl rfl)
          have hcons := Segmentation.cons hpiece hseg
          rw [hfirst] at hcons
          obtain ⟨unknown, hunknown, hflush, htotal⟩ := hcons.flush hu hi
          refine ⟨_, by simp [hunknown, hchoose, hrest], hflush, ?_⟩
          have hsame : seqStart (-1) piece.last = piece.last := rfl
          simp only [hsame, Nat.sub_self, Nat.cast_zero, zero_mul, zero_add] at hrestWeight
          rw [htotal, ← hweight, ← hrestWeight]
          rfl

end UnixCommons.Language.Polyglot
