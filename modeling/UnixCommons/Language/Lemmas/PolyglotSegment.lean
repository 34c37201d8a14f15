import Mathlib.Tactic
import UnixCommons.Language.DictionaryLoader
import UnixCommons.Language.Lemmas.PolyglotReconstruct
import UnixCommons.String.Lemmas.Utf8Text

/-!
# 文を分けることの補題

語尾の長さが正ならば、どの候補も自分の位置より後ろで終わり、添字は `vec` の中にある。
-/

namespace UnixCommons.Language.Polyglot

open Lib

variable {η : Type} [DecidableEq η] {h : IncHash Nat η} {t : Tokenizer h} {text : List Nat}
    {length i j k n : Nat} {vec : Points}

/-! ## 語尾の辞書 -/

theorem parseSuffixDictionaryString_spec (str : Bytes) : Returns (parseSuffixDictionaryString str)
    (fun r => r.2.1 ≠ 0) fun _ => True := by
  unfold parseSuffixDictionaryString
  refine Returns.skip fun r => ?_
  split
  · trivial
  · refine Returns.skip fun suffix => Returns.skip fun r => ?_
    split
    · trivial
    · dsimp only
      split
      · trivial
      · rename_i hlen
        refine Returns.skip fun r => ?_
        split
        · trivial
        · split
          · trivial
          · refine Returns.skip fun r => ?_
            split
            · trivial
            · exact hlen

omit [DecidableEq η] in
theorem IncHashTable.mem_insert {κ α : Type} [DecidableEq κ] {h : IncHash κ η}
    {table : IncHashTable h α} {word : List κ} {a : α} {entry : List κ × α}
    (hentry : entry ∈ (table.insert word a).mainTable) : entry ∈ table.mainTable ∨ entry = (word, a) := by
  unfold IncHashTable.insert at hentry
  dsimp only at hentry
  split at hentry
  · exact .inl hentry
  · exact List.mem_append.mp hentry |>.imp_right List.mem_singleton.mp

def SuffixDictionary.Loaded (dict : SuffixDictionary h) : Prop :=
  ∀ entry ∈ dict.table.mainTable, ∀ s ∈ entry.2.suffixes, s.len ≠ 0

theorem Suffix.len_ne_zero {s : Suffix} (hlen : s.length ≠ 0) : s.len ≠ 0 := by
  have hnat : s.length.toNat ≠ 0 := fun heq => hlen (UInt64.toNat_inj.mp heq)
  have hlt := s.length.toNat_lt
  rcases Nat.lt_or_ge s.length.toNat (2 ^ 63) with hlow | hhigh
  · rw [Suffix.len_eq hlow]
    omega
  · rw [Suffix.len_eq_sub hhigh]
    omega

omit [DecidableEq η] in
theorem loadSuffixLine_loaded {dict dict' : SuffixDictionary h} {line : Bytes} (hdict : dict.Loaded)
    (hload : loadSuffixLine dict line = .ok dict') : dict'.Loaded := by
  obtain ⟨⟨suffix, len, freq⟩, hparse, hrest⟩ := bind_eq_ok.mp hload
  have hlen : len ≠ 0 := (parseSuffixDictionaryString_spec line).of_ok hparse
  intro entry hentry s hs
  dsimp only at hrest
  split at hrest
  · cases hrest
    obtain ⟨old, hold, rfl⟩ := List.mem_map.mp hentry
    split at hs
    · rcases List.mem_append.mp hs with hs | hs
      · exact hdict old hold s hs
      · cases List.mem_singleton.mp hs
        exact Suffix.len_ne_zero hlen
    · exact hdict old hold s hs
  · cases hrest
    rcases IncHashTable.mem_insert hentry with hentry | rfl
    · exact hdict entry hentry s hs
    · cases List.mem_singleton.mp hs
      exact Suffix.len_ne_zero hlen

omit [DecidableEq η] in
theorem loadSuffixes_loaded {dict dict' : SuffixDictionary h} {file : Bytes} (hdict : dict.Loaded)
    (hload : loadSuffixes file dict = .ok dict') :
    dict'.Loaded := foldlM_invariant hdict hload fun _ _ _ hs hstep => loadSuffixLine_loaded hs hstep

omit [DecidableEq η] in
theorem SuffixDictionary.Loaded.find {dict : SuffixDictionary h} (hdict : dict.Loaded)
    {word : List Nat} {node : SuffixDictionaryNode} {s : Suffix}
    (hfind : dict.table.find word = some node) (hs : s ∈ node.suffixes) : s.len ≠ 0 := by
  obtain ⟨entry, hentry, rfl⟩ := Option.map_eq_some_iff.mp hfind
  exact hdict entry (List.mem_of_find?_eq_some hentry) s hs

/-! ## 添字 -/

def Failed {ε α : Type} (x : Except ε α) : Prop := ∀ a, x ≠ .ok a

theorem pointAt_eq {p : Int} (h0 : 0 ≤ p) (hle : p ≤ length) : pointAt length vec p = .ok (vec p.toNat) := if_pos ⟨h0, hle⟩

theorem nextWordPos_returns {pos : Nat} (hpos : pos ≤ length) : Returns (nextWordPos length vec pos)
    (fun _ => True) fun _ => False := by
  induction hn : length - pos generalizing pos with
  | zero =>
      unfold nextWordPos
      rw [pointAt_eq (Int.natCast_nonneg pos) (Int.ofNat_le.mpr hpos), ok_bind, if_neg (by omega)]
      trivial
  | succ n ih =>
      unfold nextWordPos
      rw [pointAt_eq (Int.natCast_nonneg pos) (Int.ofNat_le.mpr hpos), ok_bind]
      split
      · exact ih (by omega) (by omega)
      · trivial

theorem addVariantAt_eq {node : DictionaryNode} (hi : i < length) (hj : j < length) :
    addVariantAt length i j node vec = .ok (addVariant i j node vec) := by
  have hreturns : Returns (nextWordPos length vec (j + 1)) (fun _ => True) fun _ => False :=
    nextWordPos_returns (Nat.succ_le_of_lt hj)
  obtain ⟨pos, hpos, -⟩ := hreturns.exists_ok
  unfold addVariantAt
  rw [hpos, ok_bind, pointAt_eq (by omega) (by omega), ok_bind, pointAt_eq (by omega) (by omega), ok_bind]
  rfl

theorem addSuffixAt_eq {s : Suffix} (hj : j < length) (hs : 0 < s.len) :
    addSuffixAt length j s vec = .ok (addSuffix j s vec) := by
  unfold addSuffixAt
  split
  · rw [pointAt_eq (by omega) (by omega), ok_bind, pointAt_eq (by omega) (by omega), ok_bind]
    rfl
  · rename_i hlt
    unfold addSuffix
    rw [if_neg hlt]
    rfl

theorem addSuffixAt_failed {s : Suffix} (hs : (length : Int) < j + 1 - s.len) (hj : j < length) :
    Failed (addSuffixAt length j s vec) := by
  unfold addSuffixAt
  rw [if_pos (by omega), pointAt_eq (by omega) (by omega), ok_bind, pointAt, if_neg (by omega)]
  exact fun a ha => nomatch ha

section

variable {ε α σ : Type} {f : Except ε σ → α → Except ε σ} {g : σ → α → σ} {xs : List α} {x : α} {s : Except ε σ}

theorem foldl_ok (hf : ∀ x ∈ xs, ∀ s, f (.ok s) x = .ok (g s x)) (s : σ) : xs.foldl f (.ok s) = .ok (xs.foldl g s) := by
  induction xs generalizing s with
  | nil => rfl
  | cons x xs ih =>
      obtain ⟨hx, hxs⟩ := List.forall_mem_cons.mp hf
      rw [List.foldl_cons, hx, ih hxs, List.foldl_cons]

theorem foldl_keeps_failed (hf : ∀ x s, Failed s → Failed (f s x)) (hs : Failed s) : Failed (xs.foldl f s) := by
  induction xs generalizing s with
  | nil => exact hs
  | cons x xs ih => exact ih (hf x s hs)

theorem foldl_failed (hf : ∀ x s, Failed s → Failed (f s x)) (hx : x ∈ xs)
    (hfail : ∀ s, Failed (f s x)) : Failed (xs.foldl f s) := by
  obtain ⟨before, after, rfl⟩ := List.append_of_mem hx
  rw [List.foldl_append, List.foldl_cons]
  exact foldl_keeps_failed hf (hfail _)

theorem Failed.bind {β : Type} {x : Except ε β} {f : β → Except ε α} (hx : Failed x) : Failed (x >>= f) := by
  intro a ha
  obtain ⟨b, hb, -⟩ := bind_eq_ok.mp ha
  exact hx b hb

theorem Failed.of_bind {β : Type} {x : Except ε β} {f : β → Except ε α} (hf : ∀ b, Failed (f b)) : Failed (x >>= f) := by
  intro a ha
  obtain ⟨b, -, hb⟩ := bind_eq_ok.mp ha
  exact hf b a hb

end

def Tokenizer.PositiveIn (t : Tokenizer h) (text : List Nat) : Prop :=
  ∀ i j node, i ≤ j → j < text.length → t.suffixDict.find (slice text i (j + 1)) = some node → ∀ s ∈ node.suffixes, 0 < s.len

theorem visitAt_eq {s : Points × Nat} (hpos : t.PositiveIn text) (hi : i < text.length) :
    visitAt t text i s = .ok (visit t text i s) := by
  unfold visitAt visit
  dsimp only
  rw [pointAt_eq (by omega) (by omega), ok_bind, pointAt_eq (by omega) (by omega), ok_bind]
  generalize Function.update s.1 i _ = opened
  have hwords : t.dict.scan (fun j node vec => vec >>= addVariantAt text.length i j node) [] (text.drop i) i (pure opened) =
      .ok (t.dict.scan (addVariant i) [] (text.drop i) i opened) := by
    rw [scan_eq_foldl, scan_eq_foldl]
    refine foldl_ok (fun x hx vec => ?_) opened
    exact addVariantAt_eq hi (mem_found_text.mp hx).2.1
  rw [hwords, ok_bind]
  generalize t.dict.scan (addVariant i) [] (text.drop i) i opened = words
  have hsuffixes : t.suffixDict.scan (fun j node vec => node.suffixes.foldl
      (fun vec s => vec >>= addSuffixAt text.length j s) vec) [] (text.drop i) i (pure words) =
      .ok (t.suffixDict.scan (fun j node vec => node.suffixes.foldl (fun vec s => addSuffix j s vec)
      vec) [] (text.drop i) i words) := by
    rw [scan_eq_foldl, scan_eq_foldl]
    refine foldl_ok (fun x hx vec => ?_) words
    obtain ⟨hij, hj, hfind⟩ := mem_found_text.mp hx
    refine foldl_ok (fun s hs vec => ?_) vec
    rw [ok_bind]
    exact addSuffixAt_eq hj (hpos i x.1 x.2 hij hj hfind s hs)
  rw [hsuffixes, ok_bind]
  rfl

theorem visitLoopAt_eq {s : Points × Nat} (hpos : t.PositiveIn text) (hn : n ≤ text.length) :
    visitLoopAt t text n s = .ok (visitLoop t text n s) := by
  induction n generalizing s with
  | zero => rfl
  | succ n ih =>
      rw [visitLoopAt, visitAt_eq hpos hn, ok_bind, ih (Nat.le_of_succ_le hn)]
      rfl

theorem biTokenizeAt_eq (hpos : t.PositiveIn text) : biTokenizeAt t text = .ok (biTokenize t text) := by
  rw [biTokenizeAt, visitLoopAt_eq hpos (Nat.le_refl _), ok_bind]
  rfl

def Tokenizer.OverrunsAt (t : Tokenizer h) (text : List Nat) (i : Nat) : Prop :=
  ∃ j node s, i ≤ j ∧ j < text.length ∧ t.suffixDict.find (slice text i (j + 1)) = some node ∧
    s ∈ node.suffixes ∧ (text.length : Int) < j + 1 - s.len

theorem visitAt_failed {s : Points × Nat} (hover : t.OverrunsAt text i) : Failed (visitAt t text i s) := by
  obtain ⟨j, node, suffix, hij, hj, hfind, hmem, hlt⟩ := hover
  unfold visitAt
  refine Failed.of_bind fun _ => Failed.of_bind fun _ => Failed.of_bind fun words => Failed.bind ?_
  rw [scan_eq_foldl]
  have hkeep : ∀ (suffixes : List Suffix) (j : Nat) (vec : Except Fault Points), Failed vec →
      Failed (suffixes.foldl (fun vec s => vec >>= addSuffixAt text.length j s) vec) := fun suffixes j vec hvec =>
    foldl_keeps_failed (fun s vec hvec => hvec.bind) hvec
  refine foldl_failed (fun x vec hvec => hkeep x.2.suffixes x.1 vec hvec) (mem_found_text.mpr ⟨hij, hj, hfind⟩) fun vec => ?_
  exact foldl_failed (fun s vec hvec => hvec.bind) hmem fun vec => Failed.of_bind fun vec => addSuffixAt_failed hlt hj

theorem visitLoopAt_failed {s : Points × Nat} (hover : t.OverrunsAt text i) (hi : i < n) :
    Failed (visitLoopAt t text n s) := by
  induction n generalizing s with
  | zero => omega
  | succ n ih =>
      rw [visitLoopAt]
      rcases Nat.eq_or_lt_of_le (Nat.le_of_lt_succ hi) with rfl | hlt
      · exact (visitAt_failed hover).bind
      · exact Failed.of_bind fun s => ih hlt

theorem biTokenizeAt_failed (hover : t.OverrunsAt text i) : Failed (biTokenizeAt t text) := by
  have hi : i < text.length := by
    obtain ⟨j, node, s, hij, hj, -⟩ := hover
    exact Nat.lt_of_le_of_lt hij hj
  exact (visitLoopAt_failed hover hi).bind

/-! ## 候補の範囲 -/

/-- 候補は位置より後ろで終わり、知らない文字より重い点は候補を持つ。 -/
structure PointSound (length p : Nat) (point : BiTokenizePoint) : Prop where
  variants : ∀ v ∈ point.variants, p < v.sepPos ∧ v.sepPos ≤ length
  suffixVariants : ∀ sv ∈ point.suffixVariants, p < sv.sepPos ∧ sv.sepPos ≤ length
  chosen : point.unkWeight = point.weight ∨ point.variants ≠ [] ∨ point.suffixVariants ≠ []

def Sound (length : Nat) (vec : Points) : Prop := ∀ p, p < length → PointSound length p (vec p)

theorem Sound.update {point : BiTokenizePoint} (hvec : Sound length vec)
    (hpoint : PointSound length i point) : Sound length (Function.update vec i point) := by
  intro p hp
  rcases eq_or_ne p i with rfl | hne
  · rwa [Function.update_self]
  · rw [Function.update_of_ne hne]
    exact hvec p hp

theorem initPoints_sound (minEl : Int) (length : Nat) : Sound length (initPoints minEl length) := by
  intro p hp
  rw [initPoints, if_neg (Nat.ne_of_lt hp)]
  exact ⟨fun v hv => (by cases hv), fun sv hsv => (by cases hsv), .inl rfl⟩

theorem openPoint_sound {minEl : Int} {sepPos : Nat} (hpoint : PointSound length i (vec i)) :
    PointSound length i (openPoint minEl length sepPos i vec) := by
  refine ⟨hpoint.variants, fun sv hsv => hpoint.suffixVariants sv (List.mem_filter.mp hsv).1, ?_⟩
  unfold openPoint
  dsimp only
  cases (vec i).suffixVariants.filter (·.sepPos ≤ sepPos) with
  | nil => exact .inl rfl
  | cons sv svs => exact .inr (.inr (List.cons_ne_nil sv svs))

theorem addVariant_sound {node : DictionaryNode} (hvec : Sound length vec) (hij : i ≤ j)
    (hj : j < length) : Sound length (addVariant i j node vec) := by
  have hpoint := hvec i (Nat.lt_of_le_of_lt hij hj)
  refine hvec.update ⟨fun v hv => ?_, hpoint.suffixVariants, .inr (.inl ?_)⟩
  · rcases List.mem_append.mp hv with hv | hv
    · exact hpoint.variants v hv
    · cases List.mem_singleton.mp hv
      exact ⟨Nat.lt_succ_of_le hij, hj⟩
  · exact List.append_ne_nil_of_right_ne_nil _ (List.cons_ne_nil _ _)

theorem addSuffix_sound {s : Suffix} (hvec : Sound length vec) (hj : j < length) (hs : 0 < s.len) :
    Sound length (addSuffix j s vec) := by
  unfold addSuffix
  split
  · have hlt : (j + 1 - s.len).toNat < j + 1 := by omega
    have hpoint := hvec (j + 1 - s.len).toNat (by omega)
    refine hvec.update ⟨hpoint.variants, fun sv hsv => ?_, .inr (.inr ?_)⟩
    · rcases List.mem_append.mp hsv with hsv | hsv
      · exact hpoint.suffixVariants sv hsv
      · cases List.mem_singleton.mp hsv
        exact ⟨hlt, hj⟩
    · exact List.append_ne_nil_of_right_ne_nil _ (List.cons_ne_nil _ _)
  · exact hvec

theorem visit_sound {s : Points × Nat} (hpos : t.PositiveIn text) (hi : i < text.length)
    (hvec : Sound text.length s.1) : Sound text.length (visit t text i s).1 := by
  unfold visit
  dsimp only
  have hopen : Sound text.length (Function.update s.1 i
      (openPoint t.minEl text.length (if (text[i]?).all isAsianChar then s.2 else i) i s.1)) :=
    hvec.update (openPoint_sound (hvec i hi))
  rw [scan_eq_foldl, scan_eq_foldl]
  refine List.foldlRecOn _ _ (List.foldlRecOn _ _ hopen fun vec hvec x hx => ?_) fun vec hvec x hx => ?_
  · obtain ⟨hij, hj, -⟩ := mem_found_text.mp hx
    exact addVariant_sound hvec hij hj
  · obtain ⟨hij, hj, hfind⟩ := mem_found_text.mp hx
    exact List.foldlRecOn _ _ hvec fun vec hvec s hs => addSuffix_sound hvec hj (hpos _ _ _ hij hj hfind s hs)

theorem visitLoop_sound {s : Points × Nat} (hpos : t.PositiveIn text) (hn : n ≤ text.length)
    (hvec : Sound text.length s.1) : Sound text.length (visitLoop t text n s).1 := by
  induction n generalizing s with
  | zero => exact hvec
  | succ n ih => exact ih (Nat.le_of_succ_le hn) (visit_sound hpos hn hvec)

/-! ## 切れ端の列 -/

inductive Tiles (length : Nat) : Nat → List Piece → Prop
  | nil : Tiles length length []
  | cons {piece : Piece} {rest : List Piece} (lt : piece.first < piece.last)
      (le : piece.last ≤ length) (tail : Tiles length piece.last rest) :
      Tiles length piece.first (piece :: rest)

theorem choosePiece_sound {point : BiTokenizePoint} (hpoint : PointSound length i point)
    (hunk : point.unkWeight ≠ point.weight) :
    ∃ piece, choosePiece i point = some (piece, piece.last) ∧ piece.first = i ∧ i < piece.last ∧ piece.last ≤ length := by
  rcases choosePiece_cases i point with ⟨hempty, hempty'⟩ | ⟨v, hv, hchoose, -⟩ | ⟨sv, hsv, hchoose, -⟩
  · rcases hpoint.chosen with heq | hne | hne
    · exact absurd heq hunk
    · exact absurd hempty hne
    · exact absurd hempty' hne
  · exact ⟨.word v.node i v.sepPos, hchoose, rfl, hpoint.variants v hv⟩
  · exact ⟨.suffix sv.node i sv.sepPos, hchoose, rfl, hpoint.suffixVariants sv hsv⟩

theorem Tiles.flush {unknownSeq : Int} {rest : List Piece} (hu : SeqBefore unknownSeq i)
    (hi : i ≤ length) (hrest : Tiles length i rest) :
    ∃ unknown, flushUnknown unknownSeq i = some unknown ∧
      Tiles length (seqStart unknownSeq i) (unknown ++ rest) := by
  rcases hu.flush with ⟨hflush, hstart⟩ | ⟨u, hlt, hflush, hstart⟩
  · exact ⟨[], hflush, by rwa [hstart]⟩
  · have hpiece : (Piece.unknown u i).first < (Piece.unknown u i).last := hlt
    rw [hstart]
    exact ⟨_, hflush, Tiles.cons hpiece hi hrest⟩

theorem reconstructLoop_tiles (hvec : Sound length vec) (hshort : length ≤ 2 ^ 31) {fuel : Nat}
    {unknownSeq : Int} (hi : i ≤ length) (hfuel : length - i < fuel) (hu : SeqBefore unknownSeq i) :
    ∃ pieces, reconstructLoop length vec fuel i unknownSeq = some pieces ∧
      Tiles length (seqStart unknownSeq i) pieces := by
  induction fuel generalizing i unknownSeq with
  | zero => omega
  | succ fuel ih =>
      simp only [reconstructLoop]
      rcases Nat.eq_or_lt_of_le hi with rfl | hlt
      · rw [if_neg (Nat.lt_irrefl _)]
        obtain ⟨unknown, hflush, htiles⟩ := Tiles.nil.flush hu hi
        rw [List.append_nil] at htiles
        exact ⟨unknown, hflush, htiles⟩
      · rw [if_pos hlt]
        split
        · generalize hnext : (if unknownSeq = -1 then toInt i else unknownSeq) = next
          obtain ⟨hbefore, hstart⟩ := hu.succ (by omega) hnext
          obtain ⟨pieces, hpieces, htiles⟩ := ih hlt (by omega) hbefore
          exact ⟨pieces, hpieces, by rwa [hstart] at htiles⟩
        · rename_i hunk
          obtain ⟨piece, hchoose, rfl, hlt', hle'⟩ := choosePiece_sound (hvec i hlt) hunk
          obtain ⟨rest, hrest, htiles⟩ := ih hle' (by omega) (.inl rfl)
          obtain ⟨unknown, hflush, hall⟩ := (Tiles.cons hlt' hle' htiles).flush hu hi
          exact ⟨_, by simp [hflush, hchoose, hrest], hall⟩

theorem biTokenizeReconstruct_tiles (hpos : t.PositiveIn text) (hshort : text.length ≤ 2 ^ 31) :
    ∃ pieces, biTokenizeReconstruct text (biTokenize t text) = some pieces ∧ Tiles text.length 0 pieces := by
  have hvec : Sound text.length (biTokenize t text) :=
    visitLoop_sound hpos (Nat.le_refl _) (initPoints_sound t.minEl text.length)
  exact reconstructLoop_tiles hvec hshort (Nat.zero_le _) (Nat.lt_succ_self _) (.inl rfl)

/-! ## 語 -/

open String.Utf8Text Utf8

variable {cs wstr : List Nat} {res : List Bytes}

theorem between_append_drop {first last : Nat} (h : first ≤ last) :
    Cursor.between wstr first last ++ wstr.drop last = wstr.drop first := by
  have hdrop : wstr.drop last = (wstr.drop first).drop (last - first) := by rw [List.drop_drop, Nat.add_sub_cancel' h]
  rw [Cursor.between, hdrop, List.take_append_drop]

theorem pushPiece_eq {piece : Piece} (res : List Bytes) (hs : ∀ c ∈ wstr, IsScalar c)
    (hlt : piece.first < piece.last) (hle : piece.last ≤ wstr.length) :
    pushPiece wstr res piece = .ok (res ++ [(Cursor.between wstr piece.first piece.last).flatMap encode]) ∧
      (Cursor.between wstr piece.first piece.last).flatMap encode ≠ [] := by
  have hmem : ∀ c ∈ Cursor.between wstr piece.first piece.last, IsScalar c :=
    fun c hc => hs c (List.mem_of_mem_drop (List.mem_of_mem_take hc))
  have htext : piece.text wstr = .ok ((Cursor.between wstr piece.first piece.last).flatMap encode) := by
    rw [Piece.text, if_pos (Nat.le_of_lt hlt), wcharToUtf8_scalars hmem]
    rfl
  have hne : (Cursor.between wstr piece.first piece.last).flatMap encode ≠ [] := by
    have hlen : (Cursor.between wstr piece.first piece.last).length = piece.last - piece.first := Cursor.length_between hle
    cases hchars : Cursor.between wstr piece.first piece.last with
    | nil =>
        rw [hchars, List.length_nil] at hlen
        omega
    | cons c rest =>
        rw [List.flatMap_cons]
        exact List.append_ne_nil_of_left_ne_nil (String.XmlEncode.encode_ne_nil c) _
  refine ⟨?_, hne⟩
  rw [pushPiece, htext, ok_bind]
  cases piece with
  | unknown first last => rfl
  | word node first last => exact if_pos hne
  | suffix s first last => exact if_pos hne

theorem Tiles.words {pieces : List Piece} (hs : ∀ c ∈ wstr, IsScalar c) (htiles : Tiles wstr.length i pieces) :
    ∃ words, (∀ res, pieces.foldlM (pushPiece wstr) res = .ok (res ++ words)) ∧
      (∀ word ∈ words, word ≠ []) ∧ words.flatten = (wstr.drop i).flatMap encode := by
  induction htiles with
  | nil => exact ⟨[], fun res =>
      by rw [List.append_nil]; rfl, fun word hword => (by cases hword), by rw [List.drop_length]; rfl⟩
  | @cons piece rest hlt hle htail ih =>
      obtain ⟨words, hwords, hne, hflat⟩ := ih
      refine ⟨(Cursor.between wstr piece.first piece.last).flatMap encode :: words, fun res => ?_, ?_, ?_⟩
      · obtain ⟨hpush, -⟩ := pushPiece_eq res hs hlt hle
        rw [List.foldlM_cons, hpush, ok_bind, hwords, List.append_assoc, List.singleton_append]
      · exact List.forall_mem_cons.mpr ⟨(pushPiece_eq [] hs hlt hle).2, hne⟩
      · rw [List.flatten_cons, hflat, ← List.flatMap_append, between_append_drop (Nat.le_of_lt hlt)]

theorem takeWhile_terminated (cs : List Nat) : (cs ++ [0]).takeWhile (· ≠ 0) = cs.takeWhile (· ≠ 0) := by
  induction cs with
  | nil => rfl
  | cons c cs ih =>
      rw [List.cons_append, List.takeWhile_cons, List.takeWhile_cons, ih]

theorem utf8ToWchar_scalars (hcs : ∀ c ∈ cs, IsScalar c) (hfits : Fits (cs.flatMap encode)) :
    utf8ToWchar (cs.flatMap encode) = .ok (cs ++ [0]) := by
  rcases utf8ToWchar_of_fits hfits with ⟨-, hrun⟩ | ⟨hne, -⟩
  · rw [hrun, (leading_flatMap_encode hcs).2]
  · exact absurd (flatten_leading_of_completes (completes_of_wellFormed (wellFormed_flatMap_encode hcs))) hne

theorem segment_eq (hcs : ∀ c ∈ cs, IsScalar c) (hfits : Fits (cs.flatMap encode)) :
    segment t (cs.flatMap encode) res = segmentWide t (cs.takeWhile (· ≠ 0)) res := by
  rw [segment, utf8ToWchar_scalars hcs hfits, ← takeWhile_terminated cs]
  rfl

theorem fits_of_segment {s : Bytes} {words : List Bytes} (h : segment t s res = .ok words) : Fits s := by
  by_contra hfits
  obtain ⟨e, -, herr⟩ := utf8ToWchar_of_not_fits hfits
  rw [segment, herr] at h
  cases h

theorem takeWhile_nonzero (h0 : 0 ∉ cs) : cs.takeWhile (· ≠ 0) = cs :=
  List.takeWhile_eq_self_iff.mpr fun _ hc => decide_eq_true fun heq => h0 (heq ▸ hc)

theorem segment_words (hcs : ∀ c ∈ cs, IsScalar c) (h0 : 0 ∉ cs) (hfits : Fits (cs.flatMap encode))
    (hpos : t.PositiveIn cs) :
    ∃ words, (∀ res, segment t (cs.flatMap encode) res = .ok (res ++ words)) ∧
      (∀ word ∈ words, word ≠ []) ∧ words.flatten = cs.flatMap encode := by
  by_cases hnil : cs = []
  · refine ⟨[], fun res => ?_, fun word hword => (by cases hword), by rw [hnil]; rfl⟩
    rw [segment_eq hcs hfits, takeWhile_nonzero h0, segmentWide, if_pos hnil, List.append_nil]
    rfl
  · have hshort : cs.length ≤ 2 ^ 31 := by
      have hlt := hfits.1
      rw [(leading_flatMap_encode hcs).1, List.length_map] at hlt
      omega
    obtain ⟨pieces, hpieces, htiles⟩ := biTokenizeReconstruct_tiles hpos hshort
    obtain ⟨words, hwords, hne, hflat⟩ := htiles.words hcs
    refine ⟨words, fun res => ?_, hne, hflat⟩
    rw [segment_eq hcs hfits, takeWhile_nonzero h0, segmentWide, if_neg hnil, biTokenizeAt_eq hpos, ok_bind, hpieces]
    exact hwords res

theorem segment_failed (hcs : ∀ c ∈ cs, IsScalar c) (h0 : 0 ∉ cs) (hover : t.OverrunsAt cs i) :
    Failed (segment t (cs.flatMap encode) res) := by
  intro words hwords
  rw [segment_eq hcs (fits_of_segment hwords), takeWhile_nonzero h0, segmentWide] at hwords
  have hne : cs ≠ [] := by
    rintro rfl
    obtain ⟨j, node, s, -, hj, -⟩ := hover
    exact absurd hj (Nat.not_lt_zero j)
  rw [if_neg hne] at hwords
  exact (biTokenizeAt_failed hover).bind words hwords

/-! ## 零のない語 -/

theorem zero_not_mem_encode {c : Nat} (hc : IsScalar c) (h0 : c ≠ 0) : (0 : UInt8) ∉ encode c := by
  have hlt := hc.lt
  have hbyte : ∀ n, 0 < n → n < 256 → (0 : UInt8) ≠ UInt8.ofNat n := by
    intro n hpos hlt heq
    have hnat := congrArg UInt8.toNat heq
    rw [toNat_ofNat hlt] at hnat
    exact absurd hnat (Nat.ne_of_lt hpos)
  unfold encode
  split_ifs with h₁ h₂ h₃ <;> simp only [List.mem_cons, List.not_mem_nil, or_false, not_or]
  · exact hbyte c (Nat.pos_of_ne_zero h0) (by omega)
  · exact ⟨hbyte _ (by omega) (by omega), hbyte _ (by omega) (by omega)⟩
  · exact ⟨hbyte _ (by omega) (by omega), hbyte _ (by omega) (by omega), hbyte _ (by omega) (by omega)⟩
  · exact ⟨hbyte _ (by omega) (by omega), hbyte _ (by omega) (by omega), hbyte _ (by omega)
      (by omega), hbyte _ (by omega) (by omega)⟩

theorem pushPiece_cases {piece : Piece} {words : List Bytes} (hpush : pushPiece wstr res piece = .ok words) :
    ∃ wordUtf8, piece.text wstr = .ok wordUtf8 ∧ (words = res ∨ words = res ++ [wordUtf8]) := by
  obtain ⟨wordUtf8, htext, hrest⟩ := bind_eq_ok.mp hpush
  refine ⟨wordUtf8, htext, ?_⟩
  have hpushed : ∀ {c : Prop} [Decidable c],
      (if c then return res ++ [wordUtf8] else return res : Except Fault (List Bytes)) = .ok words →
      words = res ∨ words = res ++ [wordUtf8] := by
    intro c _ hif
    split at hif
    · exact .inr (Except.ok.inj hif).symm
    · exact .inl (Except.ok.inj hif).symm
  cases piece with
  | unknown first last => exact .inr (Except.ok.inj hrest).symm
  | word node first last => exact hpushed hrest
  | suffix s first last => exact hpushed hrest

theorem pushPiece_nonzero {piece : Piece} {words : List Bytes} (hs : ∀ c ∈ wstr, IsScalar c)
    (h0 : 0 ∉ wstr) (hres : ∀ word ∈ res, 0 ∉ word)
    (hpush : pushPiece wstr res piece = .ok words) : ∀ word ∈ words, 0 ∉ word := by
  obtain ⟨wordUtf8, htext, rfl | rfl⟩ := pushPiece_cases hpush
  · exact hres
  · refine List.forall_mem_append.mpr ⟨hres, List.forall_mem_singleton.mpr ?_⟩
    unfold Piece.text at htext
    split at htext
    · cases htext
      have hmem : ∀ c ∈ Cursor.between wstr piece.first piece.last, c ∈ wstr :=
        fun c hc => List.mem_of_mem_drop (List.mem_of_mem_take hc)
      rw [wcharToUtf8_scalars fun c hc => hs c (hmem c hc), List.mem_flatMap]
      rintro ⟨c, hc, hzero⟩
      exact zero_not_mem_encode (hs c (hmem c hc)) (fun heq => h0 (heq ▸ hmem c hc)) hzero
    · cases htext

theorem segment_nonzero {words : List Bytes} (hcs : ∀ c ∈ cs, IsScalar c)
    (hsegment : segment t (cs.flatMap encode) [] = .ok words) : ∀ word ∈ words, 0 ∉ word := by
  rw [segment_eq hcs (fits_of_segment hsegment)] at hsegment
  have hs : ∀ c ∈ cs.takeWhile (· ≠ 0), IsScalar c := fun c hc => hcs c ((List.takeWhile_prefix _).subset hc)
  have h0 : 0 ∉ cs.takeWhile (· ≠ 0) := fun hmem => by simpa using List.mem_takeWhile_imp hmem
  generalize cs.takeWhile (· ≠ 0) = wstr at hsegment hs h0
  unfold segmentWide at hsegment
  split at hsegment
  · cases hsegment
    exact fun word hword => (by cases hword)
  · obtain ⟨vec, -, hrest⟩ := bind_eq_ok.mp hsegment
    split at hrest
    · cases hrest
    · have hnil : ∀ word ∈ ([] : List Bytes), (0 : UInt8) ∉ word := fun word hword => (by cases hword)
      exact foldlM_invariant hnil hrest fun _ _ _ hres hpush => pushPiece_nonzero hs h0 hres hpush

end UnixCommons.Language.Polyglot
