import UnixCommons.Language.Lemmas.PolyglotSegment

/-!
# 語に分けることの定理

どの位置の重さも、そこから先の最も重い分け方の重さであり、選ばれた切れ端の列はそれに等しい。
-/

namespace UnixCommons.Language.Polyglot

open Lib

variable {η : Type} [DecidableEq η] {h : IncHash Nat η} {t : Tokenizer h}

def Tokenizer.SuffixesLonger (t : Tokenizer h) : Prop :=
  ∀ word node, t.suffixDict.find word = some node →
    ∀ s ∈ node.suffixes, word.length < s.length.toNat

/-- `long` に収まらない長さの語尾の文字が、文の中にある。 -/
def Tokenizer.TooLongIn (t : Tokenizer h) (text : List Nat) : Prop :=
  ∃ i j node s, i ≤ j ∧ j < text.length ∧ t.suffixDict.find (slice text i (j + 1)) = some node ∧
    s ∈ node.suffixes ∧ 2 ^ 63 ≤ s.length.toNat

/-- 点の重さは方程式の唯一の解であり、切れ端の列は、最も重い分け方である。 -/
structure Solves (t : Tokenizer h) (text : List Nat) (vec : Points) (pieces : List Piece) : Prop where
  bellman : Bellman (t.Edge text) text.length fun i => (vec i).weight
  unique : ∀ W, Bellman (t.Edge text) text.length W → ∀ i, i ≤ text.length → W i = (vec i).weight
  segmentation : Segmentation t text 0 pieces
  weight : totalWeight t.minEl pieces = (vec 0).weight
  greatest : ∀ pieces', Segmentation t text 0 pieces' →
    totalWeight t.minEl pieces' ≤ totalWeight t.minEl pieces

/-- `vec` の外に触れずに終わり、選ばれた切れ端の列が、最も重い分け方である。 -/
def Optimal (t : Tokenizer h) (text : List Nat) : Prop :=
  ∃ vec pieces, biTokenizeAt t text = .ok vec ∧ biTokenizeReconstruct text vec = some pieces ∧
    Solves t text vec pieces

omit [DecidableEq η] in
theorem longerIn_of_not_tooLongIn {text : List Nat} (hs : t.SuffixesLonger)
    (hnot : ¬ t.TooLongIn text) : t.LongerIn text := by
  intro i j node hij hj hfind s hmem
  have hlonger := hs _ node hfind s hmem
  rw [slice_length (Nat.succ_le_of_lt hj)] at hlonger
  have hlt : s.length.toNat < 2 ^ 63 := by
    by_contra hge
    exact hnot ⟨i, j, node, s, hij, hj, hfind, hmem, not_lt.mp hge⟩
  rw [Suffix.len_eq hlt]
  omega

omit [DecidableEq η] in
theorem Tokenizer.LongerIn.positive {text : List Nat} (hs : t.LongerIn text) : t.PositiveIn text := by
  intro i j node hij hj hfind s hmem
  have hlonger := hs i j node hij hj hfind s hmem
  omega

theorem optimal_of_longerIn {text : List Nat} (hs : t.LongerIn text)
    (hshort : text.length ≤ 2 ^ 31) : Optimal t text := by
  have hbellman := biTokenize_bellman text hs
  have hforward := t.edge_forward hs
  obtain ⟨hlast, hpoint⟩ := biTokenize_spec text hs
  obtain ⟨pieces, hpieces, hseg, hweight⟩ :=
    reconstructLoop_spec hs hshort hlast hpoint (Nat.zero_le _) (Nat.lt_succ_self _) (.inl rfl)
  have hstart : seqStart (-1) 0 = 0 := rfl
  rw [hstart] at hseg
  have htotal : totalWeight t.minEl pieces = (biTokenize t text 0).weight := by
    simpa [hstart] using hweight
  refine ⟨biTokenize t text, pieces, biTokenizeAt_eq hs.positive, hpieces, hbellman, ?_, hseg, htotal, ?_⟩
  · exact fun W hW i hi => hW.unique hbellman hforward hi
  · intro pieces' hseg'
    rw [htotal]
    exact hbellman.path_le hforward hseg'.path

theorem Optimal.not_overruns {text : List Nat} (hopt : Optimal t text) (i : Nat) :
    ¬ t.OverrunsAt text i := by
  intro hover
  obtain ⟨vec, pieces, hvec, -⟩ := hopt
  exact biTokenizeAt_failed hover vec hvec

omit [DecidableEq η] in
theorem overrunsAt_append {before word after : List Nat} {node : SuffixDictionaryNode} {s : Suffix}
    (hfind : t.suffixDict.find word = some node) (hs : s ∈ node.suffixes)
    (hlt : (after.length : Int) < -s.len) (hne : word ≠ []) :
    t.OverrunsAt (before ++ word ++ after) before.length := by
  have hpos := List.length_pos_of_ne_nil hne
  have hlen : (before ++ word ++ after).length = before.length + word.length + after.length := by
    rw [List.length_append, List.length_append]
  have hslice : slice (before ++ word ++ after) before.length (before.length + word.length - 1 + 1) = word := by
    have hlast : before.length + word.length - 1 + 1 - before.length = word.length := by omega
    rw [slice, hlast, List.append_assoc, List.drop_left, List.take_left]
  exact ⟨before.length + word.length - 1, node, s, by omega, by omega, by rwa [hslice], hs, by omega⟩

/-- `long` に収まらない長さの語尾の、文字だけの文は、`vec` の外に触れる。 -/
theorem not_optimal_tooLong {word : List Nat} {node : SuffixDictionaryNode} {s : Suffix}
    (hfind : t.suffixDict.find word = some node) (hs : s ∈ node.suffixes) (hne : word ≠ [])
    (hlong : 2 ^ 63 ≤ s.length.toNat) : ¬ Optimal t word := by
  intro hopt
  have hlt := s.length.toNat_lt
  have hneg : (([] : List Nat).length : Int) < -s.len := by
    rw [Suffix.len_eq_sub hlong, List.length_nil]
    omega
  have hover := @overrunsAt_append _ _ _ [] word [] node s hfind hs hneg hne
  rw [List.nil_append, List.append_nil] at hover
  exact hopt.not_overruns _ hover

/-- `long` に収まらない長さの語尾が文の中になければ、選ばれた切れ端の列は最も重い。`int` に収まる全ての文でそうなるのは、
そのような語尾がどの文の中にもないときである。 -/
theorem bi_tokenize_optimal (t : Tokenizer h) (hs : t.SuffixesLonger) :
    (∀ text, text.length ≤ 2 ^ 31 → ¬ t.TooLongIn text → Optimal t text) ∧
      (∀ text, Optimal t text → ∀ i, ¬ t.OverrunsAt text i) ∧
      ((∀ text, text.length ≤ 2 ^ 31 → Optimal t text) ↔
        ∀ text, text.length ≤ 2 ^ 31 → ¬ t.TooLongIn text) := by
  have hshort : ∀ text, text.length ≤ 2 ^ 31 → ¬ t.TooLongIn text → Optimal t text :=
    fun text hlen hnot => optimal_of_longerIn (longerIn_of_not_tooLongIn hs hnot) hlen
  refine ⟨hshort, fun text hopt => hopt.not_overruns, ?_, fun hnot text hlen => hshort text hlen (hnot text hlen)⟩
  rintro hall text hlen ⟨i, j, node, s, hij, hj, hfind, hmem, hlong⟩
  have hword : (slice text i (j + 1)).length = j + 1 - i := slice_length (Nat.succ_le_of_lt hj)
  have hne : slice text i (j + 1) ≠ [] := by
    intro hnil
    rw [hnil, List.length_nil] at hword
    omega
  exact not_optimal_tooLong hfind hmem hne hlong (hall _ (by omega))

/-- 語 `4E00 4E01` と、二文字の語尾 `4E02` を持つ辞書。 -/
def sampleTokenizer : Tokenizer (⟨0, fun hash c => 31 * hash + c⟩ : IncHash Nat Nat) where
  dict := IncHashTable.empty.insert [0x4E00, 0x4E01] ⟨1, 5⟩
  minEl := 0
  suffixDict := IncHashTable.empty.insert [0x4E02] ⟨[⟨2, 3⟩]⟩

theorem sampleTokenizer_find {word : List Nat} {node : SuffixDictionaryNode} {s : Suffix}
    (hfind : sampleTokenizer.suffixDict.find word = some node) (hmem : s ∈ node.suffixes) :
    word = [0x4E02] ∧ s = ⟨2, 3⟩ := by
  obtain ⟨entry, hentry, rfl⟩ := Option.map_eq_some_iff.mp hfind
  have hkey : entry.1 = word := by simpa using List.find?_some hentry
  cases List.mem_singleton.mp (List.mem_of_find?_eq_some hentry)
  exact ⟨hkey.symm, List.mem_singleton.mp hmem⟩

theorem bi_tokenize_optimal_sample :
    let text := [0x61, 0x4E00, 0x4E01, 0x4E03, 0x4E02]
    let pieces := [Piece.unknown 0 1, .word ⟨1, 5⟩ 1 3, .suffix ⟨2, 3⟩ 3 5]
    ∃ vec, biTokenizeAt sampleTokenizer text = .ok vec ∧
      biTokenizeReconstruct text vec = some pieces ∧ totalWeight 0 pieces = 9 ∧
      ∀ pieces', Segmentation sampleTokenizer text 0 pieces' → totalWeight 0 pieces' ≤ 9 := by
  intro text pieces
  have hs : sampleTokenizer.SuffixesLonger := by
    intro word node hfind s hmem
    obtain ⟨rfl, rfl⟩ := sampleTokenizer_find hfind hmem
    decide
  have hnot : ∀ text, ¬ sampleTokenizer.TooLongIn text := by
    rintro text ⟨i, j, node, s, -, -, hfind, hmem, hlong⟩
    obtain ⟨-, rfl⟩ := sampleTokenizer_find hfind hmem
    exact absurd hlong (by decide)
  have hchosen : biTokenizeReconstruct text (biTokenize sampleTokenizer text) = some pieces := by decide
  obtain ⟨vec, pieces', hvec, hpieces, hsolves⟩ :=
    (bi_tokenize_optimal sampleTokenizer hs).1 text (by decide) (hnot text)
  cases hvec.symm.trans (biTokenizeAt_eq (longerIn_of_not_tooLongIn hs (hnot text)).positive)
  cases hchosen.symm.trans hpieces
  exact ⟨_, hvec, hpieces, by decide, hsolves.greatest⟩

/-! ## 読まれた辞書の例 -/

section

open String.Utf8Text Utf8

variable {cs : List Nat} {text : Bytes}

theorem fits_of_short (hlt : text.length + 1 < 2 ^ 31) : Fits text := by
  have hle := length_leading_le text
  have harray : Generics.arraySize (text.length + 1) = text.length + 1 := Generics.arraySize_eq (by omega)
  refine ⟨by omega, ?_⟩
  rw [harray]
  split <;> omega

def sampleFile : Bytes := [0x31, 0x20, 0x61, 0x62, 0x20, 0x35]

def sampleSuffixFile : Bytes := [0x63, 0x64, 0x20, 0x2D, 0x32, 0x20, 0x35]

def sampleHash : IncHash Nat Nat := ⟨0, fun hash c => 31 * hash + c⟩

def sampleDict : Dictionary sampleHash := ⟨IncHashTable.empty.insert [0x61, 0x62] ⟨1, -5⟩, ⟨1, -5, 0, -5⟩⟩

def sampleSuffixDict : SuffixDictionary sampleHash := ⟨IncHashTable.empty.insert [0x63, 0x64] ⟨[⟨-2, -5⟩]⟩, ⟨1, -5, 0, -5⟩⟩

theorem readWord_scalars (str : Bytes) (hcs : ∀ c ∈ cs, IsScalar c) (h0 : 0 ∉ cs)
    (hfits : Fits (cs.flatMap encode)) : readWord str (cs.flatMap encode) = .ok cs := by
  rw [readWord, utf8ToWchar_scalars hcs hfits]
  dsimp only
  rw [takeWhile_terminated, takeWhile_nonzero h0]
  rfl

theorem load_sample : load sampleFile .empty = .ok sampleDict := by
  have hcs : ∀ c ∈ [0x61, 0x62], IsScalar c := by decide
  have hword : readWord sampleFile [0x61, 0x62] = .ok [0x61, 0x62] :=
    readWord_scalars sampleFile hcs (by decide) (fits_of_short (by decide))
  have hparse : parseDictionaryString sampleFile = .ok (1, [0x61, 0x62], -5) := by
    have hid : nextToken (.of sampleFile) = .ok (some [0x31],
        ⟨[0x20, 0x61, 0x62, 0x20, 0x35], some [0x20, 0x61, 0x62, 0x20, 0x35], false, false⟩) := rfl
    have hpart : nextToken ⟨[0x20, 0x61, 0x62, 0x20, 0x35], some [0x20, 0x61, 0x62, 0x20, 0x35], false, false⟩ =
        .ok (some [0x61, 0x62], ⟨[0x20, 0x35], some [0x20, 0x35], false, false⟩) := rfl
    simp only [parseDictionaryString, hid, ok_bind, hpart, hword]
    rfl
  have hline : loadLine .empty sampleFile = .ok sampleDict := by
    rw [loadLine, hparse]
    rfl
  have hlines : readLines sampleFile = [sampleFile] := rfl
  rw [load, hlines, List.foldlM_cons, hline]
  rfl

theorem loadSuffixes_sample : loadSuffixes sampleSuffixFile .empty = .ok sampleSuffixDict := by
  have hcs : ∀ c ∈ [0x63, 0x64], IsScalar c := by decide
  have hword : readWord sampleSuffixFile [0x63, 0x64] = .ok [0x63, 0x64] :=
    readWord_scalars sampleSuffixFile hcs (by decide) (fits_of_short (by decide))
  have hparse : parseSuffixDictionaryString sampleSuffixFile = .ok ([0x63, 0x64], -2, -5) := by
    have hpart : nextToken (.of sampleSuffixFile) =
        .ok (some [0x63, 0x64],
          ⟨[0x20, 0x2D, 0x32, 0x20, 0x35], some [0x20, 0x2D, 0x32, 0x20, 0x35], false, false⟩) := rfl
    simp only [parseSuffixDictionaryString, hpart, ok_bind, hword]
    rfl
  have hline : loadSuffixLine .empty sampleSuffixFile = .ok sampleSuffixDict := by
    rw [loadSuffixLine, hparse]
    rfl
  have hlines : readLines sampleSuffixFile = [sampleSuffixFile] := rfl
  rw [loadSuffixes, hlines, List.foldlM_cons, hline]
  rfl

end

/-- 読まれた語尾の辞書の長さ -2 は、`unsigned long` では文字より長い。その文字だけの文は、`vec` の外に触れる。 -/
theorem bi_tokenize_overlong :
    loadSuffixes sampleSuffixFile .empty = .ok sampleSuffixDict ∧
      (Tokenizer.of sampleDict sampleSuffixDict).SuffixesLonger ∧
      ¬ Optimal (Tokenizer.of sampleDict sampleSuffixDict) [0x63, 0x64] := by
  have hfind : (Tokenizer.of sampleDict sampleSuffixDict).suffixDict.find [0x63, 0x64] =
      some ⟨[⟨-2, -5⟩]⟩ := rfl
  refine ⟨loadSuffixes_sample, ?_, not_optimal_tooLong hfind (List.mem_singleton.mpr rfl) (by decide) (by decide)⟩
  intro word node hword s hmem
  obtain ⟨entry, hentry, rfl⟩ := Option.map_eq_some_iff.mp hword
  have hkey : entry.1 = word := by simpa using List.find?_some hentry
  cases List.mem_singleton.mp (List.mem_of_find?_eq_some hentry)
  cases List.mem_singleton.mp hmem
  rw [← hkey]
  decide

end UnixCommons.Language.Polyglot

/-!
## 文を分けることの定理

文の中に負の長さの語尾がなければ、零がなく `utf8_to_wchar` に収まる文だけが、失われずに分けられる。
-/

namespace UnixCommons.Language.Polyglot

open Lib String.Utf8Text Utf8

variable {η : Type} [DecidableEq η] {h : IncHash Nat η} {t : Tokenizer h} {cs : List Nat} {text : Bytes}

def gap (u v : Bytes) : Bytes := if u.getLast? = some 0x20 ∨ v.head? = some 0x20 then [] else [0x20]

def spaced : List Bytes → Bytes
  | [] => []
  | [word] => word
  | u :: v :: rest => u ++ gap u v ++ spaced (v :: rest)

theorem putWord_eq {u v : Bytes} (hv : v ≠ []) (res : Bytes) :
    putWord (res, decide (u.getLast? = some 0x20)) v = .ok (res ++ gap u v ++ v, decide (v.getLast? = some 0x20)) := by
  obtain ⟨last, hlast⟩ := Option.ne_none_iff_exists'.mp (mt List.getLast?_eq_none_iff.mp hv)
  have hres : (if !decide (u.getLast? = some 0x20) ∧ v ≠ [] ∧ v.head? ≠ some 0x20 then res ++
      [0x20] else res) = res ++ gap u v := by
    unfold gap
    by_cases hu : u.getLast? = some 0x20
    · rw [if_neg (by simp [hu]), if_pos (.inl hu), List.append_nil]
    · by_cases hhead : v.head? = some 0x20
      · rw [if_neg (by simp [hhead]), if_pos (.inr hhead), List.append_nil]
      · rw [if_pos ⟨by simp [hu], hv, hhead⟩, if_neg (not_or.mpr ⟨hu, hhead⟩)]
  unfold putWord
  dsimp only
  rw [hres, hlast]
  simp only [Option.some.injEq]
  rfl

theorem foldlM_putWord {words : List Bytes} (hwords : ∀ word ∈ words, word ≠ []) (u res : Bytes) :
    ∃ sep, words.foldlM putWord (res ++ u, decide (u.getLast? = some 0x20)) = .ok (res ++ spaced (u :: words), sep) := by
  induction words generalizing u res with
  | nil => exact ⟨_, rfl⟩
  | cons v words ih =>
      obtain ⟨hv, hwords⟩ := List.forall_mem_cons.mp hwords
      obtain ⟨sep, hrest⟩ := ih hwords v (res ++ u ++ gap u v)
      refine ⟨sep, ?_⟩
      rw [List.foldlM_cons, putWord_eq hv, ok_bind, hrest, spaced]
      simp only [List.append_assoc]

theorem putSpaces_eq {words : List Bytes} (hsegment : segment t text [] = .ok words)
    (hwords : ∀ word ∈ words, word ≠ []) : putSpaces t text = .ok (spaced words) := by
  rw [putSpaces, hsegment, ok_bind]
  cases words with
  | nil => rfl
  | cons u words =>
      obtain ⟨hu, hwords⟩ := List.forall_mem_cons.mp hwords
      have hspace : gap [0x20] u = [] := if_pos (.inl rfl)
      have hfirst := putWord_eq (u := [0x20]) hu []
      rw [hspace] at hfirst
      obtain ⟨sep, hrest⟩ := foldlM_putWord hwords u []
      have hstart : putWord ([], true) u = .ok ([] ++ u, decide (u.getLast? = some 0x20)) := hfirst
      rw [List.foldlM_cons, hstart, ok_bind, hrest, ok_bind]
      rfl

def Keeps (t : Tokenizer h) (text : Bytes) : Prop :=
  ∃ words, (∀ res, segment t text res = .ok (res ++ words)) ∧ (∀ word ∈ words, word ≠ []) ∧
    words.flatten = text ∧ putSpaces t text = .ok (spaced words)

def Tokenizer.NegativeIn (t : Tokenizer h) (text : Bytes) : Prop :=
  ∃ word node s, t.suffixDict.find word = some node ∧ s ∈ node.suffixes ∧ s.len < 0 ∧ word ≠ [] ∧
    (∀ c ∈ word, IsScalar c) ∧ word.flatMap encode <:+: text

def Tokenizer.OverrunsIn (t : Tokenizer h) (text : Bytes) : Prop :=
  ∃ before word after node s, text = (before ++ word ++ after).flatMap encode ∧
    (∀ c ∈ before ++ word ++ after, IsScalar c) ∧ word ≠ [] ∧
    t.suffixDict.find word = some node ∧ s ∈ node.suffixes ∧ ((after.length : Nat) : Int) < -s.len

omit [DecidableEq η] in
theorem positiveIn_of_not_negative (hzero : ∀ word node, t.suffixDict.find word = some node → ∀ s ∈ node.suffixes, s.len ≠ 0)
    (hcs : ∀ c ∈ cs, IsScalar c) (hnot : ¬ t.NegativeIn (cs.flatMap encode)) : t.PositiveIn cs := by
  intro i j node hij hj hfind s hs
  by_contra hpos
  have hwithin : slice cs i (j + 1) <:+: cs := (List.take_prefix _ _).isInfix.trans (List.drop_suffix _ _).isInfix
  refine hnot ⟨slice cs i (j + 1), node, s, hfind, hs, ?_, ?_, fun c hc => hcs c (hwithin.subset hc), ?_⟩
  · exact lt_of_le_of_ne (not_lt.mp hpos) (hzero _ _ hfind s hs)
  · intro hnil
    have hlen := slice_length (i := i) (Nat.succ_le_of_lt hj)
    rw [hnil, List.length_nil] at hlen
    omega
  · obtain ⟨before, after, heq⟩ := hwithin
    refine ⟨before.flatMap encode, after.flatMap encode, ?_⟩
    rw [← List.flatMap_append, ← List.flatMap_append, heq]

theorem not_keeps_of_overruns (hcs : ∀ c ∈ cs, IsScalar c) (h0 : 0 ∉ cs) {i : Nat}
    (hover : t.OverrunsAt cs i) : ¬ Keeps t (cs.flatMap encode) := by
  rintro ⟨words, hsegment, -⟩
  exact segment_failed hcs h0 hover _ (hsegment [])

theorem keeps_of_positive (hcs : ∀ c ∈ cs, IsScalar c) (h0 : 0 ∉ cs)
    (hfits : Fits (cs.flatMap encode)) (hpos : t.PositiveIn cs) : Keeps t (cs.flatMap encode) := by
  obtain ⟨words, hsegment, hne, hflat⟩ := segment_words hcs h0 hfits hpos
  exact ⟨words, hsegment, hne, hflat, putSpaces_eq (by simpa using hsegment []) hne⟩

theorem Keeps.nonzero (hw : WellFormed text) (hkeeps : Keeps t text) : 0 ∉ text ∧ Fits text := by
  obtain ⟨cs, hcs, rfl⟩ := hw.exists_scalars
  obtain ⟨words, hsegment, -, hflat, -⟩ := hkeeps
  refine ⟨fun h0 => ?_, fits_of_segment (hsegment [])⟩
  rw [← hflat] at h0
  obtain ⟨word, hword, hmem⟩ := List.mem_flatten.mp h0
  exact segment_nonzero hcs (hsegment []) word hword hmem

theorem zero_not_mem_scalars (h0 : (0 : UInt8) ∉ cs.flatMap encode) : 0 ∉ cs := fun hmem =>
  h0 (List.mem_flatMap.mpr ⟨0, hmem, by decide⟩)

theorem Keeps.not_overruns (h0 : 0 ∉ text) (hkeeps : Keeps t text) : ¬ t.OverrunsIn text := by
  rintro ⟨before, word, after, node, s, rfl, hcs, hne, hfind, hs, hlt⟩
  exact not_keeps_of_overruns hcs (zero_not_mem_scalars h0) (overrunsAt_append hfind hs hlt hne) hkeeps

/-- 失われない文は、零がなく、`utf8_to_wchar` に収まり、負の長さの語尾の後の文字が足りている。負の長さの語尾が文の中になければ、逆も
成り立つ。全ての短い文が失われないのは、負の長さの語尾がどの短い文の中にもないときである。 -/
theorem segment_keeps (dict : Dictionary h) {suffixFile : Bytes} {suffixDict : SuffixDictionary h}
    (hload : loadSuffixes suffixFile .empty = .ok suffixDict) :
    (∀ text, WellFormed text → Keeps (Tokenizer.of dict suffixDict) text →
        0 ∉ text ∧ Fits text ∧ ¬ (Tokenizer.of dict suffixDict).OverrunsIn text) ∧
      (∀ text, WellFormed text → ¬ (Tokenizer.of dict suffixDict).NegativeIn text →
        0 ∉ text → Fits text → Keeps (Tokenizer.of dict suffixDict) text) ∧
      ((∀ text, WellFormed text → 0 ∉ text → text.length + 1 < 2 ^ 31 →
        Keeps (Tokenizer.of dict suffixDict) text) ↔ ∀ text, WellFormed text → 0 ∉ text →
        text.length + 1 < 2 ^ 31 → ¬ (Tokenizer.of dict suffixDict).NegativeIn text) := by
  have hloaded : suffixDict.Loaded := loadSuffixes_loaded (fun entry hentry => (by cases hentry)) hload
  have hkeeps : ∀ text, WellFormed text → ¬ (Tokenizer.of dict suffixDict).NegativeIn text →
      0 ∉ text → Fits text → Keeps (Tokenizer.of dict suffixDict) text := by
    intro text hw hnot h0 hfits
    obtain ⟨cs, hcs, rfl⟩ := hw.exists_scalars
    exact keeps_of_positive hcs (zero_not_mem_scalars h0) hfits
      (positiveIn_of_not_negative (fun _ _ hfind _ hs => hloaded.find hfind hs) hcs hnot)
  refine ⟨fun text hw hk => ?_, hkeeps, ?_, ?_⟩
  · obtain ⟨h0, hfits⟩ := hk.nonzero hw
    exact ⟨h0, hfits, hk.not_overruns h0⟩
  · -- 負の長さの語尾の文字だけの文は、後の文字を持たない。
    rintro hall text - h0 hshort ⟨word, node, s, hfind, hs, hneg, hne, hword, hwithin⟩
    have h0' : (0 : UInt8) ∉ word.flatMap encode := fun hmem => h0 (hwithin.subset hmem)
    have hle := hwithin.length_le
    have hself : [] ++ word ++ [] = word := List.append_nil word
    have hkept := hall _ (wellFormed_flatMap_encode hword) h0' (by omega)
    refine hkept.not_overruns h0' ⟨[], word, [], node, s, by rw [hself], by rwa [hself], hne, hfind, hs, ?_⟩
    rw [List.length_nil]
    omega
  · intro hnot text hw h0 hshort
    exact hkeeps text hw (hnot text hw h0 hshort) h0 (fits_of_short hshort)

theorem segment_keeps_sample : Keeps (Tokenizer.of sampleDict sampleSuffixDict) [0x61, 0x62] := by
  have hcs : ∀ c ∈ [0x61, 0x62], IsScalar c := by decide
  have hw : WellFormed [0x61, 0x62] := wellFormed_flatMap_encode hcs
  refine (segment_keeps sampleDict loadSuffixes_sample).2.1 _ hw ?_ (by decide) (fits_of_short (by decide))
  rintro ⟨word, node, s, hfind, -, -, -, -, hwithin⟩
  obtain ⟨entry, hentry, -⟩ := Option.map_eq_some_iff.mp hfind
  have hkey : entry.1 = word := by simpa using List.find?_some hentry
  cases List.mem_singleton.mp (List.mem_of_find?_eq_some hentry)
  rw [← hkey] at hwithin
  exact absurd hwithin (by decide)

/-- 読まれた辞書の負の長さの語尾は、その文字だけの文を分けられなくする。零を含む文は、どの辞書でも失われる。 -/
theorem segment_overruns :
    load sampleFile .empty = .ok sampleDict ∧ loadSuffixes sampleSuffixFile .empty = .ok sampleSuffixDict ∧
      WellFormed [0x63, 0x64] ∧ ¬ Keeps (Tokenizer.of sampleDict sampleSuffixDict) [0x63, 0x64] ∧
      WellFormed [0x61, 0x00, 0x62] ∧ ¬ Keeps (Tokenizer.of sampleDict sampleSuffixDict) [0x61, 0x00, 0x62] := by
  have hcs : ∀ c ∈ [0x63, 0x64], IsScalar c := by decide
  have hfind : (Tokenizer.of sampleDict sampleSuffixDict).suffixDict.find [0x63, 0x64] = some ⟨[⟨-2, -5⟩]⟩ := rfl
  have hover := @overrunsAt_append _ _ _ [] [0x63, 0x64] [] _ ⟨-2, -5⟩ hfind
      (List.mem_singleton.mpr rfl) (by decide) (by decide)
  have hscalars : ∀ c ∈ [0x61, 0x00, 0x62], IsScalar c := by decide
  have hzero : WellFormed [0x61, 0x00, 0x62] := wellFormed_flatMap_encode hscalars
  refine ⟨load_sample, loadSuffixes_sample, wellFormed_flatMap_encode hcs, not_keeps_of_overruns hcs
    (by decide) hover, hzero, ?_⟩
  exact fun hkeeps => (hkeeps.nonzero hzero).1 (by decide)

end UnixCommons.Language.Polyglot
