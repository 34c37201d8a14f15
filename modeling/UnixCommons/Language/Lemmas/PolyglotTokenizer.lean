import Mathlib.Tactic
import UnixCommons.Language.PolyglotTokenizer
import UnixCommons.Lib.LongestPath

/-!
# 語に分けることの補題

後ろから `k` まで調べた時の条件を、一つの位置を調べる歩みが保つ。
-/

namespace UnixCommons.Language.Polyglot

open Lib

/-! ## 一文字ずつ探す表 -/

section IncHashTable

variable {κ η α σ : Type} [DecidableEq κ] [DecidableEq η] {h : IncHash κ η}
    {table : IncHashTable h α} {key cs : List κ} {a : α} {j j' : Nat}

def IncHashTable.found (table : IncHashTable h α) : List κ → List κ → Nat → List (Nat × α)
  | _, [], _ => []
  | key, c :: cs, j =>
      ((table.find (key ++ [c])).map fun a => (j, a)).toList ++
        if table.continues (key ++ [c]) then found table (key ++ [c]) cs (j + 1) else []

theorem scan_eq_foldl (body : Nat → α → σ → σ) (s : σ) :
    table.scan body key cs j s = (table.found key cs j).foldl (fun s x => body x.1 x.2 s) s := by
  induction cs generalizing key j s with
  | nil => rfl
  | cons c cs ih =>
      simp only [IncHashTable.scan, IncHashTable.found]
      cases hf : table.find (key ++ [c]) with
      | none =>
          cases hc : table.continues (key ++ [c]) with
          | true => simp [ih]
          | false => simp
      | some a =>
          cases hc : table.continues (key ++ [c]) with
          | true => simp [ih]
          | false => simp

omit [DecidableEq η] in
theorem hash_mem_of_find {k : Nat} (hf : table.find key = some a) (hpos : 0 < k)
    (hlt : k < key.length) : h.hash (key.take k) ∈ table.interTable := by
  obtain ⟨entry, hentry, -⟩ := Option.map_eq_some_iff.mp hf
  have hkey : entry.1 = key := by simpa using List.find?_some hentry
  rw [← hkey] at hlt ⊢
  exact table.complete entry (List.mem_of_find?_eq_some hentry) k hpos hlt

theorem continues_of_find {c : κ} {rest : List κ} (hf : table.find (key ++ c :: rest) = some a)
    (hrest : rest ≠ []) : table.continues (key ++ [c]) = true := by
  have hmem := hash_mem_of_find (k := key.length + 1) hf (Nat.succ_pos _) (by
    have hpos := List.length_pos_of_ne_nil hrest
    simp only [List.length_append, List.length_cons]
    omega)
  have htake : (key ++ c :: rest).take (key.length + 1) = key ++ [c] := by simp [List.take_append]
  rw [htake] at hmem
  exact decide_eq_true hmem

theorem mem_found : (j', a) ∈ table.found key cs j ↔ ∃ k, k < cs.length ∧ j' = j + k ∧ table.find
    (key ++ cs.take (k + 1)) = some a := by
  induction cs generalizing key j with
  | nil => simp [IncHashTable.found]
  | cons c cs ih =>
      simp only [IncHashTable.found, List.mem_append, Option.mem_toList, Option.map_eq_some_iff, Prod.mk.injEq]
      constructor
      · rintro (⟨b, hf, rfl, rfl⟩ | hmem)
        · exact ⟨0, Nat.succ_pos _, rfl, by simpa using hf⟩
        · split at hmem
          · obtain ⟨k, hk, rfl, hf⟩ := ih.mp hmem
            exact ⟨k + 1, Nat.succ_lt_succ hk, by omega, by simpa using hf⟩
          · simp at hmem
      · rintro ⟨k, hk, rfl, hf⟩
        cases k with
        | zero => exact .inl ⟨a, by simpa using hf, rfl, rfl⟩
        | succ k =>
            have hk : k < cs.length := Nat.lt_of_succ_lt_succ hk
            rw [List.take_succ_cons] at hf
            have hne : cs.take (k + 1) ≠ [] := by
              intro hnil
              have hlen := congrArg List.length hnil
              simp only [List.length_take, List.length_nil] at hlen
              omega
            right
            rw [if_pos (continues_of_find hf hne)]
            exact ih.mpr ⟨k, hk, by omega, by simpa using hf⟩

end IncHashTable

/-! ## 語と語尾の辺 -/

def slice (text : List Nat) (first last : Nat) : List Nat := (text.drop first).take (last - first)

def AsianRange (text : List Nat) (first last : Nat) : Prop := ∀ p, first ≤ p → p < last → (text[p]?).all isAsianChar = true

variable {η : Type} [DecidableEq η] {h : IncHash Nat η} {t : Tokenizer h} {text : List Nat}
    {i j k n p q last : Nat} {vec vec' : Points}

def Tokenizer.WordAt (t : Tokenizer h) (text : List Nat) (first last : Nat) (node : DictionaryNode) : Prop :=
  first < last ∧ last ≤ text.length ∧ t.dict.find (slice text first last) = some node

/-- 語尾の文字が `start` から `last` の前までにあり、`first` から始まる語尾である。 -/
def Tokenizer.SuffixAt (t : Tokenizer h) (text : List Nat) (start first last : Nat) (s : Suffix) : Prop :=
  start < last ∧ last ≤ text.length ∧ first + s.length.toNat = last ∧
    ∃ node, t.suffixDict.find (slice text start last) = some node ∧ s ∈ node.suffixes

/-- 文の中のどの語尾も、`long` の長さで、その文字より長い。 -/
def Tokenizer.LongerIn (t : Tokenizer h) (text : List Nat) : Prop :=
  ∀ i j node, i ≤ j → j < text.length → t.suffixDict.find (slice text i (j + 1)) = some node →
    ∀ s ∈ node.suffixes, (j : Int) + 1 < i + s.len

def Tokenizer.Edge (t : Tokenizer h) (text : List Nat) (first last : Nat) (weight : Int) : Prop :=
  (first < text.length ∧ last = first + 1 ∧ weight = t.minEl + 1) ∨
    (∃ node, t.WordAt text first last node ∧ weight = node.freq) ∨
    ∃ start s, t.SuffixAt text start first last s ∧ AsianRange text first last ∧ weight = s.freq

omit [DecidableEq η] in
theorem slice_length (hlt : last ≤ text.length) : (slice text i last).length = last - i := by
  simp only [slice, List.length_take, List.length_drop]
  omega

theorem Suffix.len_eq {s : Suffix} (hlt : s.length.toNat < 2 ^ 63) : s.len = s.length.toNat :=
  if_pos hlt

theorem Suffix.len_eq_sub {s : Suffix} (hge : 2 ^ 63 ≤ s.length.toNat) :
    s.len = s.length.toNat - 0x10000000000000000 := if_neg (Nat.not_lt.mpr hge)

theorem Suffix.len_of_pos {s : Suffix} (hpos : 0 < s.len) : s.len = s.length.toNat := by
  rcases Nat.lt_or_ge s.length.toNat (2 ^ 63) with hlt | hge
  · exact Suffix.len_eq hlt
  · have hlt := s.length.toNat_lt
    rw [Suffix.len_eq_sub hge] at hpos
    omega

omit [DecidableEq η] in
theorem Tokenizer.LongerIn.slice (hs : t.LongerIn text) {first : Nat} {node : SuffixDictionaryNode}
    {s : Suffix} (hlt : first < last) (hle : last ≤ text.length)
    (hfind : t.suffixDict.find (slice text first last) = some node) (hmem : s ∈ node.suffixes) :
    last < first + s.length.toNat := by
  have hsucc : last - 1 + 1 = last := Nat.sub_add_cancel (by omega)
  have hlonger := hs first (last - 1) node (by omega) (by omega) (by rwa [hsucc]) s hmem
  rw [Suffix.len_of_pos (by omega)] at hlonger
  omega

omit [DecidableEq η] in
theorem Tokenizer.SuffixAt.first_lt (hs : t.LongerIn text) {start : Nat} {s : Suffix}
    (h : t.SuffixAt text start i last s) : i < start := by
  obtain ⟨hlt, hle, hlen, node, hfind, hmem⟩ := h
  have hlonger := hs.slice hlt hle hfind hmem
  omega

omit [DecidableEq η] in
theorem Tokenizer.edge_forward (hs : t.LongerIn text) : Forward (t.Edge text) text.length := by
  rintro i j v (⟨hi, rfl, -⟩ | ⟨node, ⟨hlt, hle, -⟩, -⟩ | ⟨start, s, hsuffix, -, -⟩)
  · exact ⟨Nat.lt_succ_self i, hi⟩
  · exact ⟨hlt, hle⟩
  · exact ⟨Nat.lt_trans (hsuffix.first_lt hs) hsuffix.1, hsuffix.2.1⟩

theorem mem_found_text {α : Type} {table : IncHashTable h α} {a : α} :
    (j, a) ∈ table.found [] (text.drop i) i ↔ i ≤ j ∧ j < text.length ∧ table.find (slice text i (j + 1)) = some a := by
  rw [mem_found]
  constructor
  · rintro ⟨k, hk, rfl, hf⟩
    rw [List.length_drop] at hk
    have hlen : i + k + 1 - i = k + 1 := by omega
    exact ⟨Nat.le_add_right _ _, by omega, by rwa [slice, hlen]⟩
  · rintro ⟨hij, hj, hf⟩
    have hlen : j - i + 1 = j + 1 - i := by omega
    refine ⟨j - i, ?_, by omega, ?_⟩
    · rw [List.length_drop]
      omega
    · rwa [List.nil_append, hlen]

/-! ## 語の候補 -/

def BiTokenizePoint.weights (point : BiTokenizePoint) : Set Int :=
  {x | x = point.unkWeight ∨ (∃ v ∈ point.variants, v.weight = x) ∨ ∃ sv ∈ point.suffixVariants, sv.weight = x}

def BiTokenizePoint.Best (point : BiTokenizePoint) : Prop := IsGreatest point.weights point.weight

theorem addVariant_best {node : DictionaryNode} (h : (vec i).Best) : (addVariant i j node vec i).Best := by
  have hinsert := IsGreatest.insert (collect (vec (j + 1)).weight node.freq) h
  have hweights : (addVariant i j node vec i).weights = insert (collect (vec (j + 1)).weight node.freq) (vec i).weights := by
    ext x
    simp only [addVariant, Function.update_self, BiTokenizePoint.weights, List.mem_append,
      List.mem_singleton, Set.mem_insert_iff, Set.mem_ofPred_eq]
    grind
  rw [BiTokenizePoint.Best, hweights, addVariant, Function.update_self, max_comm]
  exact hinsert

theorem foldl_addVariant {found : List (Nat × DictionaryNode)} (hfound : ∀ x ∈ found, i ≤ x.1)
    (hbest : (vec i).Best) (hvec : vec' = found.foldl (fun vec x => addVariant i x.1 x.2 vec) vec) :
    (∀ q, q ≠ i → vec' q = vec q) ∧ (vec' i).Best ∧ (vec' i).unkWeight = (vec i).unkWeight ∧
      (vec' i).suffixVariants = (vec i).suffixVariants ∧
      ∀ v, v ∈ (vec' i).variants ↔ v ∈ (vec i).variants ∨ ∃ x ∈ found,
      v = ⟨x.2, (vec (x.1 + 1)).weight + x.2.freq, x.1 + 1⟩ := by
  induction found generalizing vec with
  | nil =>
      cases hvec
      exact ⟨fun _ _ => rfl, hbest, rfl, rfl, by simp⟩
  | cons x found ih =>
      rw [List.forall_mem_cons] at hfound
      obtain ⟨hframe, hbest', hunk, hsuffix, hmem⟩ := ih hfound.2 (addVariant_best hbest) hvec
      have hother : ∀ q, q ≠ i → addVariant i x.1 x.2 vec q = vec q := fun q hq => Function.update_of_ne hq _ _
      refine ⟨fun q hq => (hframe q hq).trans (hother q hq), hbest', ?_, ?_, fun v => ?_⟩
      · rw [hunk, addVariant, Function.update_self]
      · rw [hsuffix, addVariant, Function.update_self]
      · have hvariants : (addVariant i x.1 x.2 vec i).variants =
            (vec i).variants ++ [⟨x.2, (vec (x.1 + 1)).weight + x.2.freq, x.1 + 1⟩] := by
          rw [addVariant, Function.update_self]
          rfl
        -- 後に加える語は、変わらない重さを読む。
        have hrest : ∀ y ∈ found, addVariant i x.1 x.2 vec (y.1 + 1) = vec (y.1 + 1) := fun y hy =>
          hother _ (Nat.ne_of_gt (Nat.lt_succ_of_le (hfound.2 y hy)))
        rw [hmem, hvariants, List.mem_append, List.mem_singleton, List.exists_mem_cons_iff]
        constructor
        · rintro ((hv | hv) | ⟨y, hy, hv⟩)
          · exact .inl hv
          · exact .inr (.inl hv)
          · exact .inr (.inr ⟨y, hy, by rw [hv, hrest y hy]⟩)
        · rintro (hv | hv | ⟨y, hy, hv⟩)
          · exact .inl (.inl hv)
          · exact .inl (.inr hv)
          · exact .inr ⟨y, hy, by rw [hv, hrest y hy]⟩

theorem foldl_addSuffix {found : List (Nat × Suffix)}
    (hfound : ∀ y ∈ found, i ≤ y.1 ∧ (y.1 : Int) + 1 < i + y.2.len)
    (hvec : vec' = found.foldl (fun vec y => addSuffix y.1 y.2 vec) vec) :
    (∀ q, i ≤ q → vec' q = vec q) ∧ (∀ p, (vec' p).variants = (vec p).variants) ∧
      ∀ p sv, p < i → (sv ∈ (vec' p).suffixVariants ↔ sv ∈ (vec p).suffixVariants ∨
        ∃ y ∈ found, (p : Int) + y.2.len = y.1 + 1 ∧ sv = ⟨y.2, (vec (y.1 + 1)).weight + y.2.freq, y.1 + 1⟩) := by
  induction found generalizing vec with
  | nil =>
      cases hvec
      exact ⟨fun _ _ => rfl, fun _ => rfl, by simp⟩
  | cons x found ih =>
      rw [List.forall_mem_cons] at hfound
      rw [List.foldl_cons] at hvec
      obtain ⟨hframe, hvariants, hmem⟩ := ih hfound.2 hvec
      obtain ⟨hix, hlong⟩ := hfound.1
      have hother : ∀ q, i ≤ q → addSuffix x.1 x.2 vec q = vec q := by
        intro q hq
        unfold addSuffix
        split
        · exact Function.update_of_ne (by omega) _ _
        · rfl
      have hsame : ∀ p, (addSuffix x.1 x.2 vec p).variants = (vec p).variants := by
        intro p
        unfold addSuffix
        split
        · by_cases hp : p = ((x.1 : Int) + 1 - x.2.len).toNat
          · simp [hp]
          · simp [hp]
        · rfl
      have hadded : ∀ p sv, p < i → (sv ∈ (addSuffix x.1 x.2 vec p).suffixVariants ↔ sv ∈ (vec p).suffixVariants ∨
          ((p : Int) + x.2.len = x.1 + 1 ∧ sv = ⟨x.2, (vec (x.1 + 1)).weight + x.2.freq, x.1 + 1⟩)) := by
        intro p sv _
        unfold addSuffix
        split
        · by_cases hp : p = ((x.1 : Int) + 1 - x.2.len).toNat
          · have heq : (p : Int) + x.2.len = x.1 + 1 := by omega
            simp [← hp, heq, collect]
          · have hne : (p : Int) + x.2.len ≠ x.1 + 1 := by omega
            simp [hp, hne]
        · have hne : (p : Int) + x.2.len ≠ x.1 + 1 := by omega
          simp [hne]
      refine ⟨fun q hq => (hframe q hq).trans (hother q hq), fun p => (hvariants p).trans (hsame p), fun p sv hp => ?_⟩
      have hrest : ∀ y ∈ found, addSuffix x.1 x.2 vec (y.1 + 1) = vec (y.1 + 1) := fun y hy =>
        hother _ (Nat.le_succ_of_le (hfound.2 y hy).1)
      rw [hmem p sv hp, hadded p sv hp, List.exists_mem_cons_iff]
      constructor
      · rintro ((hv | hv) | ⟨y, hy, heq, hv⟩)
        · exact .inl hv
        · exact .inr (.inl hv)
        · exact .inr (.inr ⟨y, hy, heq, by rw [hv, hrest y hy]⟩)
      · rintro (hv | hv | ⟨y, hy, heq, hv⟩)
        · exact .inl (.inl hv)
        · exact .inl (.inr hv)
        · exact .inr ⟨y, hy, heq, by rw [hv, hrest y hy]⟩

/-! ## 一つの位置 -/

theorem foldl_max_best {S : Set Int} {m : Int} {svs : List SuffixVariant} (h : IsGreatest S m) :
    IsGreatest (S ∪ {x | ∃ sv ∈ svs, sv.weight = x}) (svs.foldl (fun weight sv => max weight sv.weight) m) := by
  induction svs generalizing S m with
  | nil => simpa using h
  | cons sv svs ih =>
      have hinsert := IsGreatest.insert sv.weight h
      rw [max_comm] at hinsert
      have hrest := ih hinsert
      have hset : S ∪ {x | ∃ y ∈ sv :: svs, y.weight = x} = insert sv.weight S ∪ {x | ∃ y ∈ svs, y.weight = x} := by
        ext x
        simp only [Set.mem_union, Set.mem_insert_iff, Set.mem_ofPred_eq, List.exists_mem_cons_iff]
        grind
      rw [hset]
      exact hrest

theorem openPoint_spec (minEl : Int) (length sepPos : Nat) (hvariants : (vec i).variants = []) :
    (openPoint minEl length sepPos i vec).Best ∧ (openPoint minEl length sepPos i vec).unkWeight =
    minEl + 1 + (vec (i + 1)).weight ∧
      (openPoint minEl length sepPos i vec).variants = [] ∧
      ∀ sv, sv ∈ (openPoint minEl length sepPos i vec).suffixVariants ↔
      sv ∈ (vec i).suffixVariants ∧ sv.sepPos ≤ sepPos := by
  have hunk : (openPoint minEl length sepPos i vec).unkWeight = minEl + 1 + (vec (i + 1)).weight := by
    simp only [openPoint]
    split <;> rfl
  refine ⟨?_, hunk, hvariants, fun sv => by simp [openPoint]⟩
  have hset : (openPoint minEl length sepPos i vec).weights = {(openPoint minEl length sepPos i vec).unkWeight} ∪
      {x | ∃ sv ∈ (openPoint minEl length sepPos i vec).suffixVariants, sv.weight = x} := by
    ext x
    have hempty : (openPoint minEl length sepPos i vec).variants = [] := hvariants
    simp [BiTokenizePoint.weights, hempty]
  rw [BiTokenizePoint.Best, hset]
  exact foldl_max_best isGreatest_singleton

structure PointOk (t : Tokenizer h) (text : List Nat) (vec : Points) (i : Nat) : Prop where
  best : (vec i).Best
  unk : (vec i).unkWeight = t.minEl + 1 + (vec (i + 1)).weight
  variants : ∀ v, v ∈ (vec i).variants ↔ t.WordAt text i v.sepPos v.node ∧ v.weight = (vec v.sepPos).weight + v.node.freq
  suffixes : ∀ sv, sv ∈ (vec i).suffixVariants ↔
    (∃ start, t.SuffixAt text start i sv.sepPos sv.node) ∧ AsianRange text i sv.sepPos ∧
    sv.weight = (vec sv.sepPos).weight + sv.node.freq

structure Stage (t : Tokenizer h) (text : List Nat) (k : Nat) (vec : Points) (sepPos : Nat) : Prop where
  last : (vec text.length).weight = 0
  done : ∀ i, k ≤ i → i < text.length → PointOk t text vec i
  empty : ∀ p, p < k → (vec p).variants = []
  ahead : ∀ p, p < k → ∀ sv, sv ∈ (vec p).suffixVariants ↔
    (∃ start, k ≤ start ∧ t.SuffixAt text start p sv.sepPos sv.node) ∧ sv.weight = (vec sv.sepPos).weight + sv.node.freq
  separator : ∀ last, k ≤ last → last ≤ text.length → (AsianRange text k last ↔ last ≤ sepPos)

omit [DecidableEq η] in
theorem Stage.init : Stage t text text.length (initPoints t.minEl text.length) text.length := by
  refine ⟨?_, ?_, ?_, ?_, ?_⟩
  · simp [initPoints, start]
  · intro i hi hlt
    omega
  · intro p hp
    simp [initPoints, Nat.ne_of_lt hp]
  · intro p hp sv
    have hnone : (initPoints t.minEl text.length p).suffixVariants = [] := by simp [initPoints, Nat.ne_of_lt hp]
    rw [hnone]
    constructor
    · intro hmem
      cases hmem
    · rintro ⟨⟨start, hstart, hlt, hle, -⟩, -⟩
      omega
  · intro last hk hlast
    refine ⟨fun _ => hlast, fun _ p hp hlt => ?_⟩
    omega

omit [DecidableEq η] in
theorem PointOk.congr (hs : t.LongerIn text) (hp : PointOk t text vec i)
    (heq : ∀ q, i ≤ q → vec' q = vec q) : PointOk t text vec' i := by
  refine ⟨by rw [heq i (Nat.le_refl i)]; exact hp.best, ?_, fun v => ?_, fun sv => ?_⟩
  · rw [heq i (Nat.le_refl i), heq (i + 1) (Nat.le_succ i)]
    exact hp.unk
  · rw [heq i (Nat.le_refl i), hp.variants]
    refine and_congr_right fun hword => ?_
    rw [heq v.sepPos (Nat.le_of_lt hword.1)]
  · rw [heq i (Nat.le_refl i), hp.suffixes]
    refine and_congr_right fun hsuffix => ?_
    obtain ⟨start, hstart⟩ := hsuffix
    rw [heq sv.sepPos (Nat.le_of_lt (Nat.lt_trans (hstart.first_lt hs) hstart.1))]

omit [DecidableEq η] in
theorem separator_step {sepPos : Nat} (hi : i < text.length)
    (hsep : ∀ last, i + 1 ≤ last → last ≤ text.length → (AsianRange text (i + 1) last ↔ last ≤ sepPos)) (hle : i ≤ last)
    (hlast : last ≤ text.length) : AsianRange text i last ↔ last ≤ if (text[i]?).all isAsianChar then sepPos else i := by
  have hbase : i + 1 ≤ sepPos := (hsep (i + 1) (Nat.le_refl _) hi).mp fun p hp hlt => by omega
  rcases Nat.eq_or_lt_of_le hle with rfl | hlt
  · refine ⟨fun _ => ?_, fun _ p hp hlt => by omega⟩
    split
    · omega
    · exact Nat.le_refl i
  · have hsplit : AsianRange text i last ↔ (text[i]?).all isAsianChar = true ∧ AsianRange text (i + 1) last := by
      constructor
      · exact fun hr => ⟨hr i (Nat.le_refl i) hlt, fun p hp hpl => hr p (Nat.le_of_succ_le hp) hpl⟩
      · rintro ⟨hfirst, hrest⟩ p hp hpl
        rcases Nat.eq_or_lt_of_le hp with rfl | hip
        · exact hfirst
        · exact hrest p hip hpl
    rw [hsplit, hsep last hlt hlast]
    split
    · rename_i hasian
      exact and_iff_right hasian
    · rename_i hasian
      refine ⟨fun hr => absurd hr.1 hasian, fun hr => ?_⟩
      omega

structure Visited (t : Tokenizer h) (text : List Nat) (i sepPos : Nat) (vec vec' : Points) : Prop where
  after : ∀ q, i < q → vec' q = vec q
  best : (vec' i).Best
  unk : (vec' i).unkWeight = t.minEl + 1 + (vec (i + 1)).weight
  variants : ∀ v, v ∈ (vec' i).variants ↔ t.WordAt text i v.sepPos v.node ∧ v.weight = (vec v.sepPos).weight + v.node.freq
  kept : ∀ sv, sv ∈ (vec' i).suffixVariants ↔ sv ∈ (vec i).suffixVariants ∧ sv.sepPos ≤ sepPos
  before : ∀ p, p < i → (vec' p).variants = (vec p).variants
  added : ∀ p, p < i → ∀ sv, sv ∈ (vec' p).suffixVariants ↔ sv ∈ (vec p).suffixVariants ∨
    (t.SuffixAt text i p sv.sepPos sv.node ∧ sv.weight = (vec' sv.sepPos).weight + sv.node.freq)

theorem scan_words {sepPos : Nat} (hvariants : (vec i).variants = [])
    (hvec : vec' = t.dict.scan (addVariant i) [] (text.drop i) i
    (Function.update vec i (openPoint t.minEl text.length sepPos i vec))) :
    (∀ q, q ≠ i → vec' q = vec q) ∧ (vec' i).Best ∧ (vec' i).unkWeight = t.minEl + 1 + (vec (i + 1)).weight ∧
      (∀ sv, sv ∈ (vec' i).suffixVariants ↔ sv ∈ (vec i).suffixVariants ∧ sv.sepPos ≤ sepPos) ∧
      ∀ v, v ∈ (vec' i).variants ↔ t.WordAt text i v.sepPos v.node ∧ v.weight = (vec v.sepPos).weight + v.node.freq := by
  obtain ⟨hbest, hunk, hempty, hkept⟩ := openPoint_spec t.minEl text.length sepPos hvariants
  generalize hopen : Function.update vec i (openPoint t.minEl text.length sepPos i vec) = opened at hvec
  have hself : opened i = openPoint t.minEl text.length sepPos i vec := by rw [← hopen, Function.update_self]
  have hother : ∀ q, q ≠ i → opened q = vec q := fun q hq => by rw [← hopen, Function.update_of_ne hq]
  rw [scan_eq_foldl] at hvec
  obtain ⟨hframe, hbest', hunk', hsuffix', hvariants'⟩ :=
    foldl_addVariant (fun x hx => (mem_found_text.mp hx).1) (by rw [hself]; exact hbest) hvec
  refine ⟨fun q hq => (hframe q hq).trans (hother q hq), hbest', ?_, fun sv => ?_, fun v => ?_⟩
  · rw [hunk', hself, hunk]
  · rw [hsuffix', hself, hkept]
  · rw [hvariants', hself, hempty]
    constructor
    · rintro (hnil | ⟨x, hx, rfl⟩)
      · cases hnil
      · obtain ⟨hix, hxn, hfind⟩ := mem_found_text.mp hx
        exact ⟨⟨Nat.lt_succ_of_le hix, hxn, hfind⟩, by simp only [hother _ (Nat.ne_of_gt (Nat.lt_succ_of_le hix))]⟩
    · rintro ⟨⟨hlt, hle, hfind⟩, hweight⟩
      have hsucc : v.sepPos - 1 + 1 = v.sepPos := Nat.sub_add_cancel (by omega)
      refine .inr ⟨(v.sepPos - 1, v.node), mem_found_text.mpr ⟨by omega, by omega, by rwa [hsucc]⟩, ?_⟩
      simp only [hsucc]
      rw [hother _ (Nat.ne_of_gt hlt), ← hweight]

theorem scan_suffixes (hs : t.LongerIn text)
    (hvec : vec' = t.suffixDict.scan (fun j node vec => node.suffixes.foldl
    (fun vec s => addSuffix j s vec) vec) [] (text.drop i) i vec) :
    (∀ q, i ≤ q → vec' q = vec q) ∧ (∀ p, (vec' p).variants = (vec p).variants) ∧
      ∀ p, p < i → ∀ sv, sv ∈ (vec' p).suffixVariants ↔ sv ∈ (vec p).suffixVariants ∨
        (t.SuffixAt text i p sv.sepPos sv.node ∧ sv.weight = (vec' sv.sepPos).weight + sv.node.freq) := by
  rw [scan_eq_foldl] at hvec
  generalize hfound : t.suffixDict.found [] (text.drop i) i = found at hvec
  have hflat : vec' = (found.flatMap fun x => x.2.suffixes.map fun s => (x.1, s)).foldl
      (fun vec y => addSuffix y.1 y.2 vec) vec := by
    rw [hvec, List.foldl_flatMap]
    simp only [List.foldl_map]
  have hmem : ∀ j s, (j, s) ∈ (found.flatMap fun x => x.2.suffixes.map fun s => (x.1, s)) ↔
      i ≤ j ∧ j < text.length ∧ ∃ node, t.suffixDict.find (slice text i (j + 1)) = some node ∧ s ∈ node.suffixes := by
    intro j s
    simp only [List.mem_flatMap, List.mem_map, Prod.mk.injEq, Prod.exists]
    constructor
    · rintro ⟨j', node, hnode, s', hs', rfl, rfl⟩
      rw [← hfound, mem_found_text] at hnode
      exact ⟨hnode.1, hnode.2.1, node, hnode.2.2, hs'⟩
    · rintro ⟨hij, hj, node, hfind, hsuffix⟩
      refine ⟨j, node, ?_, s, hsuffix, rfl, rfl⟩
      rw [← hfound, mem_found_text]
      exact ⟨hij, hj, hfind⟩
  have hlong : ∀ y ∈ (found.flatMap fun x => x.2.suffixes.map fun s => (x.1, s)), i ≤ y.1 ∧
      (y.1 : Int) + 1 < i + y.2.len := by
    rintro ⟨j, s⟩ hy
    obtain ⟨hij, hj, node, hfind, hsuffix⟩ := (hmem j s).mp hy
    exact ⟨hij, hs i j node hij hj hfind s hsuffix⟩
  obtain ⟨hframe, hvariants, hadded⟩ := foldl_addSuffix hlong hflat
  refine ⟨hframe, hvariants, fun p hp sv => ?_⟩
  rw [hadded p sv hp]
  refine or_congr_right ⟨?_, ?_⟩
  · rintro ⟨⟨j, s⟩, hy, hlen, rfl⟩
    obtain ⟨hij, hj, node, hfind, hmems⟩ := (hmem j s).mp hy
    have hlonger := hs i j node hij hj hfind s hmems
    rw [Suffix.len_of_pos (by omega)] at hlen
    exact ⟨⟨Nat.lt_succ_of_le hij, hj, Int.ofNat_inj.mp hlen, node, hfind, hmems⟩,
      by simp only [hframe _ (Nat.le_succ_of_le hij)]⟩
  · rintro ⟨⟨hlt, hle, hlen, node, hfind, hmems⟩, hweight⟩
    have hsucc : sv.sepPos - 1 + 1 = sv.sepPos := Nat.sub_add_cancel (by omega)
    refine ⟨(sv.sepPos - 1, sv.node), (hmem _ _).mpr ⟨by omega, by omega, node, by rwa [hsucc], hmems⟩, ?_, ?_⟩
    · have hlonger := hs i (sv.sepPos - 1) node (by omega) (by omega) (by rwa [hsucc]) sv.node hmems
      simp only
      rw [Suffix.len_of_pos (by omega)]
      omega
    · simp only [hsucc]
      rw [← hframe _ (Nat.le_of_lt hlt), ← hweight]

theorem visit_spec (text : List Nat) (sepPos : Nat) (hs : t.LongerIn text) (hvariants : (vec i).variants = []) :
    Visited t text i (visit t text i (vec, sepPos)).2 vec (visit t text i (vec, sepPos)).1 := by
  simp only [visit]
  generalize hsep : (if (text[i]?).all isAsianChar then sepPos else i) = sepPos'
  generalize hwords : t.dict.scan (addVariant i) [] (text.drop i) i
    (Function.update vec i (openPoint t.minEl text.length sepPos' i vec)) = words
  generalize hall : t.suffixDict.scan (fun j node vec => node.suffixes.foldl
    (fun vec s => addSuffix j s vec) vec) [] (text.drop i) i words = vec'
  obtain ⟨hframe, hbest, hunk, hkept, hmem⟩ := scan_words hvariants hwords.symm
  obtain ⟨hafter, hbefore, hadded⟩ := scan_suffixes hs hall.symm
  have hself : vec' i = words i := hafter i (Nat.le_refl i)
  refine ⟨fun q hq => ?_, by rwa [hself], by rwa [hself], by rwa [hself], by rwa [hself], fun p hp => ?_, fun p hp sv => ?_⟩
  · rw [hafter q (Nat.le_of_lt hq), hframe q (Nat.ne_of_gt hq)]
  · rw [hbefore p, hframe p (Nat.ne_of_lt hp)]
  · rw [hadded p hp, hframe p (Nat.ne_of_lt hp)]

theorem Stage.visit {sepPos : Nat} (hs : t.LongerIn text) (hstage : Stage t text (i + 1) vec sepPos) (hi : i < text.length) :
    Stage t text i (visit t text i (vec, sepPos)).1 (visit t text i (vec, sepPos)).2 := by
  have hv := visit_spec text sepPos hs (hstage.empty i (Nat.lt_succ_self i))
  have hseparator : ∀ last, i ≤ last → last ≤ text.length →
      (AsianRange text i last ↔ last ≤ (Polyglot.visit t text i (vec, sepPos)).2) :=
    fun last hle hlast => separator_step hi hstage.separator hle hlast
  generalize Polyglot.visit t text i (vec, sepPos) = r at hv hseparator ⊢
  refine ⟨?_, ?_, ?_, ?_, hseparator⟩
  · rw [hv.after _ hi]
    exact hstage.last
  · intro p hip hp
    rcases Nat.eq_or_lt_of_le hip with rfl | hlt
    · refine ⟨hv.best, ?_, fun v => ?_, fun sv => ?_⟩
      · rw [hv.unk, hv.after _ (Nat.lt_succ_self i)]
      · rw [hv.variants]
        refine and_congr_right fun hword => ?_
        rw [hv.after _ hword.1]
      · rw [hv.kept, hstage.ahead i (Nat.lt_succ_self i)]
        constructor
        · rintro ⟨⟨⟨start, hstart, hsuffix⟩, hweight⟩, hsep⟩
          have hlt : i < sv.sepPos := Nat.lt_trans hstart hsuffix.1
          refine ⟨⟨start, hsuffix⟩, (hseparator _ (Nat.le_of_lt hlt) hsuffix.2.1).mpr hsep, ?_⟩
          rw [hv.after _ hlt, hweight]
        · rintro ⟨⟨start, hsuffix⟩, hasian, hweight⟩
          have hstart := hsuffix.first_lt hs
          have hlt : i < sv.sepPos := Nat.lt_trans hstart hsuffix.1
          rw [hv.after _ hlt] at hweight
          exact ⟨⟨⟨start, hstart, hsuffix⟩, hweight⟩, (hseparator _ (Nat.le_of_lt hlt) hsuffix.2.1).mp hasian⟩
    · exact (hstage.done p hlt hp).congr hs fun q hq => hv.after q (Nat.lt_of_lt_of_le hlt hq)
  · intro p hp
    rw [hv.before p hp]
    exact hstage.empty p (Nat.lt_succ_of_lt hp)
  · intro p hp sv
    rw [hv.added p hp, hstage.ahead p (Nat.lt_succ_of_lt hp)]
    constructor
    · rintro (⟨⟨start, hstart, hsuffix⟩, hweight⟩ | ⟨hsuffix, hweight⟩)
      · refine ⟨⟨start, Nat.le_of_succ_le hstart, hsuffix⟩, ?_⟩
        rw [hv.after _ (Nat.lt_trans hstart hsuffix.1), hweight]
      · exact ⟨⟨i, Nat.le_refl i, hsuffix⟩, hweight⟩
    · rintro ⟨⟨start, hstart, hsuffix⟩, hweight⟩
      rcases Nat.eq_or_lt_of_le hstart with rfl | hgt
      · exact .inr ⟨hsuffix, hweight⟩
      · refine .inl ⟨⟨start, hgt, hsuffix⟩, ?_⟩
        rw [hv.after _ (Nat.lt_trans hgt hsuffix.1)] at hweight
        exact hweight

theorem Stage.visitLoop (hs : t.LongerIn text) {s : Points × Nat} (hk : k ≤ text.length) (hstage : Stage t text k s.1 s.2) :
    Stage t text 0 (visitLoop t text k s).1 (visitLoop t text k s).2 := by
  induction k generalizing s with
  | zero => exact hstage
  | succ k ih => exact ih (Nat.le_of_succ_le hk) (hstage.visit hs hk)

theorem biTokenize_spec (text : List Nat) (hs : t.LongerIn text) : (biTokenize t text text.length).weight = 0 ∧
    ∀ i, i < text.length → PointOk t text (biTokenize t text) i := by
  have hstage := Stage.visitLoop hs (s := (initPoints t.minEl text.length, text.length)) (Nat.le_refl _) Stage.init
  exact ⟨hstage.last, fun i hi => hstage.done i (Nat.zero_le i) hi⟩

theorem biTokenize_bellman (text : List Nat) (hs : t.LongerIn text) :
    Bellman (t.Edge text) text.length fun i => (biTokenize t text i).weight := by
  obtain ⟨hlast, hpoint⟩ := biTokenize_spec text hs
  refine ⟨hlast, fun i hi => ?_⟩
  have hok := hpoint i hi
  have hset : candidates (t.Edge text) (fun i => (biTokenize t text i).weight) i = (biTokenize t text i).weights := by
    ext x
    constructor
    · rintro ⟨j, v, ⟨-, rfl, rfl⟩ | ⟨node, hword, rfl⟩ | ⟨start, s, hsuffix, hasian, rfl⟩, rfl⟩
      · exact .inl hok.unk.symm
      · exact .inr (.inl ⟨⟨node, _, j⟩, (hok.variants _).mpr ⟨hword, rfl⟩, Int.add_comm _ _⟩)
      · exact .inr (.inr ⟨⟨s, _, j⟩, (hok.suffixes _).mpr ⟨⟨start, hsuffix⟩, hasian, rfl⟩, Int.add_comm _ _⟩)
    · rintro (rfl | ⟨v, hv, rfl⟩ | ⟨sv, hsv, rfl⟩)
      · exact ⟨i + 1, t.minEl + 1, .inl ⟨hi, rfl, rfl⟩, hok.unk⟩
      · obtain ⟨hword, hweight⟩ := (hok.variants v).mp hv
        exact ⟨v.sepPos, v.node.freq, .inr (.inl ⟨v.node, hword, rfl⟩), by rw [hweight, Int.add_comm]⟩
      · obtain ⟨⟨start, hsuffix⟩, hasian, hweight⟩ := (hok.suffixes sv).mp hsv
        exact ⟨sv.sepPos, sv.node.freq, .inr (.inr ⟨start, sv.node, hsuffix, hasian, rfl⟩), by rw [hweight, Int.add_comm]⟩
  rw [hset]
  exact hok.best

end UnixCommons.Language.Polyglot
