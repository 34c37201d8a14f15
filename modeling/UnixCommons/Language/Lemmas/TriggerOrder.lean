import Mathlib.Data.List.Perm.Subperm
import Mathlib.Data.Finset.Max
import UnixCommons.Language.Lemmas.TriggerText
import UnixCommons.Language.Lemmas.Phrase

/-!
# 部分の並べ替えの補題

部分を並べ替えたトリガーの、最も短い書き方の長さを調べる。
-/

namespace UnixCommons.Language.NormalizeTrigger

open Lib Prune

variable {s : Simplifier} {p : Piece} {ps qs bs acc : List Piece} {T rest : Bytes}

/-! ## 最も短い書き方 -/

def firstBare : List Piece → Bool
  | [] => false
  | p :: _ => !p.quoted

def joins : List Piece → Nat
  | [] => 0
  | p :: ps => (if !p.quoted && firstBare ps then 1 else 0) + joins ps

def tight : List Piece → Bytes
  | [] => []
  | p :: ps => p.print ++ ((if !p.quoted && firstBare ps then [space] else []) ++ tight ps)

def printSize (ps : List Piece) : Nat := (ps.map fun p => p.print.length).sum

theorem length_tight (ps : List Piece) : (tight ps).length = printSize ps + joins ps := by
  induction ps with
  | nil => rfl
  | cons p ps ih =>
      rw [tight, joins, List.length_append, List.length_append, ih, printSize, printSize, List.map_cons, List.sum_cons]
      split_ifs <;> simp <;> omega

theorem tight_head (h : firstBare ps = false) : Delimited (tight ps) := by
  cases ps with
  | nil => exact fun c hc => nomatch hc
  | cons p ps =>
      have hq : p.quoted = true := by simpa [firstBare] using h
      intro c hc
      rw [tight, Piece.print, if_pos hq] at hc
      exact .inr (by simpa using hc.symm)

theorem spells_tight (ps : List Piece) : Spells ps (tight ps) := by
  induction ps with
  | nil => exact .nil fun c hc => nomatch hc
  | cons p ps ih =>
      have hnil : ∀ c ∈ ([] : Bytes), isBlank c = true := fun c hc => nomatch hc
      rw [tight]
      split_ifs with hjoin
      · refine @Spells.cons p ps [] (space :: tight ps) hnil (fun _ c hc => .inl ?_) ih.blank
        obtain rfl : space = c := by simpa using hc
        rfl
      · rw [List.nil_append]
        refine @Spells.cons p ps [] (tight ps) hnil (fun hq => tight_head ?_) ih
        simpa [hq] using hjoin

theorem Spells.printSize_le (h : Spells ps T) :
    printSize ps + joins ps ≤ T.length ∧ (firstBare ps = true → Delimited T → printSize ps + joins ps + 1 ≤ T.length) := by
  induction h with
  | nil => exact ⟨Nat.zero_le _, fun h => nomatch h⟩
  | @cons p ps blanks rest hblanks hd hrest ih =>
      have hsize : printSize (p :: ps) = p.print.length + printSize ps := by
        rw [printSize, List.map_cons, List.sum_cons, ← printSize]
      have hle : printSize ps + joins (p :: ps) ≤ rest.length := by
        rw [joins]
        split_ifs with hjoin
        · obtain ⟨hq, hfirst⟩ : p.quoted = false ∧ firstBare ps = true := by simpa using hjoin
          have := ih.2 hfirst (hd hq)
          omega
        · have := ih.1
          omega
      rw [List.length_append, List.length_append, hsize]
      refine ⟨by omega, fun hfirst hT => ?_⟩
      cases blanks with
      | cons c blanks =>
          rw [List.length_cons]
          omega
      | nil =>
          -- 部分の始めの文字は、空白でも引用符でもない。
          have hq : p.quoted = false := by simpa [firstBare] using hfirst
          have hvalid := p.valid
          rw [List.nil_append, Piece.print, if_neg (by simp [hq])] at hT
          cases htext : p.text with
          | nil => exact absurd htext (p.nonempty hq)
          | cons c text =>
              rw [htext] at hT hvalid
              obtain ⟨hquote, -, -, hblank⟩ := hvalid c List.mem_cons_self
              have hhead := hT c rfl
              rw [isBlank_iff] at hhead
              obtain ⟨hspace, htab⟩ := hblank hq
              exact (hhead.elim (fun h => h.elim hspace htab) hquote).elim

theorem length_bare_le (ps : List Piece) :
    (ps.filter (!·.quoted)).length ≤ (ps.filter (·.quoted)).length + joins ps + (if firstBare ps then 1 else 0) := by
  induction ps with
  | nil => exact Nat.zero_le _
  | cons p ps ih =>
      cases hq : p.quoted with
      | true =>
          rw [List.filter_cons_of_neg (by simp [hq]), List.filter_cons_of_pos (by simp [hq]), joins, List.length_cons]
          split_ifs at ih ⊢ <;> omega
      | false =>
          rw [List.filter_cons_of_pos (by simp [hq]), List.filter_cons_of_neg (by simp [hq]), joins, List.length_cons]
          have hfirst : firstBare (p :: ps) = true := by simp [firstBare, hq]
          rw [if_pos hfirst]
          cases hf : firstBare ps <;> simp [hq, hf] at ih ⊢ <;> omega

/-! ## 交互に並べる -/

/-- `acc` の前に、引用符のある部分とない部分を、後ろから交互に置く。 -/
def weave : List Piece → List Piece → List Piece → List Piece
  | [], qs, acc => qs.reverse ++ acc
  | b :: bs, [], acc => (b :: bs).reverse ++ acc
  | b :: bs, q :: qs, acc => weave bs qs (q :: b :: acc)

theorem perm_move (b q : Piece) (bs qs : List Piece) : (bs ++ qs ++ [q, b]).Perm (b :: bs ++ q :: qs) := calc
  (bs ++ qs ++ [q, b]).Perm (q :: b :: (bs ++ qs)) := List.perm_append_comm
  List.Perm _ (b :: q :: (bs ++ qs)) := List.Perm.swap b q _
  List.Perm _ (b :: bs ++ q :: qs) := List.perm_middle.symm.cons b

theorem weave_eq_append (bs qs acc : List Piece) : ∃ X, weave bs qs acc = X ++ acc ∧ X.Perm (bs ++ qs) := by
  induction bs generalizing qs acc with
  | nil => exact ⟨_, rfl, List.reverse_perm qs⟩
  | cons b bs ih =>
      cases qs with
      | nil => exact ⟨_, rfl, by rw [List.append_nil]; exact List.reverse_perm (b :: bs)⟩
      | cons q qs =>
          obtain ⟨X, hX, hperm⟩ := ih qs (q :: b :: acc)
          refine ⟨X ++ [q, b], by rw [weave, hX]; simp, ?_⟩
          exact (hperm.append_right [q, b]).trans (perm_move b q bs qs)

theorem joins_quoted_append (hqs : ∀ q ∈ qs, q.quoted = true) (acc : List Piece) : joins (qs ++ acc) = joins acc := by
  induction qs with
  | nil => rfl
  | cons q qs ih =>
      obtain ⟨hq, hqs⟩ := List.forall_mem_cons.mp hqs
      rw [List.cons_append, joins, ih hqs]
      simp [hq]

theorem joins_bare_append (hbs : ∀ b ∈ bs, b.quoted = false) (hacc : firstBare acc = false) :
    joins (bs ++ acc) ≤ bs.length - 1 + joins acc := by
  induction bs with
  | nil => exact Nat.le_add_left _ _
  | cons b bs ih =>
      obtain ⟨hb, hbs⟩ := List.forall_mem_cons.mp hbs
      have hih := ih hbs
      rw [List.cons_append, joins, List.length_cons]
      cases bs with
      | nil => simp [hacc]
      | cons b' bs =>
          rw [List.length_cons] at hih ⊢
          split_ifs <;> omega

theorem joins_weave (hbs : ∀ b ∈ bs, b.quoted = false) (hqs : ∀ q ∈ qs, q.quoted = true) (hacc : firstBare acc = false) :
    joins (weave bs qs acc) ≤ bs.length - qs.length - 1 + joins acc := by
  induction bs generalizing qs acc with
  | nil =>
      rw [weave, joins_quoted_append fun q hq => hqs q (List.mem_reverse.mp hq)]
      exact Nat.le_add_left _ _
  | cons b bs ih =>
      cases qs with
      | nil =>
          have hle := @joins_bare_append (b :: bs).reverse acc (fun b hb => hbs b (List.mem_reverse.mp hb)) hacc
          rw [List.length_reverse] at hle
          rw [weave, List.length_nil]
          omega
      | cons q qs =>
          obtain ⟨hb, hbs⟩ := List.forall_mem_cons.mp hbs
          obtain ⟨hq, hqs⟩ := List.forall_mem_cons.mp hqs
          have hle := @ih qs (q :: b :: acc) hbs hqs (by simp [firstBare, hq])
          have hjoins : joins (q :: b :: acc) = joins acc := by simp [joins, hq, hacc]
          rw [hjoins] at hle
          rw [weave, List.length_cons, List.length_cons]
          omega

theorem weave_bare_last (m : Piece) (hlen : qs.length ≤ bs.length) (acc : List Piece) :
    ∃ X, weave (bs ++ [m]) qs acc = m :: X ++ acc ∧ X.Perm (bs ++ qs) := by
  induction bs generalizing qs acc with
  | nil =>
      obtain rfl : qs = [] := List.length_eq_zero_iff.mp (Nat.le_zero.mp hlen)
      exact ⟨[], rfl, List.Perm.nil⟩
  | cons b bs ih =>
      cases qs with
      | nil =>
          refine ⟨(b :: bs).reverse, ?_, by rw [List.append_nil]; exact List.reverse_perm (b :: bs)⟩
          rw [List.cons_append, weave, ← List.cons_append, List.reverse_append]
          rfl
      | cons q qs =>
          obtain ⟨X, hX, hperm⟩ := @ih qs (Nat.le_of_succ_le_succ hlen) (q :: b :: acc)
          refine ⟨X ++ [q, b], by rw [List.cons_append, weave, hX]; simp, ?_⟩
          exact (hperm.append_right [q, b]).trans (perm_move b q bs qs)

theorem weave_quoted_last (m : Piece) (hlen : qs.length < bs.length) (acc : List Piece) :
    ∃ X Y, weave bs (qs ++ [m]) acc = X ++ m :: Y ++ acc ∧ X ⊆ bs ∧ (X ++ Y).Perm (bs ++ qs) := by
  induction bs generalizing qs acc with
  | nil => exact absurd hlen (Nat.not_lt_zero _)
  | cons b bs ih =>
      cases qs with
      | nil =>
          obtain ⟨X, hX, hperm⟩ := weave_eq_append bs [] (m :: b :: acc)
          rw [List.append_nil] at hperm
          refine ⟨X, [b], by rw [List.nil_append, weave, hX]; simp, fun y hy => List.mem_cons_of_mem b (hperm.subset hy), ?_⟩
          rw [List.append_nil]
          exact List.perm_append_comm.trans (hperm.cons b)
      | cons q qs =>
          obtain ⟨X, Y, hX, hsub, hperm⟩ := @ih qs (Nat.lt_of_succ_lt_succ hlen) (q :: b :: acc)
          refine ⟨X, Y ++ [q, b],
            by rw [List.cons_append, weave, hX]; simp, fun y hy => List.mem_cons_of_mem b (hsub hy), ?_⟩
          rw [← List.append_assoc]
          exact (hperm.append_right [q, b]).trans (perm_move b q bs qs)

theorem weave_cons (b : Piece) (bs qs acc : List Piece) : ∃ X, weave (b :: bs) qs acc = X ++
    b :: acc ∧ X.Perm (bs ++ qs) := by
  cases qs with
  | nil =>
      refine ⟨bs.reverse, by rw [weave, List.reverse_cons, List.append_assoc]; rfl, ?_⟩
      rw [List.append_nil]
      exact List.reverse_perm bs
  | cons q qs =>
      obtain ⟨X, hX, hperm⟩ := weave_eq_append bs qs (q :: b :: acc)
      refine ⟨X ++ [q], by rw [weave, hX]; simp, ?_⟩
      exact (List.perm_append_comm.trans (hperm.cons q)).trans List.perm_middle.symm

/-! ## 部分から得る物 -/

theorem partsOf_append (s : Simplifier) (ps qs : List Piece) :
    partsOf s (ps ++ qs) = partsOf s ps ++ partsOf s qs := List.flatMap_append

theorem partsOf_perm (s : Simplifier) (h : ps.Perm qs) : (partsOf s ps).Perm (partsOf s qs) := h.flatMap_right _

theorem partsOf_cons (s : Simplifier) (p : Piece) (ps : List Piece) : partsOf s (p :: ps) = partsOf s [p] ++ partsOf s ps :=
  partsOf_append s [p] ps

theorem partsOf_singleton (s : Simplifier) (p : Piece) : partsOf s [p] = [] ∨ ∃ t, partsOf s [p] = [(t, p.quoted)] := by
  rw [partsOf, List.flatMap_cons, List.flatMap_nil, List.append_nil, Piece.part]
  split_ifs with htext
  · exact .inl rfl
  · rcases simplify s [] "trigger" p.text with e | (_ | ⟨c, t⟩)
    · exact .inl rfl
    · exact .inl rfl
    · exact .inr ⟨c :: t, rfl⟩

theorem mem_partsOf {y : Part} : y ∈ partsOf s ps ↔ ∃ p ∈ ps, partsOf s [p] = [y] := by
  rw [partsOf, List.mem_flatMap]
  refine exists_congr fun p => and_congr_right fun _ => ?_
  have hsingle : (p.part s).getD [] = partsOf s [p] := by simp [partsOf]
  rw [hsingle]
  rcases partsOf_singleton s p with heq | ⟨t, heq⟩
  · simp [heq]
  · simp [heq, eq_comm]

theorem exists_perm_cons {α : Type} {a : α} {l : List α} (h : a ∈ l) : ∃ l', l.Perm (a :: l') := by
  obtain ⟨l₁, l₂, rfl⟩ := List.append_of_mem h
  exact ⟨l₁ ++ l₂, List.perm_middle⟩

/-! ## 残る並べ方 -/

variable {k : Bytes} {Top : Bytes → Prop} {X Y R : List Piece} {b : Bool}

/-- `k` の上にある物はどれも、`Top` の物の下にあり、`Top` の物の上には何もない。 -/
structure Exposed (s : Simplifier) (ps : List Piece) (k : Bytes) (Top : Bytes → Prop) : Prop where
  mem : ∃ y ∈ partsOf s ps, y.1 = k
  up : ∀ y ∈ partsOf s ps, below k y.1 = true → ∃ z ∈ partsOf s ps, Top z.1 ∧ below y.1 z.1 = true
  top : ∀ t, Top t → ∀ y ∈ partsOf s ps, below t y.1 = false

theorem Exposed.not_top (h : Exposed s ps k Top) {y : Part} (hy : y ∈ partsOf s ps)
    (hbelow : below k y.1 = true) : ¬ Top y.1 := by
  intro htop
  obtain ⟨z, hz, -, hyz⟩ := h.up y hy hbelow
  rw [h.top y.1 htop z hz] at hyz
  cases hyz

theorem Exposed.ne_key (h : Exposed s ps k Top) {y z : Part} (hy : y ∈ partsOf s ps)
    (hbelow : below k y.1 = true) (hz : Top z.1) : z.1 ≠ k := by
  intro heq
  rw [heq] at hz
  rw [h.top k hz y hy] at hbelow
  cases hbelow

def Survives (s : Simplifier) (k : Bytes) (ps : List Piece) : Prop :=
  ∃ b, (k, b) ∈ prune below (partsOf s ps).length (partsOf s ps)

theorem Exposed.survives (h : Exposed s ps k Top) (hperm : (X ++ Y ++ p :: R).Perm ps)
    (hp : partsOf s [p] = [(k, b)]) (hfree : ∀ z ∈ partsOf s X, z.1 ≠ k)
    (hbefore : ∀ y ∈ partsOf s (X ++ Y), below k y.1 = true → ∃ z ∈ partsOf s (X ++ Y), Top z.1 ∧ below y.1 z.1 = true)
    (hafter : ∀ y ∈ partsOf s R, below k y.1 = true → ∃ z ∈ partsOf s X, Top z.1 ∧
    below y.1 z.1 = true) : Survives s k (X ++ Y ++ p :: R) := by
  have heq : partsOf s (X ++ Y ++ p :: R) = partsOf s X ++ partsOf s Y ++ (k, b) :: partsOf s R := by
    rw [partsOf_append, partsOf_append, partsOf_cons, hp]
    rfl
  have hmem : ∀ y, y ∈ partsOf s X ++ partsOf s Y ++ (k, b) :: partsOf s R → y ∈ partsOf s ps := by
    intro y hy
    rw [← heq] at hy
    exact (partsOf_perm s hperm).mem_iff.mp hy
  rw [partsOf_append] at hbefore
  have hguard : Guarded below Top k (partsOf s X) (partsOf s Y) (partsOf s R) := by
    refine ⟨hfree, hbefore, hafter, fun t ht => ⟨h.top t ht (k, b) (hmem _ (by simp)), fun y hy => h.top t ht y (hmem y ?_)⟩⟩
    rcases List.mem_append.mp hy with hy | hy
    · exact List.mem_append_left _ hy
    · exact List.mem_append_right _ (List.mem_cons_of_mem _ hy)
  rw [Survives, heq]
  exact hguard.survives below_irrefl le_rfl

theorem Exposed.before (h : Exposed s ps k Top) (hperm : (X ++ p :: R).Perm ps) (hp : partsOf s [p] = [(k, b)])
    (hR : ∀ y ∈ partsOf s R, ¬ Top y.1) (y : Part) (hy : y ∈ partsOf s X)
    (hbelow : below k y.1 = true) : ∃ z ∈ partsOf s X, Top z.1 ∧ below y.1 z.1 = true := by
  have hmem : ∀ y, y ∈ partsOf s X ++ (k, b) :: partsOf s R ↔ y ∈ partsOf s ps := by
    intro y
    rw [← (partsOf_perm s hperm).mem_iff, partsOf_append, partsOf_cons, hp]
    rfl
  have hy' : y ∈ partsOf s ps := (hmem y).mp (List.mem_append_left _ hy)
  obtain ⟨z, hz, htop, hyz⟩ := h.up y hy' hbelow
  rcases List.mem_append.mp ((hmem z).mpr hz) with hz | hz
  · exact ⟨z, hz, htop, hyz⟩
  · rcases List.mem_cons.mp hz with rfl | hz
    · exact absurd rfl (h.ne_key hy' hbelow htop)
    · exact absurd htop (hR z hz)

variable {Bs Qs Bs' Qs' : List Piece} {x : Piece} {v : Part}

theorem weave_perm (bs qs acc : List Piece) : (weave bs qs acc).Perm (bs ++ qs ++ acc) := by
  obtain ⟨X, hX, hperm⟩ := weave_eq_append bs qs acc
  rw [hX]
  exact hperm.append_right acc

theorem Exposed.arranged (h : Exposed s ps k Top) (hperm : (bs ++ qs ++ acc).Perm ps) (hbs : ∀ x ∈ bs, x.quoted = false)
    (hqs : ∀ x ∈ qs, x.quoted = true) (hacc : firstBare acc = false) (heq : weave bs qs acc = X ++ Y ++ p :: R)
    (hp : partsOf s [p] = [(k, b)]) (hfree : ∀ z ∈ partsOf s X, z.1 ≠ k) (hR : ∀ y ∈ partsOf s R, ¬ Top y.1)
    (hafter : ∀ y ∈ partsOf s R, below k y.1 = true → ∃ z ∈ partsOf s X, Top z.1 ∧ below y.1 z.1 = true) :
    ∃ qs', qs'.Perm ps ∧ joins qs' ≤ bs.length - qs.length - 1 + joins acc ∧ Survives s k qs' := by
  have hperm' := (weave_perm bs qs acc).trans hperm
  refine ⟨weave bs qs acc, hperm', joins_weave hbs hqs hacc, ?_⟩
  rw [heq] at hperm' ⊢
  exact h.survives hperm' hp hfree (h.before hperm' hp hR) hafter

theorem Exposed.arrange_bare (h : Exposed s ps k Top) (hps : (p :: Bs' ++ Qs).Perm ps)
    (hBs : ∀ x ∈ p :: Bs', x.quoted = false)
    (hQs : ∀ x ∈ Qs, x.quoted = true) (hp : partsOf s [p] = [(k, b)]) :
    ∃ qs, qs.Perm ps ∧ joins qs ≤ (p :: Bs').length - Qs.length - 1 ∧ Survives s k qs := by
  obtain ⟨X, hX, -⟩ := weave_cons p Bs' Qs []
  refine @Exposed.arranged s p ps Qs (p :: Bs') [] k Top [] X [] b h (by rwa [List.append_nil]) hBs hQs rfl hX hp ?_ ?_ ?_
  · exact fun z hz => nomatch hz
  · exact fun y hy => nomatch hy
  · exact fun y hy => nomatch hy

theorem Exposed.arrange_few (h : Exposed s ps k Top) (hps : (Bs ++ p :: Qs').Perm ps) (hBs : ∀ x ∈ Bs, x.quoted = false)
    (hQs : ∀ x ∈ p :: Qs', x.quoted = true) (hp : partsOf s [p] = [(k, b)]) (hlen : Bs.length ≤ Qs'.length + 1) :
    ∃ qs, qs.Perm ps ∧ joins qs ≤ Bs.length - (p :: Qs').length - 1 ∧ Survives s k qs := by
  obtain ⟨hq, hQs'⟩ := List.forall_mem_cons.mp hQs
  obtain ⟨X, hX, -⟩ := weave_eq_append Bs Qs' [p]
  have hperm : (Bs ++ Qs' ++ [p]).Perm ps := by
    refine List.Perm.trans ?_ hps
    rw [List.append_assoc]
    exact List.perm_append_comm.append_left Bs
  have hjoins : joins [p] = 0 := by simp [joins, firstBare]
  obtain ⟨qs, hqs, hle, hsurvives⟩ := @Exposed.arranged s p ps Qs' Bs [p] k Top [] X
    [] b h hperm hBs hQs' (by simp [firstBare, hq]) hX hp
    (fun z hz => nomatch hz) (fun y hy => nomatch hy) (fun y hy => nomatch hy)
  refine ⟨qs, hqs, ?_, hsurvives⟩
  rw [hjoins] at hle
  rw [List.length_cons]
  omega

theorem Exposed.arrange_above (h : Exposed s ps k Top) (hps : (x :: Bs' ++ p :: Qs').Perm ps)
    (hBs : ∀ b ∈ x :: Bs', b.quoted = false) (hQs : ∀ q ∈ p :: Qs', q.quoted = true) (hp : partsOf s [p] = [(k, b)])
    (hlen : Qs'.length < Bs'.length) (hfree : ∀ z ∈ partsOf s (x :: Bs'), z.1 ≠ k)
    (hv : partsOf s [x] = [v]) (habove : below k v.1 = true) :
    ∃ qs, qs.Perm ps ∧ joins qs ≤ (x :: Bs').length - (p :: Qs').length - 1 ∧ Survives s k qs := by
  have hv' : v ∈ partsOf s ps := mem_partsOf.mpr ⟨x, hps.mem_iff.mp (by simp), hv⟩
  obtain ⟨z, hz, htop, hvz⟩ := h.up v hv' habove
  have hkey : z.1 ≠ k := h.ne_key hv' habove htop
  obtain ⟨m, hm, hmz⟩ := mem_partsOf.mp hz
  have hR : ∀ y ∈ partsOf s [x], ¬ Top y.1 := by
    rw [hv]
    intro y hy
    obtain rfl : y = v := List.mem_singleton.mp hy
    exact h.not_top hv' habove
  have hafter : ∀ {X : List Piece}, m ∈ X → ∀ y ∈ partsOf s [x], below k y.1 = true →
      ∃ z ∈ partsOf s X, Top z.1 ∧ below y.1 z.1 = true := by
    intro X hmX y hy _
    rw [hv] at hy
    obtain rfl : y = v := List.mem_singleton.mp hy
    exact ⟨z, mem_partsOf.mpr ⟨m, hmX, hmz⟩, htop, hvz⟩
  rcases List.mem_append.mp (hps.mem_iff.mpr hm) with hmem | hmem
  · -- 覆う物は、引用符のない部分である。
    have hne : m ≠ x := by
      rintro rfl
      rw [hmz] at hv
      obtain rfl : z = v := by simpa using hv
      rw [below_irrefl] at hvz
      cases hvz
    obtain ⟨Bs'', hBs''⟩ := exists_perm_cons ((List.mem_cons.mp hmem).resolve_left hne)
    have hmove : (Bs'' ++ [m]).Perm Bs' := List.perm_append_comm.trans hBs''.symm
    have hlen' := hBs''.length_eq
    rw [List.length_cons] at hlen'
    obtain ⟨X, hX, -⟩ := @weave_bare_last Qs' Bs'' m (by omega) [p, x]
    have hperm : (x :: (Bs'' ++ [m]) ++ p :: Qs' ++ []).Perm ps := by
      rw [List.append_nil]
      exact ((hmove.cons x).append_right _).trans hps
    have hbare : ∀ b ∈ x :: (Bs'' ++ [m]), b.quoted = false := fun b hb => hBs b ((hmove.cons x).mem_iff.mp hb)
    have heq : weave (x :: (Bs'' ++ [m])) (p :: Qs') [] = [m] ++ X ++ p :: [x] := hX
    have hresult := h.arranged hperm hbare hQs rfl heq hp (fun y hy => ?_) hR (hafter List.mem_cons_self)
    · rwa [(hmove.cons x).length_eq] at hresult
    · rw [hmz] at hy
      rwa [List.mem_singleton.mp hy]
  · -- 覆う物は、引用符のある部分である。
    have hne : m ≠ p := by
      rintro rfl
      rw [hmz] at hp
      obtain rfl : z = (k, b) := by simpa using hp
      exact hkey rfl
    obtain ⟨Qs'', hQs''⟩ := exists_perm_cons ((List.mem_cons.mp hmem).resolve_left hne)
    have hmove : (Qs'' ++ [m]).Perm Qs' := List.perm_append_comm.trans hQs''.symm
    have hlen' := hQs''.length_eq
    rw [List.length_cons] at hlen'
    obtain ⟨X, Y, hX, hsub, -⟩ := @weave_quoted_last Qs'' Bs' m (by omega) [p, x]
    have hperm : (x :: Bs' ++ p :: (Qs'' ++ [m]) ++ []).Perm ps := by
      rw [List.append_nil]
      exact ((hmove.cons p).append_left _).trans hps
    have hquoted : ∀ q ∈ p :: (Qs'' ++ [m]), q.quoted = true := fun q hq => hQs q ((hmove.cons p).mem_iff.mp hq)
    have heq : weave (x :: Bs') (p :: (Qs'' ++ [m])) [] = (X ++ [m]) ++ Y ++ p :: [x] := by
      rw [weave, hX]
      simp
    have hresult := h.arranged hperm hBs hquoted rfl heq hp (fun y hy => ?_) hR (hafter (by simp))
    · rwa [(hmove.cons p).length_eq] at hresult
    · rw [partsOf_append, hmz] at hy
      rcases List.mem_append.mp hy with hy | hy
      · obtain ⟨q, hq, hqy⟩ := mem_partsOf.mp hy
        exact hfree y (mem_partsOf.mpr ⟨q, List.mem_cons_of_mem x (hsub hq), hqy⟩)
      · rwa [List.mem_singleton.mp hy]

def keyOf (s : Simplifier) (p : Piece) : Option Bytes := (partsOf s [p]).head?.map Prod.fst

theorem keyOf_eq {t : Bytes} (h : keyOf s p = some t) : ∃ y, partsOf s [p] = [y] ∧ y.1 = t := by
  rw [keyOf] at h
  rcases partsOf_singleton s p with heq | ⟨t', heq⟩
  · rw [heq] at h
    cases h
  · rw [heq] at h
    exact ⟨_, heq, Option.some.inj h⟩

theorem keyOf_of_parts (h : partsOf s [p] = [v]) : keyOf s p = some v.1 := by rw [keyOf, h]; rfl

theorem exists_partners {α β : Type} {r : α → β → Prop} (l : List α) (h : ∀ a ∈ l, ∃ c, r a c) :
    ∃ N : List β, N.length ≤ l.length ∧ ∀ a ∈ l, ∃ c ∈ N, r a c := by
  induction l with
  | nil => exact ⟨[], le_rfl, fun a ha => nomatch ha⟩
  | cons a l ih =>
      obtain ⟨⟨c, hc⟩, hl⟩ := List.forall_mem_cons.mp h
      obtain ⟨N, hlen, hN⟩ := ih hl
      refine ⟨c :: N, Nat.succ_le_succ hlen, List.forall_mem_cons.mpr ⟨⟨c, List.mem_cons_self, hc⟩, fun a ha => ?_⟩⟩
      obtain ⟨c', hc', hr⟩ := hN a ha
      exact ⟨c', List.mem_cons_of_mem c hc', hr⟩

theorem exists_count_lt {α : Type} [BEq α] [LawfulBEq α] {l l' : List α}
    (h : l.length < l'.length) : ∃ v ∈ l', l.count v < l'.count v := by
  by_contra hall
  push Not at hall
  have hle := (List.subperm_ext_iff.mpr hall).length_le
  omega

theorem Exposed.arrange_none (h : Exposed s ps k Top) (hps : (Bs ++ p :: Qs').Perm ps) (hBs : ∀ b ∈ Bs, b.quoted = false)
    (hQs : ∀ q ∈ p :: Qs', q.quoted = true) (hp : partsOf s [p] = [(k, b)])
    (hlen : Qs'.length < Bs.length) (hnone : ∀ y ∈ partsOf s Bs, below k y.1 = false) :
    ∃ qs, qs.Perm ps ∧ joins qs ≤ Bs.length - (p :: Qs').length - 1 ∧ Survives s k qs := by
  have hmem : ∀ y ∈ partsOf s Qs', y ∈ partsOf s ps := by
    intro y hy
    obtain ⟨q, hq, hqy⟩ := mem_partsOf.mp hy
    exact mem_partsOf.mpr ⟨q, hps.mem_iff.mp (by simp [hq]), hqy⟩
  -- `k` の上にある部分ごとに、覆う物を一つ選ぶ。
  obtain ⟨N, hNlen, hN⟩ := @exists_partners Part Bytes
    (fun y t => below k y.1 = true → Top t ∧ below y.1 t = true ∧ ∃ z ∈ partsOf s ps, z.1 = t) (partsOf s Qs') (by
      intro y hy
      by_cases hbelow : below k y.1 = true
      · obtain ⟨z, hz, htop, hyz⟩ := h.up y (hmem y hy) hbelow
        exact ⟨z.1, fun _ => ⟨htop, hyz, z, hz, rfl⟩⟩
      · exact ⟨[], fun hb => absurd hb hbelow⟩)
  have hcount : (N.map some).length < (Bs.map (keyOf s)).length := by
    have := length_partsOf_le s Qs'
    rw [List.length_map, List.length_map]
    omega
  obtain ⟨w, hw, hlt⟩ := exists_count_lt hcount
  obtain ⟨x, hx, rfl⟩ := List.mem_map.mp hw
  obtain ⟨Bs', hBs'⟩ := exists_perm_cons hx
  have hps' : (x :: Bs' ++ p :: Qs').Perm ps := (hBs'.symm.append_right _).trans hps
  obtain ⟨X, hX, hXperm⟩ := weave_eq_append Bs' Qs' [p, x]
  have hperm : (X ++ p :: [x]).Perm ps := calc
    (X ++ p :: [x]).Perm (Bs' ++ Qs' ++ [p, x]) := hXperm.append_right [p, x]
    List.Perm _ (x :: Bs' ++ p :: Qs') := perm_move x p Bs' Qs'
    List.Perm _ ps := hps'
  have hxnone : ∀ y ∈ partsOf s [x], below k y.1 = false := by
    intro y hy
    obtain ⟨q, hq, hqy⟩ := mem_partsOf.mp hy
    obtain rfl : q = x := List.mem_singleton.mp hq
    exact hnone y (mem_partsOf.mpr ⟨q, hx, hqy⟩)
  refine ⟨X ++ p :: [x], hperm, ?_, ?_⟩
  · have hjoins := @joins_weave (p :: Qs') (x :: Bs') [] (fun b hb => hBs b (hBs'.mem_iff.mpr hb)) hQs rfl
    rw [weave, hX] at hjoins
    rwa [hBs'.length_eq]
  · refine @Exposed.survives s p ps k Top [] X [x] b h hperm hp (fun z hz => nomatch hz)
      (fun y hy hbelow => ?_) fun y hy hbelow => ?_
    · obtain ⟨q, hq, hqy⟩ := mem_partsOf.mp hy
      have hqQs : q ∈ Qs' := by
        rcases List.mem_append.mp (hXperm.mem_iff.mp hq) with hq | hq
        · rw [hnone y (mem_partsOf.mpr ⟨q, hBs'.mem_iff.mpr (List.mem_cons_of_mem x hq), hqy⟩)] at hbelow
          cases hbelow
        · exact hq
      have hyQs : y ∈ partsOf s Qs' := mem_partsOf.mpr ⟨q, hqQs, hqy⟩
      obtain ⟨t, ht, hpartner⟩ := hN y hyQs
      obtain ⟨htop, hyt, z, hz, rfl⟩ := hpartner hbelow
      -- 覆う物は、`x` の他にもある。
      obtain ⟨m, hm, hmz⟩ := mem_partsOf.mp hz
      have hfound : ∃ m' ∈ Bs' ++ Qs', keyOf s m' = some z.1 := by
        rcases List.mem_append.mp (hps'.mem_iff.mpr hm) with hm | hm
        · rcases List.mem_cons.mp hm with rfl | hm
          · have hkey := keyOf_of_parts hmz
            rw [hkey, (hBs'.map (keyOf s)).count_eq, List.map_cons, hkey, List.count_cons_self] at hlt
            have hpos : 0 < (N.map some).count (some z.1) := List.count_pos_iff.mpr (List.mem_map_of_mem ht)
            have hpos' : 0 < (Bs'.map (keyOf s)).count (some z.1) := by omega
            obtain ⟨m', hm', hkey'⟩ := List.mem_map.mp (List.count_pos_iff.mp hpos')
            exact ⟨m', List.mem_append_left _ hm', hkey'⟩
          · exact ⟨m, List.mem_append_left _ hm, keyOf_of_parts hmz⟩
        · rcases List.mem_cons.mp hm with rfl | hm
          · rw [hp] at hmz
            obtain rfl : (k, b) = z := by simpa using hmz
            exact absurd rfl (h.ne_key (hmem y hyQs) hbelow htop)
          · exact ⟨m, List.mem_append_right _ hm, keyOf_of_parts hmz⟩
      obtain ⟨m', hm', hkey⟩ := hfound
      obtain ⟨z', hz', hzkey⟩ := keyOf_eq hkey
      exact ⟨z', mem_partsOf.mpr ⟨m', hXperm.mem_iff.mpr hm', hz'⟩, by rwa [hzkey], by rwa [hzkey]⟩
    · rw [hxnone y hy] at hbelow
      cases hbelow

theorem Exposed.arrange (h : Exposed s ps k Top) : ∃ qs, qs.Perm ps ∧ joins qs ≤ joins ps ∧ Survives s k qs := by
  have hps : (ps.filter (!·.quoted) ++ ps.filter (·.quoted)).Perm ps := by
    have := List.filter_append_perm (fun p : Piece => !p.quoted) ps
    simpa using this
  have hbound : (ps.filter (!·.quoted)).length - (ps.filter (·.quoted)).length - 1 ≤ joins ps := by
    have := length_bare_le ps
    split_ifs at this <;> omega
  have hBs : ∀ b ∈ ps.filter (!·.quoted), b.quoted = false := fun b hb => by simpa using (List.mem_filter.mp hb).2
  have hQs : ∀ q ∈ ps.filter (·.quoted), q.quoted = true := fun q hq => (List.mem_filter.mp hq).2
  generalize ps.filter (!·.quoted) = Bs at hps hbound hBs
  generalize ps.filter (·.quoted) = Qs at hps hbound hQs
  suffices hsuff : ∃ qs, qs.Perm ps ∧ joins qs ≤ Bs.length - Qs.length - 1 ∧ Survives s k qs by
    obtain ⟨qs, hperm, hle, hsurvives⟩ := hsuff
    exact ⟨qs, hperm, Nat.le_trans hle hbound, hsurvives⟩
  by_cases hbare : ∃ y ∈ partsOf s Bs, y.1 = k
  · obtain ⟨y, hy, rfl⟩ := hbare
    obtain ⟨p, hp, hpy⟩ := mem_partsOf.mp hy
    obtain ⟨Bs', hBs'⟩ := exists_perm_cons hp
    rw [hBs'.length_eq]
    exact h.arrange_bare ((hBs'.symm.append_right Qs).trans hps) (fun b hb => hBs b (hBs'.mem_iff.mpr hb)) hQs hpy
  · push Not at hbare
    obtain ⟨y, hy, rfl⟩ := h.mem
    obtain ⟨p, hp, hpy⟩ := mem_partsOf.mp hy
    have hpQs : p ∈ Qs := (List.mem_append.mp (hps.mem_iff.mpr hp)).resolve_left fun hp =>
        hbare y (mem_partsOf.mpr ⟨p, hp, hpy⟩) rfl
    obtain ⟨Qs', hQs'⟩ := exists_perm_cons hpQs
    have hps' : (Bs ++ p :: Qs').Perm ps := (hQs'.symm.append_left Bs).trans hps
    have hquoted : ∀ q ∈ p :: Qs', q.quoted = true := fun q hq => hQs q (hQs'.mem_iff.mpr hq)
    rw [hQs'.length_eq]
    by_cases hlen : Bs.length ≤ Qs'.length + 1
    · exact h.arrange_few hps' hBs hquoted hpy hlen
    by_cases habove : ∃ v ∈ partsOf s Bs, below y.1 v.1 = true
    · obtain ⟨v, hv, habove⟩ := habove
      obtain ⟨x, hx, hxv⟩ := mem_partsOf.mp hv
      obtain ⟨Bs', hBs'⟩ := exists_perm_cons hx
      have hlen' := hBs'.length_eq
      rw [List.length_cons] at hlen'
      rw [hBs'.length_eq]
      refine h.arrange_above ((hBs'.symm.append_right _).trans hps')
        (fun b hb => hBs b (hBs'.mem_iff.mpr hb)) hquoted hpy (by omega) ?_ hxv habove
      exact fun z hz => hbare z ((partsOf_perm s hBs').mem_iff.mpr hz)
    · refine h.arrange_none hps' hBs hquoted hpy (by omega) fun v hv => eq_false_of_ne_true fun hb => habove ⟨v, hv, hb⟩

end UnixCommons.Language.NormalizeTrigger

/-! ## トリガーの正規化の補題 -/

namespace UnixCommons.Language.NormalizeTrigger

open Lib Prune

variable {s : Simplifier} {ps qs : List Piece} {L L' : List Part} {a b : Part} {T T' : Bytes}

theorem Maximal.below_eq (h : Maximal L a) (hb : b ∈ L) : below a.1 b.1 = false := by
  refine eq_false_of_ne_true fun hbelow => ?_
  rw [h b hb (below_phrase hbelow), below_irrefl] at hbelow
  cases hbelow

def maximalKeys (L : List Part) : List Bytes := ((L.filter (Maximal L)).map Prod.fst).dedup

theorem mem_maximalKeys {t : Bytes} : t ∈ maximalKeys L ↔ ∃ a ∈ L, Maximal L a ∧ a.1 = t := by
  simp only [maximalKeys, List.mem_dedup, List.mem_map, List.mem_filter, decide_eq_true_eq, and_assoc]

theorem Sheltered.below_exists (h : Sheltered L) (ha : a ∈ L) (hmax : ¬ Maximal L a) :
    ∃ m ∈ L, Maximal L m ∧ below a.1 m.1 = true := by
  obtain ⟨m, hm, hmaximal, hsub⟩ := h a ha hmax
  refine ⟨m, hm, hmaximal, below_iff.mpr ⟨fun heq => hmax fun b hb hphrase => ?_, hsub⟩⟩
  rw [heq] at hphrase ⊢
  exact hmaximal b hb hphrase

theorem Sheltered.tops (h : Sheltered L) : Tops below (maximalKeys L) L := by
  refine ⟨List.nodup_dedup _, fun m hm => ?_, fun a ha => ?_, fun m hm b hb => ?_⟩
  · obtain ⟨a, ha, -, hkey⟩ := mem_maximalKeys.mp hm
    exact ⟨a, ha, hkey⟩
  · by_cases hmax : Maximal L a
    · exact .inl (mem_maximalKeys.mpr ⟨a, ha, hmax, rfl⟩)
    · obtain ⟨m, hm, hmaximal, hbelow⟩ := h.below_exists ha hmax
      exact .inr ⟨m.1, mem_maximalKeys.mpr ⟨m, hm, hmaximal, rfl⟩, hbelow⟩
  · obtain ⟨a, -, hmax, rfl⟩ := mem_maximalKeys.mp hm
    exact hmax.below_eq hb

theorem tops_of_perm {M : List Bytes} (h : Tops below M L) (hperm : L.Perm L') : Tops below M L' := by
  refine ⟨h.nodup, fun m hm => ?_, fun a ha => h.covered a (hperm.mem_iff.mpr ha), fun m hm b hb =>
    h.top m hm b (hperm.mem_iff.mpr hb)⟩
  obtain ⟨a, ha, hkey⟩ := h.mem m hm
  exact ⟨a, hperm.mem_iff.mp ha, hkey⟩

theorem Sheltered.narrow_perm (h : Sheltered L) (hperm : L.Perm L') : (narrow L').Perm
    ((maximalKeys L).map fun m => (m, marked m L)) := by
  have hprune := prune_perm (tops_of_perm h.tops hperm) le_rfl
  have hmarked : (fun m => (m, marked m L')) = fun m => (m, marked m L) := funext fun m => by
    rw [marked, marked, hperm.any_eq]
  rw [hmarked] at hprune
  exact (NormalizeTrigger.narrow_perm L').trans hprune

theorem Sheltered.narrow_eq (h : Sheltered L) (hperm : L.Perm L') : narrow L' = narrow L :=
  narrow_eq_of_perm ((h.narrow_perm hperm).trans (h.narrow_perm (List.Perm.refl L)).symm)

theorem irredundant_combine : Irredundant (combineTrigger ⟨false, L⟩).parts ↔ L.Pairwise fun a b =>
    ¬ Phrase a.1 b.1 ∧ ¬ Phrase b.1 a.1 :=
  List.pairwise_map

theorem Sheltered.irredundant (h : Sheltered L) : Irredundant (combineTrigger ⟨false, narrow L⟩).parts := by
  rw [irredundant_combine]
  have hsymm : ∀ {a b : Part}, ¬ Phrase a.1 b.1 ∧ ¬ Phrase b.1 a.1 → ¬ Phrase b.1 a.1 ∧ ¬ Phrase a.1 b.1 := And.symm
  rw [(h.narrow_perm (List.Perm.refl L)).pairwise_iff hsymm, List.pairwise_map]
  refine (List.nodup_dedup _).imp_of_mem fun {t u} ht hu hne => ?_
  obtain ⟨a, ha, hmax, rfl⟩ := mem_maximalKeys.mp ht
  obtain ⟨b, hb, hmax', rfl⟩ := mem_maximalKeys.mp hu
  exact ⟨fun hphrase => hne (hmax b hb hphrase).symm, fun hphrase => hne (hmax' a ha hphrase)⟩

theorem covered_narrow (L : List Part) : Covered L (combineTrigger ⟨false, narrow L⟩).parts := by
  intro a ha
  obtain ⟨b, hb, hphrase⟩ := exists_mem_prune Phrase.refl (fun _ _ _ => Phrase.trans) (fun _ _ => below_phrase) le_rfl ha
  exact ⟨_, List.mem_map_of_mem ((NormalizeTrigger.narrow_perm L).mem_iff.mpr hb), hphrase⟩

theorem exists_exposed (h : ¬ Sheltered (partsOf s ps)) :
    ∃ a ∈ partsOf s ps, ¬ Maximal (partsOf s ps) a ∧ Exposed s ps a.1 (· ∈ maximalKeys (partsOf s ps)) := by
  classical
  generalize hL : partsOf s ps = L at h ⊢
  let bad : Part → Prop := fun a => ¬ Maximal L a ∧ ∀ m ∈ L, Maximal L m → isSubstr a.1 m.1 = false
  have hne : (L.toFinset.filter bad).Nonempty := by
    rw [Sheltered] at h
    push Not at h
    obtain ⟨a, ha, hmax, hnot⟩ := h
    exact ⟨a, Finset.mem_filter.mpr ⟨List.mem_toFinset.mpr ha, hmax, fun m hm hmaximal =>
      eq_false_of_ne_true (hnot m hm hmaximal)⟩⟩
  obtain ⟨a, ha, hlongest⟩ := Finset.exists_max_image _ (fun a : Part => a.1.length) hne
  obtain ⟨hmem, hmax, hnot⟩ := Finset.mem_filter.mp ha
  refine ⟨a, List.mem_toFinset.mp hmem, hmax, ?_, fun y hy hbelow => ?_, fun t ht y hy => ?_⟩
  · exact ⟨a, by rw [hL]; exact List.mem_toFinset.mp hmem, rfl⟩
  · rw [hL] at hy ⊢
    have hlt : a.1.length < y.1.length := (below_phrase hbelow).eq_or_lt.resolve_left (below_iff.mp hbelow).1
    have hymax : ¬ Maximal L y := fun hy' => by
      have := (below_iff.mp hbelow).2
      rw [hnot y hy hy'] at this
      cases this
    have hybad : ¬ bad y := fun hbad => by
      have := hlongest y (Finset.mem_filter.mpr ⟨List.mem_toFinset.mpr hy, hbad⟩)
      omega
    have hfound : ∃ m ∈ L, Maximal L m ∧ isSubstr y.1 m.1 = true := by
      by_contra hall
      push Not at hall
      exact hybad ⟨hymax, fun m hm hmaximal => eq_false_of_ne_true (hall m hm hmaximal)⟩
    obtain ⟨m, hm, hmaximal, hsub⟩ := hfound
    refine ⟨m, hm, mem_maximalKeys.mpr ⟨m, hm, hmaximal, rfl⟩, below_iff.mpr ⟨fun heq => hymax fun b hb hphrase => ?_, hsub⟩⟩
    rw [heq] at hphrase ⊢
    exact hmaximal b hb hphrase
  · rw [hL] at hy
    obtain ⟨m, -, hmaximal, rfl⟩ := mem_maximalKeys.mp ht
    exact hmaximal.below_eq hy

theorem simplifies_perm (h : qs.Perm ps) : Simplifies s qs ↔ Simplifies s ps := forall_congr' fun p => by rw [h.mem_iff]

theorem printSize_perm (h : qs.Perm ps) : printSize qs = printSize ps := (h.map _).sum_nat

theorem exists_redundant (hT : Spells ps T) (hlen : T.length ≤ 1024) (h : ¬ Sheltered (partsOf s ps)) :
    ∃ qs T', qs.Perm ps ∧ Spells qs T' ∧ T'.length ≤ 1024 ∧ ¬ Irredundant
      (combineTrigger ⟨false, narrow (partsOf s qs)⟩).parts := by
  obtain ⟨a, ha, hmax, hexposed⟩ := exists_exposed h
  obtain ⟨qs, hperm, hjoins, c, hc⟩ := hexposed.arrange
  refine ⟨qs, tight qs, hperm, spells_tight qs, ?_, fun hirr => ?_⟩
  · have hle := hT.printSize_le.1
    rw [length_tight, printSize_perm hperm]
    omega
  · have hmax : ∃ b ∈ partsOf s ps, Phrase a.1 b.1 ∧ b.1 ≠ a.1 := by
      rw [Maximal] at hmax
      push Not at hmax
      exact hmax
    obtain ⟨b, hb, hphrase, hne⟩ := hmax
    obtain ⟨d, hd, hbd⟩ := exists_mem_prune Phrase.refl (fun _ _ _ => Phrase.trans)
      (fun _ _ => below_phrase) le_rfl ((partsOf_perm s hperm).mem_iff.mpr hb)
    have hnarrow : ∀ x, x ∈ narrow (partsOf s qs) ↔ x ∈ prune below (partsOf s qs).length (partsOf s qs) :=
      fun _ => (NormalizeTrigger.narrow_perm (partsOf s qs)).mem_iff
    rw [irredundant_combine] at hirr
    have hsymm : Std.Symm fun a b : Part => ¬ Phrase a.1 b.1 ∧ ¬ Phrase b.1 a.1 := ⟨fun _ _ h => h.symm⟩
    have hne' : (a.1, c) ≠ d := by
      rintro rfl
      exact hne (hbd.antisymm hphrase)
    exact (hirr.forall ((hnarrow _).mpr hc) ((hnarrow _).mpr hd) hne').1 (hphrase.trans hbd)

end UnixCommons.Language.NormalizeTrigger
