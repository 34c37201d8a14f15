import UnixCommons.PlainStorage.Lemmas.LoadIndex

/-!
# 索引の読み込みが終わること

記録の長さはファイルから読むので、長さの壊れた記録があると、読み込みは終わらないか、写した領域の外を読む。見出しより短い記録の
キーを作ると `std::length_error` が投げられ、それは `LoadIndexFail` になる。
-/

namespace UnixCommons.PlainStorage

open Lib

variable {κ σ : Type} {acc : KeyAccessor κ} {file : σ → File}
  {loadKey : κ → Nat → KeyAddition → EStateM Failure σ PUnit} {f : File} {s : σ} {c : Nat → UInt8}
  {mapped b sz off n start : Nat} {blocks rest : List Nat} {E : Failure → Prop} {stop : Nat → Prop}

/-! ## 条件 -/

/-- 位置 `off` から、記録を順にたどって `stop` の位置に着く。途中のどの記録も、写した領域の中にあり、長さが零でなく、消されていない
記録は見出しより短くない。 -/
inductive Walk (c : Nat → UInt8) (mapped sz : Nat) (stop : Nat → Prop) : Nat → Prop
  | stop {off : Nat} (h : stop off) : Walk c mapped sz stop off
  | record {off : Nat} (lt : off < sz) (inside : off + keyHeaderSize ≤ mapped)
      (progress : 0 < getField c (off + khKeySize))
      (live : getField c (off + khMark) ≠ markDeleted →
        keyHeaderSize ≤ getField c (off + khKeySize) ∧ off + getField c (off + khKeySize) ≤ mapped)
      (rest : Walk c mapped sz stop (off + getField c (off + khKeySize))) : Walk c mapped sz stop off

structure ShortKey (c : Nat → UInt8) (mapped sz off : Nat) : Prop where
  lt : off < sz
  inside : off + keyHeaderSize ≤ mapped
  live : getField c (off + khMark) ≠ markDeleted
  short : getField c (off + khKeySize) < keyHeaderSize

def Block.Walkable (blk : Block) (mapped : Nat) : Prop :=
  Walk blk.content mapped blk.size (blk.size ≤ ·) 0

def Block.EndsShort (blk : Block) (mapped : Nat) : Prop :=
  Walk blk.content mapped blk.size (ShortKey blk.content mapped blk.size) 0

/-- 鎖のどのブロックもたどれるか、短い記録に着くブロックまでの、どのブロックもたどれる。 -/
inductive Readable (f : File) (mapped : Nat) : List Nat → Prop
  | nil : Readable f mapped []
  | short {b : Nat} {rest : List Nat} (h : (f.block b).EndsShort mapped) : Readable f mapped (b :: rest)
  | block {b : Nat} {rest : List Nat} (h : (f.block b).Walkable mapped)
      (hrest : Readable f mapped rest) : Readable f mapped (b :: rest)

/-- `load_key` は、キーの鎖のブロックを変えず、失敗するならば `E` の例外を投げる。 -/
def KeepsBlocks (file : σ → File) (blocks : List Nat)
    (loadKey : κ → Nat → KeyAddition → EStateM Failure σ PUnit) (E : Failure → Prop) : Prop :=
  ∀ key dataBlock addition s, Spec (loadKey key dataBlock addition) s
    (fun _ s' => (file s).count ≤ (file s').count ∧ ∀ i ∈ blocks, (file s').block i = (file s).block i) (fun e _ => E e)

/-- 記録を読み終えるか、`LoadIndexFail` を投げる。 -/
def Finishes (x : EStateM Failure σ PUnit) (s : σ) : Prop :=
  Spec x s (fun _ _ => True) (fun e _ => ∃ cause, e = .loadIndexFail cause)

/-- 読み込みの間のファイル。鎖のブロックは `f` のものと同じである。 -/
structure SameBlocks (f : File) (blocks : List Nat) (f' : File) : Prop where
  count : f.count ≤ f'.count
  block : ∀ i ∈ blocks, f'.block i = f.block i

/-! ## 終わる場合 -/

/-- `stop` の位置からの読み込みが `Q` を満たせば、そこへたどれる位置からの読み込みも `Q` を満たす。 -/
theorem loadBlock_walk {Q : PUnit → σ → Prop} (hcall : KeepsBlocks file blocks loadKey E)
    (hb : b ∈ blocks) (hstop : ∀ off n s, stop off → sz - off ≤ n → SameBlocks f blocks (file s) →
      Spec (loadBlock acc file loadKey mapped b sz n off) s Q (fun e _ => E e))
    (h : Walk (f.block b).content mapped sz stop off) (hn : sz - off ≤ n) (hs : SameBlocks f blocks (file s)) :
    Spec (loadBlock acc file loadKey mapped b sz n off) s Q (fun e _ => E e) := by
  induction h generalizing n s with
  | stop h => exact hstop _ n s h hn hs
  | @record off lt inside progress live rest ih =>
      obtain ⟨n, rfl⟩ : ∃ m, n = m + 1 := ⟨n - 1, by omega⟩
      unfold loadBlock
      refine Spec.ite (fun _ => ?_) (fun hge => absurd lt hge)
      refine Spec.bind (Spec.get ?_)
      dsimp only
      rw [hs.block b hb]
      refine Spec.ite (fun hout => absurd hout (Nat.not_lt.mpr inside)) (fun _ => ?_)
      refine Spec.ite (fun hmark => ?_) (fun _ => ih (by omega) hs)
      obtain ⟨hlong, hbody⟩ := live hmark
      refine Spec.ite (fun hshort => absurd hshort (Nat.not_lt.mpr hlong)) (fun _ => ?_)
      refine Spec.ite (fun hout => absurd hout (Nat.not_lt.mpr hbody)) (fun _ => Spec.bind ?_)
      refine (hcall _ _ _ s).mono (fun _ s' h' => ?_) (fun _ _ he => he)
      exact ih (by omega) ⟨Nat.le_trans hs.count h'.1, fun i hi => (h'.2 i hi).trans (hs.block i hi)⟩

theorem loadBlock_walks (hcall : KeepsBlocks file blocks loadKey E) (hb : b ∈ blocks)
    (h : (f.block b).Walkable mapped) (hs : SameBlocks f blocks (file s)) :
    Spec (loadBlock acc file loadKey mapped b (f.block b).size (f.block b).size 0) s
      (fun _ s' => SameBlocks f blocks (file s')) (fun e _ => E e) := by
  refine loadBlock_walk hcall hb (fun off n s hreached _ hs => ?_) h (Nat.sub_le _ _) hs
  unfold loadBlock
  exact Spec.ite (fun hlt => absurd hlt (Nat.not_lt.mpr hreached)) (fun _ => Spec.pure hs)

/-- 短い記録に着けば、`std::length_error` が投げられる。 -/
theorem loadBlock_short (hcall : KeepsBlocks file blocks loadKey E) (hE : E .lengthError)
    (hb : b ∈ blocks) (h : (f.block b).EndsShort mapped) (hs : SameBlocks f blocks (file s)) :
    Spec (loadBlock acc file loadKey mapped b (f.block b).size (f.block b).size 0) s
      (fun _ _ => False) (fun e _ => E e) := by
  refine loadBlock_walk hcall hb (fun off n s hshort hn hs => ?_) h (Nat.sub_le _ _) hs
  have hlt := hshort.lt
  obtain ⟨n, rfl⟩ : ∃ m, n = m + 1 := ⟨n - 1, by omega⟩
  unfold loadBlock
  refine Spec.ite (fun _ => ?_) (fun hge => absurd hlt hge)
  refine Spec.bind (Spec.get ?_)
  dsimp only
  rw [hs.block b hb]
  refine Spec.ite (fun hout => absurd hout (Nat.not_lt.mpr hshort.inside)) (fun _ => ?_)
  refine Spec.ite (fun _ => ?_) (fun hmark => absurd hshort.live hmark)
  exact Spec.ite (fun _ => Spec.throw hE) (fun hlong => absurd hshort.short hlong)

theorem nextIndex_lt (hc : Chain f.nextOf start (start :: rest))
    (hlt : ∀ i ∈ start :: rest, i < f.count) : (f.block start).nextIndex < f.count := by
  have htail := hc.tail
  cases rest with
  | nil =>
      have hlast : (f.block start).nextIndex = 0 := Chain.nil_iff.mp htail
      exact hlast ▸ Nat.lt_of_le_of_lt (Nat.zero_le _) (hlt start List.mem_cons_self)
  | cons r rest => exact lt_of_eq_of_lt htail.head (hlt r (by simp))

/-- たどったブロックの次のブロックから、読み込みが続く。 -/
theorem loadBlocks_next {Q : PUnit → σ → Prop} {F : Failure → σ → Prop}
    {next : Option Nat → EStateM Failure σ PUnit} (hc : Chain f.nextOf start (start :: rest))
    (hmem : start ∈ blocks) (hlt : ∀ i ∈ start :: rest, i < f.count) (hs : SameBlocks f blocks (file s))
    (h : Spec (next (if f.nextOf start = 0 then none else some (f.nextOf start))) s Q F) :
    Spec (observe file (readNext start) >>= next) s Q F := by
  have hblock := hs.block start hmem
  refine Spec.bind (Spec.observe ((readNext_spec_lt ?_).mono ?_ (fun _ _ h => h.elim)))
  · rw [hblock]
    exact Nat.lt_of_lt_of_le (nextIndex_lt hc hlt) hs.count
  · rintro _ _ ⟨-, rfl⟩
    rwa [hblock]

theorem loadBlocks_walks (acc : KeyAccessor κ) (hcall : KeepsBlocks file blocks loadKey E) (hE : E .lengthError)
    (hc : Chain f.nextOf start rest) (hsub : ∀ i ∈ rest, i ∈ blocks) (hlt : ∀ i ∈ rest, i < f.count)
    (hread : Readable f mapped rest) (hn : rest.length ≤ n) (hs : SameBlocks f blocks (file s)) :
    Spec (loadBlocks acc file loadKey mapped n (if start = 0 then none else some start)) s
      (fun _ _ => True) (fun e _ => E e) := by
  induction hread generalizing start n s with
  | nil =>
      rw [if_pos (Chain.nil_iff.mp hc)]
      unfold loadBlocks
      exact Spec.pure trivial
  | @short b rest h =>
      obtain ⟨n, rfl⟩ : ∃ m, n = m + 1 := ⟨n - 1, by simp only [List.length_cons] at hn; omega⟩
      obtain rfl : start = b := hc.head
      rw [if_neg (hc.ne_zero start List.mem_cons_self)]
      unfold loadBlocks
      refine Spec.bind (Spec.get (Spec.bind ?_))
      rw [hs.block start (hsub start List.mem_cons_self)]
      exact (loadBlock_short hcall hE (hsub start List.mem_cons_self) h hs).mono (fun _ _ hno => hno.elim) (fun _ _ he => he)
  | @block b rest h hread ih =>
      obtain ⟨n, rfl⟩ : ∃ m, n = m + 1 := ⟨n - 1, by simp only [List.length_cons] at hn; omega⟩
      obtain rfl : start = b := hc.head
      have hmem : start ∈ blocks := hsub start List.mem_cons_self
      rw [if_neg (hc.ne_zero start List.mem_cons_self)]
      unfold loadBlocks
      refine Spec.bind (Spec.get (Spec.bind ?_))
      rw [hs.block start hmem]
      refine (loadBlock_walks hcall hmem h hs).mono (fun _ s' hs' => ?_) (fun _ _ he => he)
      exact loadBlocks_next hc hmem hlt hs' (ih hc.tail (fun i hi => hsub i (List.mem_cons_of_mem _ hi))
        (fun i hi => hlt i (List.mem_cons_of_mem _ hi)) (by simp only [List.length_cons] at hn; omega) hs')

/-! ## 終わらない場合 -/

def skipKey (_ : κ) (_ : Nat) (_ : KeyAddition) : EStateM Failure σ PUnit := pure ()

theorem skipKey_keeps : KeepsBlocks file blocks
    (skipKey : κ → Nat → KeyAddition → EStateM Failure σ PUnit) (fun _ => False) :=
  fun _ _ _ _ => Spec.pure ⟨Nat.le_refl _, fun _ _ => rfl⟩

/-- 終わりにも短い記録にもたどれない位置からの読み込みは、残りの回数をどれだけ与えても戻らず、捕まえられる例外も投げない。 -/
theorem loadBlock_stuck (hb : ((file s).block b).content = c) (hend : ¬ Walk c mapped sz (sz ≤ ·) off)
    (hshort : ¬ Walk c mapped sz (ShortKey c mapped sz) off) (n : Nat) :
    Spec (loadBlock acc file skipKey mapped b sz n off) s (fun _ _ => False)
      (fun e _ => e = .diverges ∨ e = .busError) := by
  induction n generalizing off with
  | zero =>
      unfold loadBlock
      exact Spec.ite (fun _ => Spec.throw (Or.inl rfl)) (fun hge => absurd (Walk.stop (Nat.not_lt.mp hge)) hend)
  | succ n ih =>
      unfold loadBlock
      refine Spec.ite (fun hlt => ?_) (fun hge => absurd (Walk.stop (Nat.not_lt.mp hge)) hend)
      refine Spec.bind (Spec.get ?_)
      dsimp only
      rw [hb]
      refine Spec.ite (fun _ => Spec.throw (Or.inr rfl)) (fun hin => ?_)
      have hinside : off + keyHeaderSize ≤ mapped := Nat.not_lt.mp hin
      -- 長さが零の記録では、位置が変わらない。
      have hrest {stop : Nat → Prop} (hlive : getField c (off + khMark) ≠ markDeleted →
            keyHeaderSize ≤ getField c (off + khKeySize) ∧ off + getField c (off + khKeySize) ≤ mapped)
          (h : ¬ Walk c mapped sz stop off) : ¬ Walk c mapped sz stop (off + getField c (off + khKeySize)) := by
        intro hwalk
        rcases Nat.eq_zero_or_pos (getField c (off + khKeySize)) with hzero | hpos
        · rw [hzero, Nat.add_zero] at hwalk
          exact h hwalk
        · exact h (.record hlt hinside hpos hlive hwalk)
      refine Spec.ite (fun hmark => ?_) (fun hmark => ?_)
      · refine Spec.ite (fun hless => absurd (Walk.stop ⟨hlt, hinside, hmark, hless⟩) hshort) (fun hlong => ?_)
        refine Spec.ite (fun _ => Spec.throw (Or.inr rfl)) (fun hbody => ?_)
        have hlive := fun _ : getField c (off + khMark) ≠ markDeleted => And.intro
            (Nat.not_lt.mp hlong) (Nat.not_lt.mp hbody)
        exact Spec.bind (Spec.pure (ih (hrest hlive hend) (hrest hlive hshort)))
      · exact ih (hrest (fun hne => absurd hne hmark) hend) (hrest (fun hne => absurd hne hmark) hshort)

theorem loadBlock_loops (hlt : off < sz) (hinside : off + keyHeaderSize ≤ mapped)
    (hsize : getField ((file s).block b).content (off + khKeySize) = 0)
    (hmark : getField ((file s).block b).content (off + khMark) = markDeleted) (n : Nat) :
    (loadBlock acc file loadKey mapped b sz n off).run s = .error .diverges s := by
  induction n with
  | zero =>
      unfold loadBlock
      rw [if_pos hlt]
      rfl
  | succ n ih =>
      unfold loadBlock
      rw [if_pos hlt]
      rw [EStateM.run_bind, EStateM.run_get]
      dsimp only
      rw [if_neg (Nat.not_lt.mpr hinside)]
      simpa only [hsize, hmark, ne_eq, not_true_eq_false, if_false, Nat.add_zero] using ih

theorem loadBlocks_stuck (acc : KeyAccessor κ) (hc : Chain f.nextOf start rest) (hsub : ∀ i ∈ rest, i ∈ blocks)
    (hlt : ∀ i ∈ rest, i < f.count) (hbad : ¬ Readable f mapped rest) (hs : SameBlocks f blocks (file s)) (n : Nat) :
    Spec (loadBlocks acc file skipKey mapped n (if start = 0 then none else some start)) s
      (fun _ _ => False) (fun e _ => e = .diverges ∨ e = .busError) := by
  induction rest generalizing start n s with
  | nil => exact absurd .nil hbad
  | cons b rest ih =>
      obtain rfl : start = b := hc.head
      have hmem : start ∈ blocks := hsub start List.mem_cons_self
      rw [if_neg (hc.ne_zero start List.mem_cons_self)]
      cases n with
      | zero => exact Spec.throw (Or.inl rfl)
      | succ n =>
          unfold loadBlocks
          refine Spec.bind (Spec.get (Spec.bind ?_))
          rw [hs.block start hmem]
          by_cases hwalk : (f.block start).Walkable mapped
          · -- このブロックは読み終えるので、壊れた記録は後のブロックにある。
            refine (loadBlock_walks skipKey_keeps hmem hwalk hs).mono (fun _ s' hs' => ?_) (fun _ _ he => he.elim)
            exact loadBlocks_next hc hmem hlt hs' (ih hc.tail (fun i hi => hsub i (List.mem_cons_of_mem _ hi))
              (fun i hi => hlt i (List.mem_cons_of_mem _ hi)) (fun hrest => hbad (.block hwalk hrest)) hs' n)
          · have hcontent := congrArg Block.content (hs.block start hmem)
            exact (loadBlock_stuck hcontent hwalk (fun hshort => hbad (.short hshort)) _).mono
              (fun _ _ h => h.elim) (fun _ _ he => he)

/-! ## 主定理 -/

/-- `load` は、鎖の記録を、終わりまでか短い記録までたどれる時、その時に限り、どの `load_key` についても、読み終えるか
`LoadIndexFail` を投げる。たどれなければ、失敗しない `load_key` についても、終わらないか写した領域の外を読む。 -/
theorem load_finishes_iff (hc : Chain f.nextOf start blocks) (h0 : start ≠ 0)
    (hlt : ∀ i ∈ blocks, i < f.count) (hf : file s = f) :
    (∀ loadKey : κ → Nat → KeyAddition → EStateM Failure σ PUnit,
      KeepsBlocks file blocks loadKey (fun e => e.isException) → Finishes (load acc file loadKey mapped start) s) ↔
    Readable f mapped blocks := by
  have hs : SameBlocks f blocks (file s) := by
    rw [hf]
    exact ⟨Nat.le_refl _, fun _ _ => rfl⟩
  constructor
  · intro hall
    by_contra hbad
    have hstuck := loadBlocks_stuck acc hc (fun _ hi => hi) hlt hbad hs (file s).count
    rw [if_neg h0] at hstuck
    have hskip := hall skipKey fun key dataBlock addition s => (skipKey_keeps key dataBlock addition s).mono (fun _ _ h => h)
      (fun _ _ h => h.elim)
    have hnever : Spec (load acc file skipKey mapped start) s (fun _ _ => False)
        (fun e _ => e = .diverges ∨ e = .busError) := by
      refine Spec.adaptExcept (Spec.bind (Spec.get (hstuck.mono (fun _ _ h => h) (fun e _ he => ?_))))
      rcases he with rfl | rfl
      · exact Or.inl rfl
      · exact Or.inr rfl
    unfold Finishes Spec at hskip
    unfold Spec at hnever
    cases hrun : (load acc file skipKey mapped start).run s with
    | ok a s' =>
        rw [hrun] at hnever
        exact hnever
    | error e s' =>
        rw [hrun] at hskip hnever
        obtain ⟨cause, rfl⟩ := hskip
        simp at hnever
  · intro hread loadKey hcall
    have hlength : blocks.length ≤ (file s).count := by
      have hrange : blocks ⊆ List.range f.count := fun i hi => List.mem_range.mpr (hlt i hi)
      rw [hf]
      simpa using (List.subperm_of_subset hc.nodup hrange).length_le
    have hloads := loadBlocks_walks acc hcall rfl hc (fun _ hi => hi) hlt hread hlength hs
    rw [if_neg h0] at hloads
    refine Spec.adaptExcept (Spec.bind (Spec.get (hloads.mono (fun _ _ _ => trivial) (fun e _ he => ⟨e, ?_⟩))))
    exact if_pos he

def emptyRecord : File := ⟨[Block.zero, ⟨0, keyHeaderSize, setField (fun _ => 0) khMark markDeleted⟩]⟩

/-- 零の記録のあるファイルの読み込みは、残りの回数をどれだけ与えても終わらない。 -/
theorem load_loops_on_empty_record :
    ¬ Finishes (load defaultWriteIndexAccessor Prod.fst recordKey 4088 1) (emptyRecord, []) ∧
      ∀ n, (loadBlock defaultWriteIndexAccessor Prod.fst recordKey 4088 1 keyHeaderSize n 0).run (emptyRecord, []) =
        .error .diverges (emptyRecord, []) := by
  refine ⟨fun h => ?_, fun n => loadBlock_loops (by decide) (by decide) (by decide) (by decide) n⟩
  have hrun : (load defaultWriteIndexAccessor Prod.fst recordKey 4088 1).run (emptyRecord, []) =
      .error .diverges (emptyRecord, []) := rfl
  unfold Finishes Spec at h
  rw [hrun] at h
  obtain ⟨cause, hcause⟩ := h
  simp at hcause

/-- 一文字のキーの記録があるブロックから、消された記録と短い記録のあるブロックへ続く鎖。 -/
def shortRecord : File :=
  ⟨[Block.zero, ⟨2, keyHeaderSize + 1, setField (fun _ => 0) khKeySize (keyHeaderSize + 1)⟩,
    ⟨0, 2 * keyHeaderSize, setField (setField (fun _ => 0) khKeySize keyHeaderSize) khMark markDeleted⟩]⟩

theorem shortRecord_chain : Chain shortRecord.nextOf 1 [1, 2] := ⟨rfl, by decide, rfl, by decide, rfl⟩

theorem shortRecord_readable : Readable shortRecord 4088 [1, 2] := by
  refine .block ?_ (.short ?_)
  · exact .record (by decide) (by decide) (by decide) (fun _ => by decide) (.stop (by decide))
  · refine .record (by decide) (by decide) (by decide) (fun hlive => absurd (by decide) hlive) (.stop ?_)
    exact ⟨by decide, by decide, by decide, by decide⟩

theorem recordKey_keeps : KeepsBlocks Prod.fst blocks (recordKey (κ := κ)) E :=
  fun _ _ _ _ => Spec.modify ⟨Nat.le_refl _, fun _ _ => rfl⟩

/-- 短い記録に着くと、`LoadIndexFail` になる。 -/
theorem load_finishes_short :
    Finishes (load defaultWriteIndexAccessor Prod.fst recordKey 4088 1) (shortRecord, []) :=
  (load_finishes_iff (s := (shortRecord, [])) shortRecord_chain (by decide) (by decide) rfl).mpr
    shortRecord_readable recordKey recordKey_keeps

end UnixCommons.PlainStorage
