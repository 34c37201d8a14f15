import Mathlib.Logic.Relation
import UnixCommons.Lib.Machine
import UnixCommons.PlainStorage.Lemmas.LoadIndex

/-!
# 索引の往復

生きている記録の並び `live` を外に置き、索引の操作を任意の順に行う。
-/

namespace UnixCommons.PlainStorage

open Lib

/-- 索引の一歩。 -/
inductive IndexStep {κ : Type} [DecidableEq κ] (acc : KeyAccessor κ) (g : Geometry) :
    Index × List (Call κ) → Index × List (Call κ) → Prop
  | insert {s s' live k d ka} : d < 2 ^ 32 → (Index.insert acc g k d).run s = .ok ka s' →
      IndexStep acc g (s, live) (s', ⟨k, d, ka⟩ :: live)
  | insertFailed {s s' live k d e} : acc.size k + keyHeaderSize ≤ g.availableSize → d < 2 ^ 32 →
      (Index.insert acc g k d).run s = .error e s' → IndexStep acc g (s, live) (s', live)
  | update {s s' live d} {x : Call κ} : x ∈ live → d < 2 ^ 32 →
      (Index.update g d x.addition).run s = .ok .unit s' →
      IndexStep acc g (s, live) (s', ⟨x.key, d, x.addition⟩ :: live.erase x)
  | erase {s s' live} {x : Call κ} : x ∈ live → (Index.erase g x.addition).run s = .ok .unit s' →
      IndexStep acc g (s, live) (s', live.erase x)

def IndexReachable {κ : Type} [DecidableEq κ] (acc : KeyAccessor κ) (g : Geometry)
    (t : Index × List (Call κ)) : Prop :=
  ∃ (f f₀ : File) (ad d : Nat) (a a₀ : Allocator) (s₀ : Index), f.field ad 0 = 0 ∧ f.field d 0 =
    0 ∧ ad ≠ d ∧ f.count ≤ g.maxBlocks ∧ (Allocator.create g ad).run f = .ok a f₀ ∧
    (Index.create g d).run a = .ok s₀ a₀ ∧ Relation.ReflTransGen (IndexStep acc g) (s₀, []) t

/-- 成功した `insert` と `erase` の一歩。 -/
inductive IndexSucceeds {κ : Type} [DecidableEq κ] (acc : KeyAccessor κ) (g : Geometry) :
    Index × List (Call κ) → Index × List (Call κ) → Prop
  | insert {s s' live k d ka} : d < 2 ^ 32 → (Index.insert acc g k d).run s = .ok ka s' →
      IndexSucceeds acc g (s, live) (s', ⟨k, d, ka⟩ :: live)
  | erase {s s' live} {x : Call κ} : x ∈ live → (Index.erase g x.addition).run s = .ok .unit s' →
      IndexSucceeds acc g (s, live) (s', live.erase x)

/-- 開き直して読み込むと、`live` の記録がちょうど一回ずつ渡る。 -/
def ReloadsExactly {κ : Type} (acc : KeyAccessor κ) (g : Geometry) (s : Index) (live : List (Call κ)) : Prop :=
  Spec (reloadCalls acc g s.allocator.description s.descrBlock) s.allocator.destroy
    (fun calls _ => calls.Perm live) (fun _ _ => False)

/-- 操作の列の不変条件。返却のない列では、空きのブロックは使われていない。 -/
structure IndexRunInv {κ : Type} (acc : KeyAccessor κ) (g : Geometry) (s : Index)
    (live : List (Call κ)) (free : List Nat) (kbs : List (Nat × List (Record κ))) : Prop where
  inv : IndexInv acc g s free kbs
  stored : s.Stored
  live : live.Perm (indexCalls acc kbs)
  unused : ∀ i ∈ free, (s.file.block i).size = 0

variable {κ : Type} [DecidableEq κ] {acc : KeyAccessor κ} {g : Geometry} {s s' : Index} {k : κ} {d : Nat}
  {live : List (Call κ)} {free : List Nat} {kbs : List (Nat × List (Record κ))} {x : Call κ}

/-! ## 不変条件 -/

theorem perm_replace {l X Y xs : List (Call κ)} (h : l.Perm (X ++ x :: Y)) :
    (xs ++ l.erase x).Perm (X ++ xs ++ Y) := by
  have h1 : (l.erase x).Perm (X ++ Y) := by
    have := (h.trans List.perm_middle).erase x
    rwa [List.erase_cons_head] at this
  calc xs ++ l.erase x
    _ |>.Perm (xs ++ (X ++ Y)) := h1.append_left xs
    _ |>.Perm (X ++ xs ++ Y) := by
        rw [← List.append_assoc]
        exact List.perm_append_comm.append_right Y

theorem size_zero_of_mem {s : Index} {i : Nat} (h : ∀ i ∈ free, (s.file.block i).size = 0)
    (hi : i ∈ free ∨ s.file.count ≤ i) : (s.file.block i).size = 0 := by
  rcases hi with hi | hi
  · exact h i hi
  · rw [File.block_of_le hi]
    rfl

omit [DecidableEq κ] in
theorem IndexRunInv.inserted {free' : List Nat} {kbs' : List (Nat × List (Record κ))}
    (h : IndexRunInv acc g s live free kbs) (hi : Inserted acc g s free kbs x s' free' kbs') :
    IndexRunInv acc g s' (x :: live) free' kbs' := by
  obtain ⟨X, Y, hX, hY⟩ := hi.calls
  refine ⟨hi.inv, hi.stored h.stored, ?_, fun i hif => ?_⟩
  · rw [hY]
    have := h.live
    rw [hX] at this
    exact (this.cons x).trans List.perm_middle.symm
  · have hik : i ∉ kbs'.map Prod.fst := by
      intro hm
      obtain ⟨p, hp, rfl⟩ := List.mem_map.mp hm
      exact hi.inv.keys_free p hp hif
    rw [hi.keeps.size i hik]
    refine size_zero_of_mem h.unused ?_
    rcases hi.owned with ⟨rfl, -, -⟩ | ⟨b, ht, -⟩
    · exact Or.inl hif
    · exact ht.mem (by simp [hif])

theorem IndexRunInv.replaced {xs : List (Call κ)} {kbs' : List (Nat × List (Record κ))}
    (h : IndexRunInv acc g s live free kbs) (hr : Replaced acc g s free kbs x xs s' kbs') :
    IndexRunInv acc g s' (xs ++ live.erase x) free kbs' := by
  obtain ⟨X, Y, hX, hY⟩ := hr.calls
  refine ⟨hr.inv, hr.toRewritten.stored h.inv h.stored, ?_, fun i hif => ?_⟩
  · rw [hY]
    exact perm_replace (hX ▸ h.live)
  · have hik : i ∉ kbs.map Prod.fst := by
      intro hm
      obtain ⟨p, hp, rfl⟩ := List.mem_map.mp hm
      exact h.inv.keys_free p hp hif
    rw [hr.frame i hik]
    exact h.unused i hif

theorem IndexRunInv.step {t t' : Index × List (Call κ)}
    (h : ∃ free kbs, IndexRunInv acc g t.1 t.2 free kbs) (hs : IndexStep acc g t t') :
    ∃ free kbs, IndexRunInv acc g t'.1 t'.2 free kbs := by
  obtain ⟨free, kbs, h⟩ := h
  cases hs with
  | insert hd hr =>
      obtain ⟨free', kbs', hi⟩ := (insert_spec h.inv _ hd).ok hr
      exact ⟨free', kbs', h.inserted hi⟩
  | insertFailed hfit hd hr =>
      rcases (insert_spec h.inv _ hd).error hr with ⟨-, hlt, -⟩ | ⟨-, free', hf⟩
      · exact absurd hlt (Nat.not_lt.mpr hfit)
      · refine ⟨free', kbs, hf.inv, ?_, h.live, fun i hi => ?_⟩
        · have := h.stored
          unfold Index.Stored File.field at this ⊢
          rw [hf.descrBlock, hf.descr, hf.first]
          exact this
        · rw [hf.size i]
          exact size_zero_of_mem h.unused (hf.free i hi)
  | update hx hd hr =>
      obtain ⟨kbs', hr⟩ := (update_spec h.inv (h.live.mem_iff.mp hx) hd).ok hr
      exact ⟨free, kbs', h.replaced hr⟩
  | erase hx hr =>
      obtain ⟨kbs', hr⟩ := (erase_spec h.inv (h.live.mem_iff.mp hx)).ok hr
      exact ⟨free, kbs', h.replaced hr⟩

theorem IndexReachable.inv {t : Index × List (Call κ)} (h : IndexReachable acc g t) :
    ∃ free kbs, IndexRunInv acc g t.1 t.2 free kbs := by
  obtain ⟨f, f₀, ad, d, a, a₀, s₀, hz, hzd, hne, hm, ha, hs, hr⟩ := h
  induction hr with
  | refl =>
      obtain ⟨hready, hdesc, hfd, -⟩ := create_fresh_spec hz hm (d := ad) |>.ok ha
      obtain ⟨b, free, hi⟩ := (create_index_fresh acc hready
        (by rw [File.field, hfd]; exact hzd) (by rw [hdesc]; exact hne.symm)).ok hs
      exact ⟨free, [(b, [])], hi.inv, hi.stored, by simp [indexCalls, blockCalls], hi.unused⟩
  | tail _ hs ih => exact IndexRunInv.step ih hs

omit [DecidableEq κ] in
theorem IndexRunInv.reloads (h : IndexRunInv acc g s live free kbs) : ReloadsExactly acc g s live := by
  refine (reloadCalls_spec h.inv.ready h.inv.descr_lt h.inv.descr_ne h.stored
    h.inv.ne_nil h.inv.keys (fun p hp => (h.inv.keys_ne p hp).1)).mono ?_ (fun _ _ h => h)
  rintro _ _ rfl
  exact h.live.symm

/-! ## 主定理 -/

/-- 索引の往復。どの状態でも、開き直した読み込みは生きている記録をちょうど一回ずつ渡す。入るキーの `insert` は、
ファイルを伸ばせないときのほかは失敗せず、生きている記録の `update` と `erase` は失敗しない。 -/
theorem index_reload_round_trip (h : IndexReachable acc g (s, live)) :
    ReloadsExactly acc g s live ∧
    (∀ k d, acc.size k + keyHeaderSize ≤ g.availableSize → d < 2 ^ 32 →
      Spec (Index.insert acc g k d) s (fun _ _ => True) (fun e _ => e.isResize)) ∧
    ∀ x ∈ live, (∀ d, d < 2 ^ 32 → Spec (Index.update g d x.addition) s (fun _ _ => True) (fun _ _ => False)) ∧
      Spec (Index.erase g x.addition) s (fun _ _ => True) (fun _ _ => False) := by
  obtain ⟨free, kbs, hi⟩ := h.inv
  refine ⟨hi.reloads, fun k d hfit hd => ?_, fun x hx => ⟨fun d hd => ?_, ?_⟩⟩
  · refine (insert_spec hi.inv k hd).mono (fun _ _ _ => trivial) ?_
    rintro e s' (⟨-, hlt, -⟩ | ⟨he, -⟩)
    · exact absurd hlt (Nat.not_lt.mpr hfit)
    · exact he
  · exact (update_spec hi.inv (hi.live.mem_iff.mp hx) hd).mono (fun _ _ _ => trivial) (fun _ _ h => h)
  · exact (erase_spec hi.inv (hi.live.mem_iff.mp hx)).mono (fun _ _ _ => trivial) (fun _ _ h => h)

theorem IndexReachable.create {a : Allocator} (acc : KeyAccessor κ) (hm : 2 ≤ g.maxBlocks)
    (hs : (Index.create g 1).run ⟨⟨[Block.zero, Block.zero]⟩, 0, 0⟩ = .ok s a) :
    IndexReachable acc g (s, []) ∧ ∃ b free, IndexInv acc g s free [(b, [])] := by
  have hz : ∀ d, File.field ⟨[Block.zero, Block.zero]⟩ d 0 = 0 := by
    intro d
    rcases d with _ | _ | d
    · rfl
    · rfl
    · rfl
  have ha : (Allocator.create g 0).run ⟨[Block.zero, Block.zero]⟩ =
      .ok ⟨⟨[Block.zero, Block.zero]⟩, 0, 0⟩ ⟨[Block.zero, Block.zero]⟩ := rfl
  have hready := ((create_fresh_spec (hz 0) hm).ok ha).1
  obtain ⟨b, free, hi⟩ := (create_index_fresh acc hready (hz 1) (by simp)).ok hs
  exact ⟨⟨_, _, 0, 1, _, a, s, hz 0, hz 1, by simp, hm, ha, hs, .refl⟩, b, free, hi.inv⟩

/-- 領域が十三バイトのブロックを、二十個まで許すファイル。 -/
def narrowGeometry : Geometry := ⟨21, 20, by decide, by decide, by decide⟩

/-- 領域に一文字のキーの記録が二つ入るブロックを、二十個まで許すファイル。 -/
def pairGeometry : Geometry := ⟨34, 20, by decide, by decide, by decide⟩

/-- 操作。 -/
inductive IndexOp (κ : Type)
  | insert (k : κ) (d : UInt32)
  | update (i : Nat) (d : UInt32)
  | erase (i : Nat)

def afterOk {α : Type} (r : EStateM.Result Failure Index α)
    (f : α → Index → Index × List (Call κ)) : Option (Index × List (Call κ)) :=
  match r with
  | .ok a s => some (f a s)
  | .error _ _ => none

omit [DecidableEq κ] in
theorem exists_of_afterOk {α : Type} {r : EStateM.Result Failure Index α} {f : α → Index → Index × List (Call κ)}
    {t : Index × List (Call κ)} (h : afterOk r f = some t) : ∃ a s, r = .ok a s ∧ f a s = t := by
  cases r with
  | ok a s => exact ⟨a, s, rfl, Option.some.inj h⟩
  | error e s => cases h

def stepIndex (acc : KeyAccessor κ) (g : Geometry) (t : Index × List (Call κ)) : IndexOp κ → Option (Index × List (Call κ))
  | .insert k d => afterOk ((Index.insert acc g k d.toNat).run t.1) fun ka s => (s, ⟨k, d.toNat, ka⟩ :: t.2)
  | .update i d => t.2[i]?.bind fun x =>
      afterOk ((Index.update g d.toNat x.addition).run t.1) fun _ s => (s, ⟨x.key, d.toNat, x.addition⟩ :: t.2.erase x)
  | .erase i => t.2[i]?.bind fun x => afterOk ((Index.erase g x.addition).run t.1) fun _ s => (s, t.2.erase x)

theorem IndexStep.of_stepIndex {t t' : Index × List (Call κ)} {op : IndexOp κ}
    (h : stepIndex acc g t op = some t') : IndexStep acc g t t' := by
  cases op with
  | insert k d =>
      obtain ⟨ka, s, hr, rfl⟩ := exists_of_afterOk h
      exact .insert d.toNat_lt hr
  | update i d =>
      obtain ⟨x, hx, h⟩ := Option.bind_eq_some_iff.mp h
      obtain ⟨_, s, hr, rfl⟩ := exists_of_afterOk h
      exact .update (List.mem_of_getElem? hx) d.toNat_lt hr
  | erase i =>
      obtain ⟨x, hx, h⟩ := Option.bind_eq_some_iff.mp h
      obtain ⟨_, s, hr, rfl⟩ := exists_of_afterOk h
      exact .erase (List.mem_of_getElem? hx) hr

theorem IndexReachable.step {t t' : Index × List (Call κ)} (h : IndexReachable acc g t)
    (hs : IndexStep acc g t t') : IndexReachable acc g t' := by
  obtain ⟨f, f₀, ad, d, a, a₀, s₀, hz, hzd, hne, hm, ha, hs₀, hrun⟩ := h
  exact ⟨f, f₀, ad, d, a, a₀, s₀, hz, hzd, hne, hm, ha, hs₀, hrun.tail hs⟩

theorem IndexReachable.exists_execute (acc : KeyAccessor κ) (hm : 2 ≤ g.maxBlocks)
    (ops : List (IndexOp κ)) (p : List (Call κ) → Bool)
    (h : (match (Index.create g 1).run ⟨⟨[Block.zero, Block.zero]⟩, 0, 0⟩ with
      | .ok s _ => (execute (stepIndex acc g) (s, []) ops).any fun t => p t.2
      | .error _ _ => false) = true) : ∃ s live, IndexReachable acc g (s, live) ∧ p live = true := by
  cases hs : (Index.create g 1).run ⟨⟨[Block.zero, Block.zero]⟩, 0, 0⟩ with
  | error e a => simp [hs] at h
  | ok s a =>
      rw [hs] at h
      obtain ⟨⟨t, live⟩, ht, hlive⟩ := (Option.any_eq_true _ _).mp h
      have hreach := execute_always (fun _ _ _ h hstep => h.step (.of_stepIndex hstep))
          (IndexReachable.create acc hm hs).1 ht
      exact ⟨t, live, hreach, hlive⟩

/-- 三つの記録を二つのブロックに入れ、始めの記録を消し、次の記録を改める操作。 -/
def sampleOps : List (IndexOp Bytes) := [.insert [65] 3, .insert [66] 4, .insert [67] 5, .erase 2, .update 1 9]

def inTwoBlocks (live : List (Call Bytes)) : Bool :=
  (live.map fun x => (x.key, x.dataBlock)) = [([66], 9), ([67], 5)] && (live.map fun x => x.addition.blockIndex).Nodup

theorem index_reload_round_trip_sample : ∃ (s : Index) (live : List (Call Bytes)),
    IndexReachable defaultWriteIndexAccessor pairGeometry (s, live) ∧ inTwoBlocks live = true ∧
    ReloadsExactly defaultWriteIndexAccessor pairGeometry s live := by
  obtain ⟨s, live, h, hlive⟩ := IndexReachable.exists_execute (g := pairGeometry) defaultWriteIndexAccessor (by decide)
    sampleOps inTwoBlocks (by decide +kernel)
  exact ⟨s, live, h, hlive, (index_reload_round_trip h).1⟩

/-! ## 大きすぎるキー -/

omit [DecidableEq κ] in
/-- 失敗した `insert` の後の状態。新しいブロックは空で、記述ブロックは古い先頭を指したままである。 -/
theorem IndexRunInv.failed (h : IndexRunInv acc g s live free kbs) (hd : d < 2 ^ 32)
    (hr : (Index.insert acc g k d).run s = .error .fileFormatError s') :
    ∃ b free', IndexInv acc g s' free' ((b, []) :: kbs) ∧ s'.file.field s'.descrBlock 0 = s.firstKeysBlock ∧
      KeyChain acc g s'.file s.firstKeysBlock kbs := by
  rcases (insert_spec h.inv k hd).error hr with ⟨-, -, b, free', hp⟩ | ⟨he, -⟩
  · have hz : (s'.file.block b).size = 0 := by
      rw [hp.size]
      exact size_zero_of_mem h.unused (hp.taken.mem (by simp))
    have hi := hp.inv
    rw [File.setSize_eq_self hz] at hi
    refine ⟨b, free', hi, ?_, hp.keyChain h.inv⟩
    rw [File.field, hp.keeps.descrBlock, hp.descr]
    exact h.stored
  · exact absurd he (by decide)

theorem IndexRunInv.insert_lost (k' : κ) (h : IndexRunInv acc g s live free kbs) (hd : d < 2 ^ 32)
    (hr : (Index.insert acc g k d).run s = .error .fileFormatError s')
    (hfit : acc.size k' + keyHeaderSize ≤ g.availableSize) :
    ∃ t, IndexSucceeds acc g (s', live) t ∧ ¬ ReloadsExactly acc g t.1 t.2 := by
  obtain ⟨b, free', hi, hst, hc⟩ := h.failed hd hr
  have hfit' : recordsEnd acc 0 [] + (acc.size k' + keyHeaderSize) ≤ g.availableSize := by
    simpa [recordsEnd] using hfit
  obtain ⟨ka, s'', hr', rfl, rfl⟩ := (insert_here_spec (d := 0) hi hfit').exists_ok
  have hins := hi.insert_here (d := 0) hfit' (by decide)
  have hnd := hi.keys.chain.nodup
  simp only [List.map_cons, List.nodup_cons, List.mem_map] at hnd
  have hb : s'.firstKeysBlock = b := hi.keys.chain.head
  have hst' : (writeRecord acc s' (recordsEnd acc 0 []) k' 0).file.field s'.descrBlock 0 = s.firstKeysBlock := by
    rw [← hst, File.field, writeRecord_ne]
    · rfl
    · rw [hb]
      exact (hi.keys_ne (b, []) (by simp)).2.symm
  have hc' : KeyChain acc g (writeRecord acc s' (recordsEnd acc 0 []) k' 0).file s.firstKeysBlock kbs := by
    refine hc.congr (fun p hp => writeRecord_ne ?_) (Nat.le_of_eq writeRecord_count.symm)
    rw [hb]
    exact fun e => hnd.1 ⟨p, hp, e⟩
  refine ⟨_, .insert (by decide) hr', fun hre => ?_⟩
  obtain ⟨calls, f, hrun, rfl⟩ := (reloadCalls_spec hins.inv.ready hins.inv.descr_lt hins.inv.descr_ne hst'
    h.inv.ne_nil hc' (fun p hp => (hi.keys_ne p (by simp [hp])).1)).exists_ok
  have hperm := Spec.ok hre hrun
  have := (hperm.trans (h.live.cons _)).length_eq
  simp at this

/-- 大きすぎるキーの `insert` が失敗した後、後に続く成功した操作のどの列の後でも読み込みが正しいのは、ブロックに入る
キーが一つもないときに限る。 -/
theorem failed_insert_keeps_store_iff (h : IndexReachable acc g (s, live)) (hd : d < 2 ^ 32)
    (hr : (Index.insert acc g k d).run s = .error .fileFormatError s') :
    (∀ t, Relation.ReflTransGen (IndexSucceeds acc g) (s', live) t → ReloadsExactly acc g t.1 t.2) ↔
      ∀ k' : κ, g.availableSize < acc.size k' + keyHeaderSize := by
  obtain ⟨free, kbs, hi⟩ := h.inv
  constructor
  · intro hall k'
    by_contra hfit
    obtain ⟨t, hs, hn⟩ := hi.insert_lost k' hd hr (Nat.not_lt.mp hfit)
    exact hn (hall t (.single hs))
  · intro hnone t ht
    obtain ⟨b, free', hinv, hst, hc⟩ := hi.failed hd hr
    have hcalls : indexCalls acc kbs = [] :=
      List.eq_nil_iff_forall_not_mem.mpr fun x hx => absurd (hnone x.key) (Nat.not_lt.mpr (hi.inv.fits hx))
    have hlive : live = [] := by
      have := hi.live
      rw [hcalls] at this
      exact this.eq_nil
    -- どの操作も成功しないので、失敗の直後の状態のままである。
    have hstay : t = (s', live) := by
      induction ht with
      | refl => rfl
      | tail _ hs ih =>
          subst ih
          cases hs with
          | insert hd' hr' =>
              obtain ⟨free'', kbs'', hins⟩ := (insert_spec hinv _ hd').ok hr'
              obtain ⟨X, Y, -, hY⟩ := hins.calls
              have hfit := hins.inv.fits (hY ▸ List.mem_append_right X List.mem_cons_self)
              exact absurd (hnone _) (Nat.not_lt.mpr hfit)
          | erase hx _ => exact absurd hx (by simp [hlive])
    subst hstay
    refine (reloadCalls_spec hinv.ready hinv.descr_lt hinv.descr_ne hst hi.inv.ne_nil hc
      (fun p hp => (hinv.keys_ne p (by simp [hp])).1)).mono ?_ (fun _ _ h => h)
    rintro _ _ rfl
    exact hi.live.symm

theorem exists_failed_insert (acc : KeyAccessor κ) (hm : 2 ≤ g.maxBlocks)
    (h : (match (Index.create g 1).run ⟨⟨[Block.zero, Block.zero]⟩, 0, 0⟩ with
      | .ok s _ => raises ((Index.insert acc g k d).run s) .fileFormatError
      | .error _ _ => false) = true) :
    ∃ s s', IndexReachable acc g (s, []) ∧ (Index.insert acc g k d).run s = .error .fileFormatError s' := by
  cases hc : (Index.create g 1).run ⟨⟨[Block.zero, Block.zero]⟩, 0, 0⟩ with
  | error e a => simp [hc] at h
  | ok s a =>
      rw [hc] at h
      obtain ⟨s', hr⟩ := exists_of_raises h
      exact ⟨s, s', (IndexReachable.create acc hm hc).1, hr⟩

/-- 二文字のキーの失敗の後に入れた一文字のキーは、開き直すと失われる。 -/
theorem failed_insert_loses_next_key : ∃ (s s' : Index) (t : Index × List (Call Bytes)),
    IndexReachable defaultWriteIndexAccessor narrowGeometry (s, []) ∧
    (Index.insert defaultWriteIndexAccessor narrowGeometry [66, 66] 3).run s = .error .fileFormatError s' ∧
    Relation.ReflTransGen (IndexSucceeds defaultWriteIndexAccessor narrowGeometry) (s', []) t ∧
    ¬ ReloadsExactly defaultWriteIndexAccessor narrowGeometry t.1 t.2 := by
  obtain ⟨s, s', hreach, hr⟩ := exists_failed_insert (g := narrowGeometry) defaultWriteIndexAccessor
    (by decide) (k := [66, 66]) (d := 3) (by decide +kernel)
  obtain ⟨free, kbs, hi⟩ := hreach.inv
  obtain ⟨t, hs, hn⟩ := hi.insert_lost [65] (by decide) hr (by decide)
  exact ⟨s, s', t, hreach, hr, .single hs, hn⟩

theorem failed_insert_keeps_store_iff_narrow : ∃ s s' : Index,
    IndexReachable defaultWriteIndexAccessor narrowGeometry (s, []) ∧
    (Index.insert defaultWriteIndexAccessor narrowGeometry [66, 66] 3).run s = .error .fileFormatError s' ∧
    ((∀ t, Relation.ReflTransGen (IndexSucceeds defaultWriteIndexAccessor narrowGeometry) (s', []) t →
      ReloadsExactly defaultWriteIndexAccessor narrowGeometry t.1 t.2) ↔
      ∀ k' : Bytes, narrowGeometry.availableSize < defaultWriteIndexAccessor.size k' + keyHeaderSize) := by
  obtain ⟨s, s', hreach, hr⟩ := exists_failed_insert (g := narrowGeometry) defaultWriteIndexAccessor
    (by decide) (k := [66, 66]) (d := 3) (by decide +kernel)
  exact ⟨s, s', hreach, hr, failed_insert_keeps_store_iff hreach (by decide) hr⟩

end UnixCommons.PlainStorage
