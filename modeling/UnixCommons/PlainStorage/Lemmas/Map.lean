import Mathlib.Data.List.Perm.Basic
import UnixCommons.PlainStorage.Lemmas.LoadIndex
import UnixCommons.PlainStorage.Lemmas.PlainWriter
import UnixCommons.PlainStorage.Map

/-!
# `Map` の不変条件

ファイルのすべてのブロックは、見出し、二つの記述ブロック、キーの鎖、生きているキーのデータの鎖、空き、失われたもの`leaked` のどれか一つである。
-/

namespace UnixCommons.PlainStorage

/-! ## `index_container_` の補題 -/

section

variable {κ : Type} [LinearOrder κ] {c : Container κ} {k : κ} {v : PlainWriter × KeyAddition} {w : PlainWriter}
  {e : Entry κ}

def Container.Sorted (c : Container κ) : Prop := c.Pairwise fun e e' => e.1 < e'.1

theorem Container.find_eq_none : c.find k = none ↔ ∀ e ∈ c, e.1 ≠ k := by
  simp [Container.find]

theorem Container.isSome_find : (c.find k).isSome ↔ k ∈ c.map Prod.fst := by
  rw [← not_iff_not, Option.not_isSome_iff_eq_none, Container.find_eq_none]
  simp only [List.mem_map, not_exists, not_and, ne_eq]

theorem Container.mem_of_find (h : c.find k = some v) : (k, v) ∈ c := by
  simp only [Container.find, Option.map_eq_some_iff] at h
  obtain ⟨e, he, rfl⟩ := h
  have hk : e.1 = k := by simpa using List.find?_some he
  rw [← hk]
  exact List.mem_of_find?_eq_some he

theorem Container.Sorted.split (hs : c.Sorted) (h : e ∈ c) :
    ∃ c₁ c₂, c = c₁ ++ e :: c₂ ∧ (∀ e' ∈ c₁, e'.1 ≠ e.1) ∧ ∀ e' ∈ c₂, e'.1 ≠ e.1 := by
  obtain ⟨c₁, c₂, rfl⟩ := List.append_of_mem h
  have hp := List.pairwise_append.mp hs
  refine ⟨c₁, c₂, rfl, fun e' he' => ?_, fun e' he' => ?_⟩
  · exact (hp.2.2 e' he' e (by simp)).ne
  · exact ((List.pairwise_cons.mp hp.2.1).1 e' he').ne'

theorem Container.Sorted.find (hs : c.Sorted) (h : (k, v) ∈ c) : c.find k = some v := by
  cases hf : c.find k with
  | none => exact absurd rfl (Container.find_eq_none.mp hf _ h)
  | some v' =>
      have hm := Container.mem_of_find hf
      obtain ⟨c₁, c₂, rfl, h₁, h₂⟩ := hs.split h
      rcases List.mem_append.mp hm with hm | hm
      · exact (h₁ _ hm rfl).elim
      · rcases List.mem_cons.mp hm with he | hm
        · exact congrArg some (Prod.ext_iff.mp he).2
        · exact (h₂ _ hm rfl).elim

/-! ## 挿入 -/

theorem Container.insert_perm (h : ∀ e ∈ c, e.1 ≠ k) : (c.insert k v).Perm ((k, v) :: c) := by
  induction c with
  | nil => exact List.Perm.refl _
  | cons e c ih =>
      unfold Container.insert
      rw [if_neg (h e (by simp)).symm]
      split
      · exact List.Perm.refl _
      · exact ((ih fun e' he' => h e' (by simp [he'])).cons e).trans (List.Perm.swap _ _ _)

theorem Container.mem_insert (h : e ∈ c.insert k v) : e = (k, v) ∨ e ∈ c := by
  induction c with
  | nil => exact Or.inl (by simpa [Container.insert] using h)
  | cons e' c ih =>
      unfold Container.insert at h
      split at h
      · exact Or.inr h
      · split at h
        · exact List.mem_cons.mp h
        · rcases List.mem_cons.mp h with rfl | h
          · exact Or.inr (by simp)
          · exact (ih h).imp_right (List.mem_cons_of_mem _)

theorem Container.Sorted.insert (hs : c.Sorted) : (c.insert k v).Sorted := by
  induction c with
  | nil => exact List.pairwise_singleton _ _
  | cons e c ih =>
      obtain ⟨he, hc⟩ := List.pairwise_cons.mp hs
      unfold Container.insert
      by_cases heq : k = e.1
      · rw [if_pos heq]
        exact hs
      · rw [if_neg heq]
        by_cases hlt : k < e.1
        · rw [if_pos hlt]
          refine List.pairwise_cons.mpr ⟨fun e' he' => ?_, hs⟩
          rcases List.mem_cons.mp he' with rfl | he'
          · exact hlt
          · exact hlt.trans (he e' he')
        · rw [if_neg hlt]
          refine List.pairwise_cons.mpr ⟨fun e' he' => ?_, ih hc⟩
          rcases Container.mem_insert he' with rfl | he'
          · exact lt_of_le_of_ne (not_lt.mp hlt) (fun h => heq h.symm)
          · exact he e' he'

theorem Container.Sorted.insert_eq_self (hs : c.Sorted) (h : ∃ e ∈ c, e.1 = k) : c.insert k v = c := by
  induction c with
  | nil => simp at h
  | cons e c ih =>
      obtain ⟨he, hc⟩ := List.pairwise_cons.mp hs
      unfold Container.insert
      by_cases hk : k = e.1
      · rw [if_pos hk]
      · obtain ⟨e', he', rfl⟩ := h
        rcases List.mem_cons.mp he' with rfl | he'
        · exact absurd rfl hk
        · rw [if_neg hk, if_neg (not_lt.mpr (he e' he').le), ih hc ⟨e', he', rfl⟩]

/-! ## 削除と書き換え -/

theorem Container.Sorted.erase (hs : c.Sorted) : (c.erase k).Sorted := List.Pairwise.filter _ hs

theorem Container.Sorted.erase_perm (hs : c.Sorted) (h : e ∈ c) : c.Perm (e :: c.erase e.1) := by
  obtain ⟨c₁, c₂, rfl, h₁, h₂⟩ := hs.split h
  have he : Container.erase e.1 (c₁ ++ e :: c₂) = c₁ ++ c₂ := by
    have hf₁ : List.filter (fun e' => decide (e'.1 ≠ e.1)) c₁ = c₁ :=
      List.filter_eq_self.mpr fun e' he' => by simpa using h₁ e' he'
    have hf₂ : List.filter (fun e' => decide (e'.1 ≠ e.1)) c₂ = c₂ :=
      List.filter_eq_self.mpr fun e' he' => by simpa using h₂ e' he'
    simp only [Container.erase, List.filter_append, List.filter_cons, hf₁, hf₂]
    simp
  rw [he]
  exact List.perm_middle

theorem Container.setWriter_keys : (c.setWriter k w).map Prod.fst = c.map Prod.fst := by
  simp only [Container.setWriter, List.map_map]
  refine List.map_congr_left fun e _ => ?_
  simp only [Function.comp_apply]
  split <;> rfl

theorem Container.Sorted.setWriter (hs : c.Sorted) : (c.setWriter k w).Sorted := by
  unfold Container.Sorted at hs ⊢
  rw [← List.pairwise_map (f := Prod.fst), Container.setWriter_keys, List.pairwise_map]
  exact hs

theorem Container.mem_setWriter (h : e ∈ c.setWriter k w) :
    e.1 = k ∧ e.2.1 = w ∧ (∃ e' ∈ c, e'.1 = k ∧ e'.2.2 = e.2.2) ∨ e.1 ≠ k ∧ e ∈ c := by
  obtain ⟨e', he', rfl⟩ := List.mem_map.mp h
  by_cases hk : e'.1 = k
  · rw [if_pos hk]
    exact Or.inl ⟨hk, rfl, e', he', hk, rfl⟩
  · rw [if_neg hk]
    exact Or.inr ⟨hk, he'⟩

end

section

open Lib

variable {κ : Type}

def Entry.call (e : Entry κ) : Call κ := ⟨e.1, e.2.1.firstBlockIndex, e.2.2⟩

def dataBlocks (dc : κ → List Nat) (c : Container κ) : List Nat := (c.map Prod.fst).flatMap dc

structure Header (f : File) : Prop where
  size : fileHeaderSize ≤ (f.block 0).size
  allocator : f.field 0 fhAllocatorIndex = 1
  index : f.field 0 fhFirstIndexBlock = 2

def Accounted (count : Nat) (keys data leaked free : List Nat) : Prop :=
  ([0, 1, 2] ++ keys ++ data ++ leaked ++ free).Perm (List.range count)

structure MapInv [LinearOrder κ] (acc : KeyAccessor κ) (g : Geometry) (m : Map κ) (free : List Nat)
    (kbs : List (Nat × List (Record κ))) (dc : κ → List Nat) (leaked : List Nat) : Prop where
  index : IndexInv acc g m.index free kbs
  stored : m.index.Stored
  description : m.index.allocator.description = 1
  descrBlock : m.index.descrBlock = 2
  header : Header m.file
  sorted : m.container.Sorted
  calls : (indexCalls acc kbs).Perm (m.container.map Entry.call)
  chains : ∀ e ∈ m.container, Chain m.file.nextOf e.2.1.firstBlockIndex (dc e.1)
  nonempty : ∀ e ∈ m.container, e.2.1.firstBlockIndex ≠ 0
  accounted : Accounted m.file.count (kbs.map Prod.fst) (dataBlocks dc m.container) leaked free

variable {acc : KeyAccessor κ} {g : Geometry} {m m' : Map κ} {free free' leaked keys data : List Nat}
  {kbs kbs' : List (Nat × List (Record κ))} {dc : κ → List Nat} {e : Entry κ} {k : κ}
  {i b count count' : Nat} {f : File}

theorem Header.congr {f' : File} (h : Header f) (hz : f'.block 0 = f.block 0) : Header f' := by
  obtain ⟨h1, h2, h3⟩ := h
  unfold File.field at h2 h3
  rw [← hz] at h1 h2 h3
  exact ⟨h1, h2, h3⟩

theorem Index.Stored.setAllocator {s : Index} {a' : Allocator} (h : s.Stored)
    (hb : a'.file.block s.descrBlock = s.file.block s.descrBlock) : (s.setAllocator a').Stored := by
  unfold Index.Stored File.field at h
  rw [← hb] at h
  exact h

/-! ## 持ち主の分かれ方 -/

theorem Accounted.lt (h : Accounted count keys data leaked free) (hi : i ∈ data ∨ i ∈ free) : i < count := by
  refine List.mem_range.mp (h.mem_iff.mp ?_)
  simp only [List.mem_append]
  rcases hi with hi | hi
  · exact Or.inl (Or.inl (Or.inr hi))
  · exact Or.inr hi

theorem Accounted.of_data (h : Accounted count keys data leaked free) (hi : i ∈ data) :
    i ≠ 0 ∧ i ≠ 1 ∧ i ≠ 2 ∧ i ∉ keys ∧ i ∉ leaked ∧ i ∉ free := by
  have hnd := h.nodup_iff.mpr List.nodup_range
  have hsep : ∀ l : List Nat, l.Sublist ([0, 1, 2] ++ keys ++ data ++ leaked ++ free) → l.Nodup :=
    fun l hl => hnd.sublist hl
  have h1 : ([0, 1, 2] ++ keys ++ data).Nodup := hsep _ (by simp)
  have h2 : (data ++ leaked ++ free).Nodup := by
    refine hsep _ ?_
    rw [List.append_assoc ([0, 1, 2] ++ keys), List.append_assoc ([0, 1, 2] ++ keys)]
    exact List.sublist_append_right _ _
  rw [List.nodup_append] at h1
  rw [List.append_assoc, List.nodup_append] at h2
  have hk : ∀ j ∈ [0, 1, 2] ++ keys, i ≠ j := fun j hj e => h1.2.2 j hj i hi e.symm
  have hf : ∀ j ∈ leaked ++ free, i ≠ j := fun j hj => h2.2.2 i hi j hj
  exact ⟨hk 0 (by simp), hk 1 (by simp), hk 2 (by simp), fun hm => hk i (by simp [hm]) rfl,
    fun hm => hf i (by simp [hm]) rfl, fun hm => hf i (by simp [hm]) rfl⟩

theorem Accounted.perm {keys' data' leaked' free' : List Nat} (h : Accounted count keys data leaked free)
    (hp : (keys' ++ data' ++ leaked' ++ free').Perm (keys ++ data ++ leaked ++ free)) :
    Accounted count keys' data' leaked' free' := by
  unfold Accounted at h ⊢
  refine List.Perm.trans ?_ h
  simp only [List.append_assoc] at hp ⊢
  exact hp.append_left _

theorem Accounted.take (h : Accounted count keys data leaked free)
    (ht : Taken free count b free' count') : Accounted count' keys data (b :: leaked) free' := by
  have hmid : ([0, 1, 2] ++ keys ++ data ++ b :: leaked ++ free').Perm
      ([0, 1, 2] ++ keys ++ data ++ leaked ++ b :: free') := by
    simp only [List.append_assoc]
    refine List.Perm.append_left _ (List.Perm.append_left _ (List.Perm.append_left _ ?_))
    simpa using (@List.perm_middle _ b leaked free').symm
  unfold Accounted
  refine hmid.trans ?_
  rcases ht with ⟨rfl, hc⟩ | ⟨rfl, hr, hc⟩
  · have hb : b < count := h.lt (Or.inr (by simp))
    rw [hc, show max count (b + 1) = count by omega]
    exact h
  · rw [hr, hc, List.range_add, List.range'_eq_map_range]
    unfold Accounted at h
    rw [List.append_nil] at h
    exact h.append_right _

theorem dataBlocks_perm {c c' : Container κ} (h : (c.map Prod.fst).Perm (c'.map Prod.fst)) :
    (dataBlocks dc c).Perm (dataBlocks dc c') := h.flatMap_right dc

theorem mem_dataBlocks {c : Container κ} (he : e ∈ c) (hi : i ∈ dc e.1) : i ∈ dataBlocks dc c :=
  List.mem_flatMap.mpr ⟨e.1, List.mem_map_of_mem he, hi⟩

theorem dataBlocks_congr {c : Container κ} {dc' : κ → List Nat} (h : ∀ e ∈ c, dc' e.1 = dc e.1) :
    dataBlocks dc' c = dataBlocks dc c := by
  refine List.flatMap_congr fun k hk => ?_
  obtain ⟨e, he, rfl⟩ := List.mem_map.mp hk
  exact h e he

variable [LinearOrder κ]

theorem dataBlocks_split (dc : κ → List Nat) {c : Container κ} (hs : c.Sorted) (he : e ∈ c) :
    (dataBlocks dc c).Perm (dc e.1 ++ dataBlocks dc (c.erase e.1)) :=
  (dataBlocks_perm ((hs.erase_perm he).map Prod.fst) :)

theorem Container.mem_erase {c : Container κ} : e ∈ c.erase k ↔ e ∈ c ∧ e.1 ≠ k := by
  simp [Container.erase]

theorem MapInv.disjoint (h : MapInv acc g m free kbs dc leaked) (he : e ∈ m.container)
    {e' : Entry κ} (he' : e' ∈ m.container) (hne : e'.1 ≠ e.1) (hi : i ∈ dc e'.1) : i ∉ dc e.1 := by
  have hnd : (dataBlocks dc m.container).Nodup :=
    (h.accounted.nodup_iff.mpr List.nodup_range).sublist (by
      simp only [List.append_assoc]
      exact ((List.sublist_append_left _ _).trans (List.sublist_append_right _ _)).trans (List.sublist_append_right _ _))
  have hp := (dataBlocks_split dc h.sorted he).nodup_iff.mp hnd
  intro hm
  exact (List.nodup_append.mp hp).2.2 i hm i (mem_dataBlocks (Container.mem_erase.mpr ⟨he', hne⟩) hi) rfl

theorem MapInv.held (h : MapInv acc g m free kbs dc leaked) (he : e ∈ m.container) :
    Held g m.index.allocator free e.2.1.firstBlockIndex (dc e.1) where
  ready := h.index.ready
  free_lt i hi := h.accounted.lt (Or.inr hi)
  chain := h.chains e he
  lt i hi := h.accounted.lt (Or.inl (mem_dataBlocks he hi))
  not_free i hi := (h.accounted.of_data (mem_dataBlocks he hi)).2.2.2.2.2
  not_description i hi := by
    rw [h.description]
    exact (h.accounted.of_data (mem_dataBlocks he hi)).2.1

theorem MapInv.mem_calls (h : MapInv acc g m free kbs dc leaked) (he : e ∈ m.container) :
    e.call ∈ indexCalls acc kbs := h.calls.mem_iff.mpr (List.mem_map_of_mem he)

end

end UnixCommons.PlainStorage
