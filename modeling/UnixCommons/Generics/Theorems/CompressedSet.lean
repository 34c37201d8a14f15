import UnixCommons.Generics.Lemmas.CompressedSet
import UnixCommons.Lib.Machine
import Mathlib.Order.Interval.Set.Basic

/-!
# 区間で表した集合の定理

呼び出しの列のどの段も、`add` が和集合、`remove` が差集合となり、`belongs` と `check_presence` が正しく答えるのは、
`remove` が孤立した`max` を除こうとせず、空でない集合から自分自身を除こうとしないとき、かつそのときに限る。
-/

namespace UnixCommons.Generics.CompressedSet

open Lib

variable {T : IntegerType} {ι : Type} [DecidableEq ι] {σ σ' : Store ι} {i cset : ι} {op : Op T ι}
    {a : Answer} {s s' : State}
variable {low high : Int} {holder : Holder}

def Store.init : Store ι := fun _ => State.init

def Store.sets (σ : Store ι) (i : ι) : Set Int := denoted (σ i).holder

def specStep (S : ι → Set Int) : Op T ι → ι → Set Int
  | .add i low high => Function.update S i (S i ∪ Set.Icc low.val high.val)
  | .addValue i value => Function.update S i (S i ∪ {value.val})
  | .addSet i cset => Function.update S i (S i ∪ S cset)
  | .remove i low high => Function.update S i (S i \ Set.Icc low.val high.val)
  | .removeValue i value => Function.update S i (S i \ {value.val})
  | .removeSet i cset => Function.update S i (S i \ S cset)
  | .clear i => Function.update S i ∅
  | .belongs _ _ => S
  | .checkPresence _ _ _ => S

def AnswerRight (S : ι → Set Int) : Op T ι → Answer → Prop
  | .belongs i value, a => ∃ b, a = .bool b ∧ (b = true ↔ value.val ∈ S i)
  | .checkPresence i low high, a => ∃ c, a = .status c ∧ (low.val ≤ high.val → Presence (S i) low.val high.val c)
  | _, a => a = .done

def Store.StepRight (σ : Store ι) (op : Op T ι) : Prop :=
  ∃ σ' a, σ.step op = some (σ', a) ∧ σ'.sets = specStep σ.sets op ∧ AnswerRight σ.sets op a

/-- `remove` は、孤立した `max` を除こうとせず、空でない集合から自分自身を除こうとしない。 -/
def Store.Meets (σ : Store ι) : Op T ι → Prop
  | .remove i low high => low.val ≤ high.val → high.val = T.max → (T.max, T.max) ∉ (σ i).holder
  | .removeValue i value => value.val = T.max → (T.max, T.max) ∉ (σ i).holder
  | .removeSet i cset =>
      if i = cset then (σ i).holder = [] else T.max ∈ σ.sets cset → (T.max, T.max) ∉ (σ i).holder
  | _ => True

/-- 列のどの段の前の状態でも、呼び出しが `P` を満たす。 -/
def Store.Along (P : Store ι → Op T ι → Prop) : Store ι → List (Op T ι) → Prop
  | _, [] => True
  | σ, op :: ops => P σ op ∧ ∀ σ' a, σ.step op = some (σ', a) → σ'.Along P ops

def Store.Inv (T : IntegerType) (σ : Store ι) : Prop := ∀ i, (σ i).Inv T

omit [DecidableEq ι] in
theorem Store.init_inv : (Store.init : Store ι).Inv T := fun _ => State.init_inv

theorem Store.Inv.put (h : σ.Inv T) (hs : s.Inv T) : (σ.put i s).Inv T := by
  intro j
  by_cases hj : j = i
  · subst hj
    simpa [Store.put] using hs
  · simpa [Store.put, Function.update_of_ne hj] using h j

theorem Store.put_self (σ : Store ι) (i : ι) : σ.put i (σ i) = σ := Function.update_eq_self i σ

theorem Store.put_sets (σ : Store ι) (i : ι) (s : State) :
    (σ.put i s).sets = Function.update σ.sets i (denoted s.holder) := by
  funext j
  by_cases hj : j = i
  · subst hj
    simp [Store.put, Store.sets]
  · simp [Store.put, Store.sets, Function.update_of_ne hj]

theorem Store.stepRight_iff {X : Set Int} (hstep : σ.step op = some (σ.put i s', a))
    (hspec : specStep σ.sets op = Function.update σ.sets i X)
    (ha : AnswerRight σ.sets op a) : σ.StepRight op ↔ denoted s'.holder = X := by
  constructor
  · rintro ⟨σ₁, a₁, hstep₁, hsets, -⟩
    obtain ⟨rfl, rfl⟩ : σ.put i s' = σ₁ ∧ a = a₁ := by
      rw [hstep] at hstep₁
      simpa using hstep₁
    rw [Store.put_sets, hspec] at hsets
    simpa using congrFun hsets i
  · rintro rfl
    exact ⟨_, _, hstep, (Store.put_sets σ i s').trans hspec.symm, ha⟩

/-! ## 差集合になる条件 -/

theorem remains_eq_diff_iff {X : Set Int}
    (hX : ∀ v, v ∈ X ↔ if low ≤ high then Remains T low high holder v else v ∈ denoted holder) :
    X = denoted holder \ Set.Icc low high ↔ (low ≤ high → high = T.max → (T.max, T.max) ∉ holder) := by
  constructor
  · rintro rfl hle hmax hmem
    have hin := (hX T.max).mpr (by rw [if_pos hle]; exact .inr ⟨rfl, hmax, hmem⟩)
    exact hin.2 ⟨by omega, by omega⟩
  · intro hne
    ext v
    rw [hX, Set.mem_sdiff, Set.mem_Icc]
    by_cases hle : low ≤ high
    · rw [if_pos hle]
      exact or_iff_left fun h => hne hle h.2.1 h.2.2
    · rw [if_neg hle]
      exact (and_iff_left (by omega)).symm

theorem remainsSet_eq_diff_iff {X : Set Int} {other : Holder} (hX : ∀ v, v ∈ X ↔ RemainsSet T other holder v) :
    X = denoted holder \ denoted other ↔ (T.max ∈ denoted other → (T.max, T.max) ∉ holder) := by
  constructor
  · rintro rfl hm hmem
    have hin := (hX T.max).mpr (.inr ⟨rfl, hm, hmem⟩)
    exact hin.2 hm
  · intro hne
    ext v
    rw [hX, Set.mem_sdiff]
    exact or_iff_left fun h => hne h.2.1 h.2.2

theorem eq_diff_self_iff (h : Separated holder) : denoted holder = denoted holder \ denoted holder ↔ holder = [] := by
  rw [Set.sdiff_self]
  constructor
  · intro hempty
    cases holder with
    | nil => rfl
    | cons e rest =>
        have hin : e.1 ∈ denoted (e :: rest) := ⟨e, List.mem_cons_self, Int.le_refl _, h.proper e List.mem_cons_self⟩
        rw [hempty] at hin
        cases hin
  · rintro rfl
    ext v
    simp

/-! ## 一つの段 -/

theorem Store.step_spec (h : σ.Inv T) (op : Op T ι) :
    (∃ σ' a, σ.step op = some (σ', a) ∧ σ'.Inv T) ∧ (σ.StepRight op ↔ σ.Meets op) := by
  cases op with
  | add i low high =>
      obtain ⟨-, hmem⟩ := State.add_spec (h i).holder low.min_le high.le_max
      have hstep : σ.step (.add i low high) = some (σ.put i ((σ i).add T low.val high.val), .done) := rfl
      refine ⟨⟨_, _, hstep, h.put ((h i).add low.min_le high.le_max)⟩,
        iff_of_true ((Store.stepRight_iff hstep rfl rfl).mpr ?_) trivial⟩
      ext v
      exact hmem v
  | addValue i value =>
      obtain ⟨-, hmem⟩ := State.add_spec (h i).holder value.min_le value.le_max
      have hstep : σ.step (.addValue i value) = some (σ.put i ((σ i).add T value.val value.val), .done) := rfl
      refine ⟨⟨_, _, hstep, h.put ((h i).add value.min_le value.le_max)⟩,
        iff_of_true ((Store.stepRight_iff hstep rfl rfl).mpr ?_) trivial⟩
      ext v
      rw [hmem, Set.mem_union, Set.mem_singleton_iff, Int.le_antisymm_iff, and_comm]
      rfl
  | addSet i cset =>
      by_cases hc : i = cset
      · subst hc
        have hstep : σ.step (.addSet i i : Op T ι) = some (σ.put i (σ i), .done) := by
          simp [Store.step, Store.addSet, Store.put_self]
        refine ⟨⟨_, _, hstep, h.put (h i)⟩, iff_of_true ((Store.stepRight_iff hstep rfl rfl).mpr ?_) trivial⟩
        exact (Set.union_self _).symm
      · have hstep : σ.step (.addSet i cset : Op T ι) = some (σ.put i ((σ i).addAll T (σ cset).holder), .done) := by
          simp [Store.step, Store.addSet, hc]
        obtain ⟨hinv, hmem⟩ := State.addAll_spec (h cset).holder (h i)
        refine ⟨⟨_, _, hstep, h.put hinv⟩, iff_of_true ((Store.stepRight_iff hstep rfl rfl).mpr ?_) trivial⟩
        ext v
        exact hmem v
  | remove i low high =>
      obtain ⟨s', hs', hinv, hmem⟩ := State.remove_spec (h i) low.min_le high.le_max
      have hstep : σ.step (.remove i low high) = some (σ.put i s', .done) := by
        simp [Store.step, hs']
      refine ⟨⟨_, _, hstep, h.put hinv⟩, ?_⟩
      rw [Store.stepRight_iff hstep rfl rfl]
      exact remains_eq_diff_iff hmem
  | removeValue i value =>
      obtain ⟨s', hs', hinv, hmem⟩ := State.remove_spec (h i) value.min_le value.le_max
      have hstep : σ.step (.removeValue i value) = some (σ.put i s', .done) := by
        simp [Store.step, hs']
      refine ⟨⟨_, _, hstep, h.put hinv⟩, ?_⟩
      rw [Store.stepRight_iff hstep rfl rfl, ← Set.Icc_self]
      refine (remains_eq_diff_iff hmem).trans ?_
      exact forall_prop_of_true (Int.le_refl _)
  | removeSet i cset =>
      by_cases hc : i = cset
      · subst hc
        have hstep : σ.step (.removeSet i i : Op T ι) = some (σ.put i (σ i), .done) := by
          simp [Store.step, Store.removeSet, Store.put_self]
        refine ⟨⟨_, _, hstep, h.put (h i)⟩, ?_⟩
        rw [Store.stepRight_iff hstep rfl rfl]
        exact (eq_diff_self_iff (h i).holder.separated).trans (by simp [Store.Meets])
      · obtain ⟨s', hs', hinv, hmem⟩ := State.removeAll_spec (h cset).holder (h i)
        have hstep : σ.step (.removeSet i cset : Op T ι) = some (σ.put i s', .done) := by
          simp [Store.step, Store.removeSet, hc, hs']
        refine ⟨⟨_, _, hstep, h.put hinv⟩, ?_⟩
        rw [Store.stepRight_iff hstep rfl rfl]
        exact (remainsSet_eq_diff_iff hmem).trans (by simp [Store.Meets, hc, Store.sets])
  | clear i =>
      have hstep : σ.step (.clear i : Op T ι) = some (σ.put i (σ i).clear, .done) := rfl
      refine ⟨⟨_, _, hstep, h.put State.clear_inv⟩, iff_of_true ((Store.stepRight_iff hstep rfl rfl).mpr ?_) trivial⟩
      ext v
      exact mem_denoted_nil
  | belongs i value =>
      obtain ⟨s', b, hs', hinv, hholder, hb⟩ := State.belongs_spec value.val (h i)
      have hstep : σ.step (.belongs i value) = some (σ.put i s', .bool b) := by
        simp [Store.step, hs']
      refine ⟨⟨_, _, hstep, h.put hinv⟩, iff_of_true ?_ trivial⟩
      refine ⟨_, _, hstep, ?_, b, rfl, hb⟩
      rw [Store.put_sets, hholder]
      exact Function.update_eq_self i σ.sets
  | checkPresence i low high =>
      refine ⟨⟨σ, _, rfl, h⟩, iff_of_true ⟨σ, _, rfl, rfl, _, rfl, ?_⟩ trivial⟩
      exact State.checkPresence_spec (h i).holder

/-! ## 呼び出しの列 -/

theorem Store.along_iff {P Q : Store ι → Op T ι → Prop}
    (hPQ : ∀ σ : Store ι, σ.Inv T → ∀ op, P σ op ↔ Q σ op) (h : σ.Inv T)
    (ops : List (Op T ι)) : σ.Along P ops ↔ σ.Along Q ops := by
  induction ops generalizing σ with
  | nil => exact Iff.rfl
  | cons op ops ih =>
      refine and_congr (hPQ σ h op) (forall_congr' fun σ' => forall_congr' fun a => forall_congr' fun hstep => ih ?_)
      obtain ⟨⟨σ₁, a₁, hstep₁, hinv⟩, -⟩ := Store.step_spec h op
      rw [hstep] at hstep₁
      obtain ⟨rfl, rfl⟩ : σ' = σ₁ ∧ a = a₁ := by simpa using hstep₁
      exact hinv

/-- 空の集合から始まるどの列でも、どの段も正しいことは、どの段も条件を満たすことである。 -/
theorem compressed_set_denotes_iff (ops : List (Op T ι)) :
    (Store.init : Store ι).Along Store.StepRight ops ↔ (Store.init : Store ι).Along Store.Meets ops :=
  Store.along_iff (fun _ h op => (Store.step_spec h op).2) Store.init_inv ops

def uint8Type : IntegerType := ⟨0, 255, by decide⟩

def uint8Max : uint8Type.Value := ⟨255, by decide, by decide⟩

/-- `uint8_t` の集合に 255 を加えて除くと、255 が残る。また、その集合から自分自身を除いても、255 が残る。 -/
theorem compressed_set_keeps_max :
    ¬ (Store.init : Store Unit).Along Store.StepRight [.addValue () uint8Max, .removeValue () uint8Max] ∧
      ¬ (Store.init : Store Unit).Along Store.StepRight [.addValue () uint8Max,
      (.removeSet () () : Op uint8Type Unit)] := by
  constructor
  · rw [Store.along_iff (fun _ h op => (Store.step_spec h op).2) Store.init_inv]
    rintro ⟨-, h⟩
    exact (h _ _ rfl).1 rfl (by decide)
  · rw [Store.along_iff (fun _ h op => (Store.step_spec h op).2) Store.init_inv]
    rintro ⟨-, h⟩
    have hempty : [(255, 255)] = ([] : Holder) := (h _ _ rfl).1
    cases hempty

/-! ## 標準の形 -/

def Canonical (holder : Holder) : Prop :=
  ∀ left right a b, holder = left ++ a :: b :: right → a.1 ≤ a.2 ∧ a.2 + 1 < b.1 ∧ b.1 ≤ b.2

omit [DecidableEq ι] in
theorem HolderInv.canonical (h : HolderInv T holder) : Canonical holder := by
  rintro left right a b rfl
  obtain ⟨-, hsep, -⟩ := separated_append.mp h.separated
  obtain ⟨ha, hrest, hsep⟩ := separated_cons.mp hsep
  obtain ⟨hb, -, -⟩ := separated_cons.mp hsep
  exact ⟨ha, hrest b List.mem_cons_self, hb⟩

def Store.run (σ : Store ι) (ops : List (Op T ι)) : Option (Store ι) :=
  execute (fun σ op => (σ.step op).map Prod.fst) σ ops

theorem Store.run_inv (h : σ.Inv T) (ops : List (Op T ι)) : ∃ σ', σ.run ops = some σ' ∧ σ'.Inv T := by
  induction ops generalizing σ with
  | nil => exact ⟨σ, rfl, h⟩
  | cons op ops ih =>
      obtain ⟨⟨next, a, hstep, hnext⟩, -⟩ := Store.step_spec h op
      obtain ⟨σ', hrun, hinv⟩ := ih hnext
      have hmap : (σ.step op).map Prod.fst = some next := by rw [hstep, Option.map_some]
      exact ⟨σ', execute_cons.mpr ⟨next, hmap, hrun⟩, hinv⟩

/-- どの列の後でも、区間の並びは標準の形であり、同じ集合は、列が違っても、同じ並びで表される。 -/
theorem compressed_set_canonical (ops ops' : List (Op T ι)) :
    ∃ σ σ', (Store.init : Store ι).run ops = some σ ∧ (Store.init : Store ι).run ops' = some σ' ∧
      (∀ i, Canonical (σ i).holder) ∧ ∀ i j, σ.sets i = σ'.sets j → (σ i).holder = (σ' j).holder := by
  obtain ⟨σ, hrun, hinv⟩ := Store.run_inv Store.init_inv ops
  obtain ⟨σ', hrun', hinv'⟩ := Store.run_inv Store.init_inv ops'
  refine ⟨σ, σ', hrun, hrun', fun i => (hinv i).holder.canonical, fun i j heq => ?_⟩
  exact (hinv i).holder.separated.unique (hinv' j).holder.separated heq

end UnixCommons.Generics.CompressedSet
