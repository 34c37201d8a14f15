import Mathlib.Data.List.Basic
import Mathlib.Data.List.Perm.Basic

/-!
# 他に含まれる項を除く

鍵と印を持つ項の並びを、前から順に、後の全ての項と比べる。同じ鍵の項は、印を合わせて一つにし、`below` の関係で他の項の下にある項は除く。
-/

namespace Lib.Prune

variable {κ : Type} [DecidableEq κ]

/-- 先頭の項 `x` を、後の項と比べる。`x` を除くかどうかと、印を合わせた `x` と、残った後の項を返す。 -/
def scan (below : κ → κ → Bool) (x : κ × Bool) : List (κ × Bool) → Bool × (κ × Bool) × List (κ × Bool)
  | [] => (false, x, [])
  | y :: rest =>
      if y.1 = x.1 then scan below (x.1, x.2 || y.2) rest
      else if below y.1 x.1 then scan below x rest
      else if below x.1 y.1 then (true, x, y :: rest)
      else ((scan below x rest).1, (scan below x rest).2.1, y :: (scan below x rest).2.2)

/-- 一回ごとに一つの項を調べ終わるので、回数は並びの長さで足りる。 -/
def prune (below : κ → κ → Bool) : Nat → List (κ × Bool) → List (κ × Bool)
  | 0, _ => []
  | _ + 1, [] => []
  | fuel + 1, x :: rest =>
      match scan below x rest with
      | (true, _, rest) => prune below fuel rest
      | (false, x, rest) => x :: prune below fuel rest

def stays (below : κ → κ → Bool) (k : κ) (y : κ × Bool) : Bool := y.1 ≠ k && !below y.1 k

def marked (k : κ) (l : List (κ × Bool)) : Bool := l.any fun y => y.1 = k && y.2

variable {below : κ → κ → Bool} {k s : κ} {b : Bool} {x y : κ × Bool} {l l' : List (κ × Bool)}
    {n : Nat} {M : List κ} {T : κ → Prop}

attribute [local grind =] scan prune

@[simp] theorem stays_iff : stays below k y = true ↔ y.1 ≠ k ∧ below y.1 k = false := by simp [stays]

/-! ## 一つの項 -/

theorem scan_cons_same (h : y.1 = k) : scan below (k, b) (y :: l) = scan below (k, b || y.2) l := by
  rw [scan]
  exact if_pos h

theorem scan_cons_below (h : y.1 ≠ k) (hb : below y.1 k = true) : scan below (k, b) (y :: l) = scan below (k, b) l := by
  rw [scan]
  simp [h, hb]

theorem scan_cons_above (h : stays below k y = true) (hb : below k y.1 = true) : scan below (k, b)
    (y :: l) = (true, (k, b), y :: l) := by
  have h' := stays_iff.mp h
  rw [scan]
  simp [h'.1, h'.2, hb]

theorem scan_cons_apart (h : stays below k y = true) (hb : below k y.1 = false) :
    scan below (k, b) (y :: l) = ((scan below (k, b) l).1, (scan below (k, b) l).2.1, y :: (scan below (k, b) l).2.2) := by
  have h' := stays_iff.mp h
  rw [scan]
  simp [h'.1, h'.2, hb]

theorem scan_cons_drop (h : stays below k y = false) : ∃ b', scan below (k, b) (y :: l) = scan below (k, b') l := by
  by_cases hy : y.1 = k
  · exact ⟨b || y.2, scan_cons_same hy⟩
  · have hb : below y.1 k = true := by simpa [stays, hy] using h
    exact ⟨b, scan_cons_below hy hb⟩

theorem scan_of_forall (h : ∀ y ∈ l, stays below k y = true → below k y.1 = false) :
    scan below (k, b) l = (false, (k, b || marked k l), l.filter (stays below k)) := by
  induction l generalizing b with
  | nil => simp [scan, marked]
  | cons y l ih =>
      obtain ⟨hy, hl⟩ := List.forall_mem_cons.mp h
      by_cases hsame : y.1 = k
      · rw [scan_cons_same hsame, ih hl, List.filter_cons_of_neg (by simp [stays, hsame])]
        simp [marked, hsame, Bool.or_assoc]
      cases hb : below y.1 k with
      | true =>
          rw [scan_cons_below hsame hb, ih hl, List.filter_cons_of_neg (by simp [stays, hb])]
          simp [marked, hsame]
      | false =>
          have hstays : stays below k y = true := stays_iff.mpr ⟨hsame, hb⟩
          rw [scan_cons_apart hstays (hy hstays), ih hl, List.filter_cons_of_pos hstays]
          simp [marked, hsame]

theorem exists_mem_tail {α : Type} {p : α → Prop} {a : α} {l : List α} (h : ∃ z ∈ a :: l, p z)
    (ha : ¬ p a) : ∃ z ∈ l, p z := by
  obtain ⟨z, hz, hp⟩ := h
  rcases List.mem_cons.mp hz with rfl | hz
  · exact absurd hp ha
  · exact ⟨z, hz, hp⟩

theorem scan_of_exists (h : ∃ y ∈ l, stays below k y = true ∧ below k y.1 = true) :
    ∃ z l₁ y l₂, l = l₁ ++ y :: l₂ ∧ below k y.1 = true ∧ (∀ a ∈ l₁, stays below k a = true → below k a.1 = false) ∧
      scan below (k, b) l = (true, z, l₁.filter (stays below k) ++ y :: l₂) := by
  induction l generalizing b with
  | nil =>
      obtain ⟨y, hy, -⟩ := h
      cases hy
  | cons y l ih =>
      cases hy : stays below k y with
      | false =>
          obtain ⟨b', hb'⟩ := @scan_cons_drop κ _ below k b y l hy
          have htail := exists_mem_tail h (by simp [hy])
          obtain ⟨z, l₁, w, l₂, rfl, hw, hl₁, heq⟩ := @ih b' htail
          refine ⟨z, y :: l₁, w, l₂, rfl, hw, List.forall_mem_cons.mpr ⟨by simp [hy], hl₁⟩, ?_⟩
          rw [hb', heq, List.filter_cons_of_neg (by simp [hy])]
      | true =>
          cases hb : below k y.1 with
          | true => exact ⟨(k, b), [], y, l, rfl, hb, by simp, scan_cons_above hy hb⟩
          | false =>
              have htail := exists_mem_tail h (by simp [hb])
              obtain ⟨z, l₁, w, l₂, rfl, hw, hl₁, heq⟩ := @ih b htail
              refine ⟨z, y :: l₁, w, l₂, rfl, hw, List.forall_mem_cons.mpr ⟨fun _ => hb, hl₁⟩, ?_⟩
              rw [scan_cons_apart hy hb, heq, List.filter_cons_of_pos hy, List.cons_append]

theorem prune_step (below : κ → κ → Bool) (n : Nat) (x : κ × Bool) (l : List (κ × Bool)) :
    ((∀ y ∈ l, stays below x.1 y = true → below x.1 y.1 = false) ∧
      prune below (n + 1) (x :: l) = (x.1, x.2 || marked x.1 l) :: prune below n (l.filter (stays below x.1))) ∨
    ∃ l₁ y l₂, l = l₁ ++ y :: l₂ ∧ below x.1 y.1 = true ∧ (∀ a ∈ l₁, stays below x.1 a = true → below x.1 a.1 = false) ∧
      prune below (n + 1) (x :: l) = prune below n (l₁.filter (stays below x.1) ++ y :: l₂) := by
  by_cases h : ∃ y ∈ l, stays below x.1 y = true ∧ below x.1 y.1 = true
  · obtain ⟨z, l₁, y, l₂, rfl, hy, hl₁, heq⟩ := @scan_of_exists κ _ below x.1 x.2 l h
    exact .inr ⟨l₁, y, l₂, rfl, hy, hl₁, by rw [prune, heq]⟩
  · have hall : ∀ y ∈ l, stays below x.1 y = true → below x.1 y.1 = false :=
      fun y hy hstays => eq_false_of_ne_true fun hb => h ⟨y, hy, hstays, hb⟩
    exact .inl ⟨hall, by rw [prune, scan_of_forall hall]⟩

/-! ## 残った項 -/

theorem exists_mem_of_mem_prune (h : y ∈ prune below n l) : ∃ z ∈ l, z.1 = y.1 := by
  induction n generalizing l with
  | zero => cases h
  | succ n ih =>
      cases l with
      | nil => cases h
      | cons x l =>
          rcases prune_step below n x l with ⟨-, heq⟩ | ⟨l₁, w, l₂, rfl, -, -, heq⟩
          · rw [heq] at h
            rcases List.mem_cons.mp h with rfl | h
            · exact ⟨x, List.mem_cons_self, rfl⟩
            · obtain ⟨z, hz, hkey⟩ := ih h
              exact ⟨z, List.mem_cons_of_mem x (List.mem_of_mem_filter hz), hkey⟩
          · rw [heq] at h
            obtain ⟨z, hz, hkey⟩ := ih h
            refine ⟨z, List.mem_cons_of_mem x ?_, hkey⟩
            rcases List.mem_append.mp hz with hz | hz
            · exact List.mem_append_left _ (List.mem_of_mem_filter hz)
            · exact List.mem_append_right _ hz

theorem sublist_prune (below : κ → κ → Bool) (n : Nat) (l : List (κ × Bool)) :
    ((prune below n l).map Prod.fst).Sublist (l.map Prod.fst) := by
  induction n generalizing l with
  | zero => exact List.nil_sublist _
  | succ n ih =>
      cases l with
      | nil => exact List.nil_sublist _
      | cons x l =>
          rcases prune_step below n x l with ⟨-, heq⟩ | ⟨l₁, w, l₂, rfl, -, -, heq⟩
          · rw [heq, List.map_cons, List.map_cons]
            exact ((ih _).trans (List.filter_sublist.map _)).cons_cons _
          · rw [heq]
            refine (ih _).trans (List.Sublist.map _ (.cons _ ?_))
            exact List.Sublist.append_right List.filter_sublist _

def Apart (below : κ → κ → Bool) (x y : κ × Bool) : Prop := x.1 ≠ y.1 ∧ below x.1 y.1 = false ∧ below y.1 x.1 = false

theorem pairwise_prune (below : κ → κ → Bool) (n : Nat) (l : List (κ × Bool)) :
    (prune below n l).Pairwise (Apart below) := by
  induction n generalizing l with
  | zero => exact List.Pairwise.nil
  | succ n ih =>
      cases l with
      | nil => exact List.Pairwise.nil
      | cons x l =>
          rcases prune_step below n x l with ⟨hall, heq⟩ | ⟨l₁, w, l₂, -, -, -, heq⟩
          · rw [heq]
            refine List.Pairwise.cons (fun y hy => ?_) (ih _)
            obtain ⟨z, hz, hkey⟩ := exists_mem_of_mem_prune hy
            obtain ⟨hmem, hstays⟩ := List.mem_filter.mp hz
            have hapart := stays_iff.mp hstays
            have habove := hall z hmem hstays
            rw [hkey] at hapart habove
            exact ⟨Ne.symm hapart.1, habove, hapart.2⟩
          · rw [heq]
            exact ih _

theorem prune_of_pairwise (h : l.Pairwise (Apart below)) (hn : l.length ≤ n) : prune below n l = l := by
  induction l generalizing n with
  | nil => cases n <;> rfl
  | cons x l ih =>
      obtain ⟨hx, hl⟩ := List.pairwise_cons.mp h
      cases n with
      | zero => cases hn
      | succ n =>
          have hall : ∀ y ∈ l, stays below x.1 y = true := fun y hy => stays_iff.mpr ⟨Ne.symm (hx y hy).1, (hx y hy).2.2⟩
          have hmarked : marked x.1 l = false := by
            rw [marked, List.any_eq_false]
            intro y hy
            simp [Ne.symm (hx y hy).1]
          have hscan := @scan_of_forall κ _ below x.1 x.2 l fun y hy _ => (hx y hy).2.1
          rw [prune, hscan, List.filter_eq_self.mpr hall, hmarked, Bool.or_false]
          exact congrArg (x :: ·) (ih hl (Nat.le_of_succ_le_succ hn))

theorem exists_mem_prune {P : κ → κ → Prop} (hrefl : ∀ a, P a a) (htrans : ∀ a b c, P a b → P b c → P a c)
    (hbelow : ∀ a b, below a b = true → P a b) (hn : l.length ≤ n) (hy : y ∈ l) : ∃ z ∈ prune below n l, P y.1 z.1 := by
  induction n generalizing l y with
  | zero =>
      rw [List.length_eq_zero_iff.mp (Nat.le_zero.mp hn)] at hy
      cases hy
  | succ n ih =>
      cases l with
      | nil => cases hy
      | cons x l =>
          have hn : l.length ≤ n := Nat.le_of_succ_le_succ hn
          -- 残らない項は、`x` の下にある。
          have hdrop : ∀ y, stays below x.1 y = false → P y.1 x.1 := by
            intro y hy
            by_cases hsame : y.1 = x.1
            · rw [hsame]
              exact hrefl x.1
            · exact hbelow _ _ (by simpa [stays, hsame] using hy)
          rcases prune_step below n x l with ⟨-, heq⟩ | ⟨l₁, w, l₂, rfl, hw, -, heq⟩
          · rw [heq]
            rcases List.mem_cons.mp hy with rfl | hy
            · exact ⟨_, List.mem_cons_self, hrefl _⟩
            · cases hstays : stays below x.1 y with
              | false => exact ⟨_, List.mem_cons_self, hdrop y hstays⟩
              | true =>
                  obtain ⟨z, hz, hP⟩ := ih (Nat.le_trans (List.length_filter_le _ l) hn) (List.mem_filter.mpr ⟨hy, hstays⟩)
                  exact ⟨z, List.mem_cons_of_mem _ hz, hP⟩
          · rw [heq]
            have hlen : (l₁.filter (stays below x.1) ++ w :: l₂).length ≤ n := by
              have hfilter := List.length_filter_le (stays below x.1) l₁
              rw [List.length_append] at hn ⊢
              omega
            -- `x` は、`w` の下にある。
            obtain ⟨z, hz, hwz⟩ := ih hlen (List.mem_append_right _ List.mem_cons_self)
            have hxz : P x.1 z.1 := htrans _ _ _ (hbelow _ _ hw) hwz
            rcases List.mem_cons.mp hy with rfl | hy
            · exact ⟨z, hz, hxz⟩
            rcases List.mem_append.mp hy with hy | hy
            · cases hstays : stays below x.1 y with
              | false => exact ⟨z, hz, htrans _ _ _ (hdrop y hstays) hxz⟩
              | true => exact ih hlen (List.mem_append_left _ (List.mem_filter.mpr ⟨hy, hstays⟩))
            · exact ih hlen (List.mem_append_right _ hy)

/-! ## 並べ方によらない場合 -/

/-- 除かれない鍵 `M`。他の鍵はどれも、`below` で、`M` のどれかの下にある。 -/
structure Tops (below : κ → κ → Bool) (M : List κ) (l : List (κ × Bool)) : Prop where
  nodup : M.Nodup
  mem : ∀ m ∈ M, ∃ y ∈ l, y.1 = m
  covered : ∀ y ∈ l, y.1 ∈ M ∨ ∃ m ∈ M, below y.1 m = true
  top : ∀ m ∈ M, ∀ y ∈ l, below m y.1 = false

theorem Tops.eq_nil {κ : Type} {below : κ → κ → Bool} {M : List κ} (h : Tops below M []) : M = [] :=
  List.eq_nil_iff_forall_not_mem.mpr fun m hm => by
    obtain ⟨y, hy, -⟩ := h.mem m hm
    cases hy

theorem marked_filter (h : ∀ y ∈ l, y.1 = k → stays below s y = true) :
    marked k (l.filter (stays below s)) = marked k l := by
  induction l with
  | nil => rfl
  | cons y l ih =>
      obtain ⟨hy, hl⟩ := List.forall_mem_cons.mp h
      cases hstays : stays below s y with
      | true =>
          rw [List.filter_cons_of_pos hstays]
          simpa [marked] using congrArg (decide (y.1 = k) && y.2 || ·) (ih hl)
      | false =>
          have hne : y.1 ≠ k := fun h => by simp [hy h] at hstays
          rw [List.filter_cons_of_neg (by simp [hstays]), ih hl]
          simp [marked, hne]

theorem marked_append : marked k (l ++ l') = (marked k l || marked k l') := by simp [marked]

theorem marked_cons_of_ne (h : x.1 ≠ k) : marked k (x :: l) = marked k l := by simp [marked, h]

theorem prune_perm (h : Tops below M l) (hn : l.length ≤ n) : (prune below n l).Perm (M.map fun m => (m, marked m l)) := by
  induction n generalizing l M with
  | zero =>
      rw [List.length_eq_zero_iff.mp (Nat.le_zero.mp hn)] at h ⊢
      rw [h.eq_nil]
      exact List.Perm.nil
  | succ n ih =>
      cases l with
      | nil =>
          rw [h.eq_nil]
          exact List.Perm.nil
      | cons x l =>
          have hn : l.length ≤ n := Nat.le_of_succ_le_succ hn
          -- `M` の他の鍵は、`x` と比べても残る。
          have hkeep : ∀ m ∈ M, m ≠ x.1 → ∀ y, y.1 = m → stays below x.1 y = true := by
            rintro m hm hne y rfl
            exact stays_iff.mpr ⟨hne, h.top _ hm x List.mem_cons_self⟩
          have hmem : ∀ m ∈ M, m ≠ x.1 → ∃ y ∈ l, y.1 = m := by
            intro m hm hne
            obtain ⟨y, hy, hkey⟩ := h.mem m hm
            rcases List.mem_cons.mp hy with rfl | hy
            · exact absurd hkey.symm hne
            · exact ⟨y, hy, hkey⟩
          by_cases hx : x.1 ∈ M
          · rcases prune_step below n x l with ⟨-, heq⟩ | ⟨l₁, w, l₂, rfl, hw, -, -⟩
            · have htops : Tops below (M.erase x.1) (l.filter (stays below x.1)) := by
                refine ⟨h.nodup.erase x.1, fun m hm => ?_, fun y hy => ?_, fun m hm y hy => ?_⟩
                · obtain ⟨hne, hm⟩ := h.nodup.mem_erase_iff.mp hm
                  obtain ⟨y, hy, hkey⟩ := hmem m hm hne
                  exact ⟨y, List.mem_filter.mpr ⟨hy, hkeep m hm hne y hkey⟩, hkey⟩
                · obtain ⟨hy, hstays⟩ := List.mem_filter.mp hy
                  have hapart := stays_iff.mp hstays
                  rcases h.covered y (List.mem_cons_of_mem x hy) with hmem | ⟨m, hm, hbelow⟩
                  · exact .inl (h.nodup.mem_erase_iff.mpr ⟨hapart.1, hmem⟩)
                  · have hne : m ≠ x.1 := by
                      rintro rfl
                      rw [hapart.2] at hbelow
                      cases hbelow
                    exact .inr ⟨m, h.nodup.mem_erase_iff.mpr ⟨hne, hm⟩, hbelow⟩
                · exact h.top m (List.mem_of_mem_erase hm) y (List.mem_cons_of_mem x (List.mem_of_mem_filter hy))
              have hmap : (M.erase x.1).map (fun m => (m, marked m (l.filter (stays below x.1)))) =
                  (M.erase x.1).map fun m => (m, marked m (x :: l)) := by
                refine List.map_congr_left fun m hm => ?_
                obtain ⟨hne, hm⟩ := h.nodup.mem_erase_iff.mp hm
                rw [marked_filter fun y _ => hkeep m hm hne y, marked_cons_of_ne (Ne.symm hne)]
              have hperm := ih htops (Nat.le_trans (List.length_filter_le _ l) hn)
              rw [hmap] at hperm
              rw [heq]
              have hhead : (x.1, x.2 || marked x.1 l) = (x.1, marked x.1 (x :: l)) := by simp [marked]
              rw [hhead]
              exact (hperm.cons _).trans ((List.perm_cons_erase hx).map fun m => (m, marked m (x :: l))).symm
            · rw [h.top x.1 hx w (by simp)] at hw
              cases hw
          · obtain ⟨m, hm, hbelow⟩ := (h.covered x List.mem_cons_self).resolve_left hx
            have hne : ∀ m ∈ M, m ≠ x.1 := fun m hm heq => hx (heq ▸ hm)
            rcases prune_step below n x l with ⟨hall, -⟩ | ⟨l₁, w, l₂, rfl, hw, -, heq⟩
            · obtain ⟨y, hy, rfl⟩ := hmem m hm (hne m hm)
              rw [hall y hy (hkeep _ hm (hne _ hm) y rfl)] at hbelow
              cases hbelow
            · have hsub : ∀ y ∈ l₁.filter (stays below x.1) ++ w :: l₂, y ∈ x :: (l₁ ++ w :: l₂) := by
                intro y hy
                rcases List.mem_append.mp hy with hy | hy
                · exact List.mem_cons_of_mem x (List.mem_append_left _ (List.mem_of_mem_filter hy))
                · exact List.mem_cons_of_mem x (List.mem_append_right _ hy)
              have htops : Tops below M (l₁.filter (stays below x.1) ++ w :: l₂) := by
                refine ⟨h.nodup, fun m hm => ?_, fun y hy => h.covered y (hsub y hy),
                  fun m hm y hy => h.top m hm y (hsub y hy)⟩
                obtain ⟨y, hy, hkey⟩ := hmem m hm (hne m hm)
                refine ⟨y, ?_, hkey⟩
                rcases List.mem_append.mp hy with hy | hy
                · exact List.mem_append_left _ (List.mem_filter.mpr ⟨hy, hkeep m hm (hne m hm) y hkey⟩)
                · exact List.mem_append_right _ hy
              have hlen : (l₁.filter (stays below x.1) ++ w :: l₂).length ≤ n := by
                have hfilter := List.length_filter_le (stays below x.1) l₁
                rw [List.length_append] at hn ⊢
                omega
              have hmap : M.map (fun m => (m, marked m (l₁.filter (stays below x.1) ++ w :: l₂))) =
                  M.map fun m => (m, marked m (x :: (l₁ ++ w :: l₂))) := by
                refine List.map_congr_left fun m hm => ?_
                rw [marked_cons_of_ne (Ne.symm (hne m hm)), marked_append, marked_append,
                  marked_filter fun y _ => hkeep m hm (hne m hm) y]
              rw [heq, ← hmap]
              exact ih htops hlen

/-! ## 並べ方による場合 -/

/-- 鍵 `k` の項と比べて、残らない項だけを除いた並び。 -/
inductive Reduced (below : κ → κ → Bool) (k : κ) : List (κ × Bool) → List (κ × Bool) → Prop
  | nil : Reduced below k [] []
  | keep {y : κ × Bool} {l l' : List (κ × Bool)} : Reduced below k l l' → Reduced below k (y :: l) (y :: l')
  | drop {y : κ × Bool} {l l' : List (κ × Bool)} : stays below k y = false → Reduced below k l l' →
      Reduced below k (y :: l) l'

theorem Reduced.refl (below : κ → κ → Bool) (k : κ) : (l : List (κ × Bool)) → Reduced below k l l
  | [] => .nil
  | _ :: l => .keep (Reduced.refl below k l)

theorem Reduced.filter (below : κ → κ → Bool) (k : κ) (l : List (κ × Bool)) : Reduced below k l
    (l.filter (stays below k)) := by
  induction l with
  | nil => exact .nil
  | cons y l ih =>
      cases hy : stays below k y with
      | true =>
          rw [List.filter_cons_of_pos hy]
          exact .keep ih
      | false =>
          rw [List.filter_cons_of_neg (by simp [hy])]
          exact .drop hy ih

theorem Reduced.append {l₁ l₁' l₂ l₂' : List (κ × Bool)} (h₁ : Reduced below k l₁ l₁')
    (h₂ : Reduced below k l₂ l₂') : Reduced below k (l₁ ++ l₂) (l₁' ++ l₂') := by
  induction h₁ with
  | nil => exact h₂
  | keep _ ih => exact .keep ih
  | drop hy _ ih => exact .drop hy ih

theorem Reduced.of_append {l₁ l₂ l' : List (κ × Bool)} (h : Reduced below k (l₁ ++ l₂) l') :
    ∃ l₁' l₂', l' = l₁' ++ l₂' ∧ Reduced below k l₁ l₁' ∧ Reduced below k l₂ l₂' := by
  induction l₁ generalizing l' with
  | nil => exact ⟨[], l', rfl, .nil, h⟩
  | cons y l₁ ih =>
      cases h with
      | keep h =>
          obtain ⟨l₁', l₂', rfl, h₁, h₂⟩ := ih h
          exact ⟨y :: l₁', l₂', rfl, .keep h₁, h₂⟩
      | drop hy h =>
          obtain ⟨l₁', l₂', rfl, h₁, h₂⟩ := ih h
          exact ⟨l₁', l₂', rfl, .drop hy h₁, h₂⟩

theorem Reduced.sublist (h : Reduced below k l l') : l'.Sublist l := by
  induction h with
  | nil => exact List.Sublist.slnil
  | keep _ ih => exact ih.cons_cons _
  | drop _ _ ih => exact ih.cons _

theorem Reduced.mem (h : Reduced below k l l') (hy : y ∈ l) (hstays : stays below k y = true) : y ∈ l' := by
  induction h with
  | nil => exact hy
  | keep _ ih =>
      rcases List.mem_cons.mp hy with rfl | hy
      · exact List.mem_cons_self
      · exact List.mem_cons_of_mem _ (ih hy)
  | drop hdrop _ ih =>
      rcases List.mem_cons.mp hy with rfl | hy
      · rw [hdrop] at hstays
        cases hstays
      · exact ih hy

/-- 後の項を二つに分けた一歩。 -/
theorem prune_step_append (below : κ → κ → Bool) (n : Nat) (x : κ × Bool) (P Q : List (κ × Bool)) :
    ((∀ y ∈ P ++ Q, stays below x.1 y = true → below x.1 y.1 = false) ∧
      prune below (n + 1) (x :: (P ++ Q)) =
        (x.1, x.2 || marked x.1 (P ++ Q)) :: prune below n (P.filter (stays below x.1) ++ Q.filter (stays below x.1))) ∨
    (∃ w ∈ P, below x.1 w.1 = true ∧ ∃ P', Reduced below x.1 P P' ∧
    prune below (n + 1) (x :: (P ++ Q)) = prune below n (P' ++ Q)) ∨
    ((∀ y ∈ P, stays below x.1 y = true → below x.1 y.1 = false) ∧ ∃ w ∈ Q, below x.1 w.1 = true ∧
      ∃ Q', Reduced below x.1 Q Q' ∧ prune below (n + 1) (x :: (P ++ Q)) =
      prune below n (P.filter (stays below x.1) ++ Q')) := by
  rcases prune_step below n x (P ++ Q) with ⟨hall, heq⟩ | ⟨l₁, w, l₂, hsplit, hw, hl₁, heq⟩
  · exact .inl ⟨hall, by rw [heq, List.filter_append]⟩
  · have hreduced := Reduced.filter below x.1 l₁
    rcases List.append_eq_append_iff.mp hsplit with ⟨c, rfl, rfl⟩ | ⟨c, rfl, hc⟩
    · refine .inr (.inr ⟨fun y hy => hl₁ y (List.mem_append_left c hy), w,
        by simp, hw, c.filter (stays below x.1) ++ w :: l₂, ?_, ?_⟩)
      · exact (Reduced.filter below x.1 c).append (.refl below x.1 _)
      · rw [heq, List.filter_append, List.append_assoc]
    · cases c with
      | nil =>
          obtain rfl : Q = w :: l₂ := hc.symm
          refine .inr (.inr ⟨fun y hy => hl₁ y (by simpa using hy), w, List.mem_cons_self, hw,
            w :: l₂, .refl below x.1 _, ?_⟩)
          rw [heq, List.append_nil]
      | cons v c =>
          obtain ⟨rfl, rfl⟩ := List.cons_eq_cons.mp hc
          refine .inr (.inl ⟨w, by simp, hw, l₁.filter (stays below x.1) ++ w :: c, hreduced.append (.refl below x.1 _), ?_⟩)
          rw [heq, List.append_assoc]
          rfl

/-- 鍵 `s` の項を残す並び方。`C ++ D` が前に、`B` が後にある。 -/
structure Guarded (below : κ → κ → Bool) (T : κ → Prop) (s : κ) (C D B : List (κ × Bool)) : Prop where
  free : ∀ z ∈ C, z.1 ≠ s
  before : ∀ y ∈ C ++ D, below s y.1 = true → ∃ z ∈ C ++ D, T z.1 ∧ below y.1 z.1 = true
  after : ∀ y ∈ B, below s y.1 = true → ∃ z ∈ C, T z.1 ∧ below y.1 z.1 = true
  top : ∀ t, T t → below t s = false ∧ ∀ y ∈ C ++ D ++ B, below t y.1 = false

variable {C C₀ C' D D₀ D' B B' : List (κ × Bool)}

theorem Guarded.reduce (h : Guarded below T s C D B) (hsub : C₀ ⊆ C) (hC : ∀ z ∈ C, z = x ∨ z ∈ C₀)
    (hsubA : C₀ ++ D₀ ⊆ C ++ D) (hA : ∀ z ∈ C ++ D, z = x ∨ z ∈ C₀ ++ D₀) (hx : x ∈ C ++ D)
    (hC' : Reduced below x.1 C₀ C') (hD' : Reduced below x.1 D₀ D') (hB' : Reduced below x.1 B B')
    (hT : T x.1 → ∀ y ∈ C' ++ D' ++ B', below y.1 x.1 = false) : Guarded below T s C' D' B' := by
  have hsub' : ∀ y ∈ C' ++ D', y ∈ C ++ D := fun y hy => hsubA ((hC'.append hD').sublist.subset hy)
  have hB : ∀ y ∈ B', y ∈ B := fun y hy => hB'.sublist.subset hy
  -- 守っている項は、`x` と比べても残る。
  have hstays : ∀ y ∈ C' ++ D' ++ B', ∀ z, T z.1 → below y.1 z.1 = true → stays below x.1 z = true := by
    intro y hy z hz hyz
    refine stays_iff.mpr ⟨fun heq => ?_, (h.top z.1 hz).2 x (List.mem_append_left B hx)⟩
    rw [heq] at hz hyz
    rw [hT hz y hy] at hyz
    cases hyz
  refine ⟨fun z hz => h.free z (hsub (hC'.sublist.subset hz)), fun y hy hs => ?_, fun y hy hs => ?_,
    fun t ht => ⟨(h.top t ht).1, fun y hy => ?_⟩⟩
  · obtain ⟨z, hz, htop, hyz⟩ := h.before y (hsub' y hy) hs
    have hz' := hstays y (List.mem_append_left B' hy) z htop hyz
    rcases hA z hz with rfl | hz
    · exact absurd rfl (stays_iff.mp hz').1
    · exact ⟨z, (hC'.append hD').mem hz hz', htop, hyz⟩
  · obtain ⟨z, hz, htop, hyz⟩ := h.after y (hB y hy) hs
    have hz' := hstays y (List.mem_append_right _ hy) z htop hyz
    rcases hC z hz with rfl | hz
    · exact absurd rfl (stays_iff.mp hz').1
    · exact ⟨z, hC'.mem hz hz', htop, hyz⟩
  · refine (h.top t ht).2 y ?_
    rcases List.mem_append.mp hy with hy | hy
    · exact List.mem_append_left B (hsub' y hy)
    · exact List.mem_append_right _ (hB y hy)

theorem Guarded.step (hirrefl : ∀ a, below a a = false) (h : Guarded below T s C D B) (hsplit : C ++ D = x :: (C₀ ++ D₀))
    (hsub : C₀ ⊆ C) (hC : ∀ z ∈ C, z = x ∨ z ∈ C₀) (hxs : x.1 = s → C = []) (n : Nat) :
    (∃ b', (s, b') ∈ prune below (n + 1) (C ++ D ++ (s, b) :: B)) ∨
      ∃ C' D' B', Guarded below T s C' D' B' ∧ (C' ++ D' ++ (s, b) :: B').length ≤ (C₀ ++ D₀ ++ (s, b) :: B).length ∧
        ∀ y ∈ prune below n (C' ++ D' ++ (s, b) :: B'), y ∈ prune below (n + 1) (C ++ D ++ (s, b) :: B) := by
  have hx : x ∈ C ++ D := by simp [hsplit]
  have hsubA : C₀ ++ D₀ ⊆ C ++ D := by
    rw [hsplit]
    exact List.subset_cons_self x _
  have hA : ∀ z ∈ C ++ D, z = x ∨ z ∈ C₀ ++ D₀ := by
    intro z hz
    rw [hsplit] at hz
    exact List.mem_cons.mp hz
  -- `s` の上にある `x` は、後の、`s` より前の項の下にある。
  have hguard : below s x.1 = true → ∃ z ∈ C₀ ++ D₀, stays below x.1 z = true ∧ below x.1 z.1 = true := by
    intro hbelow
    obtain ⟨z, hz, htop, hxz⟩ := h.before x hx hbelow
    have hne : z.1 ≠ x.1 := fun heq => by
      rw [heq, hirrefl] at hxz
      cases hxz
    rcases hA z hz with rfl | hz
    · exact absurd rfl hne
    · exact ⟨z, hz, stays_iff.mpr ⟨hne, (h.top z.1 htop).2 x (List.mem_append_left B hx)⟩, hxz⟩
  -- 前の項がどれも `x` の上になければ、鍵 `s` の項は、`x` と比べても残る。
  have hs : x.1 ≠ s → (∀ y ∈ C₀ ++ D₀, stays below x.1 y = true → below x.1 y.1 = false) →
      stays below x.1 (s, b) = true := by
    intro hne hall
    refine stays_iff.mpr ⟨Ne.symm hne, eq_false_of_ne_true fun hbelow => ?_⟩
    obtain ⟨z, hz, hstays, hxz⟩ := hguard hbelow
    rw [hall z hz hstays] at hxz
    cases hxz
  have hnottop : ∀ w ∈ C ++ D ++ (s, b) :: B, below x.1 w.1 = true → ¬ T x.1 := by
    intro w hw hxw htop
    have hfalse : below x.1 w.1 = false := by
      rcases List.mem_append.mp hw with hw | hw
      · exact (h.top _ htop).2 w (List.mem_append_left B hw)
      · rcases List.mem_cons.mp hw with rfl | hw
        · exact (h.top _ htop).1
        · exact (h.top _ htop).2 w (List.mem_append_right _ hw)
    rw [hfalse] at hxw
    cases hxw
  have hlist : C ++ D ++ (s, b) :: B = x :: (C₀ ++ D₀ ++ (s, b) :: B) := by rw [hsplit, List.cons_append]
  rw [hlist]
  have hreduced := Reduced.filter below x.1
  rcases prune_step_append below n x (C₀ ++ D₀) ((s, b) :: B) with
    ⟨hall, heq⟩ | ⟨w, hw, hxw, P', hP', heq⟩ | ⟨hall, w, hw, hxw, Q', hQ', heq⟩
  · by_cases hxs : x.1 = s
    · exact .inl ⟨_, by rw [heq, hxs]; exact List.mem_cons_self⟩
    · have hstays := hs hxs fun y hy => hall y (List.mem_append_left _ hy)
      refine .inr ⟨_, _, _, h.reduce hsub hC hsubA hA hx (hreduced C₀) (hreduced D₀) (hreduced B) fun _ y hy => ?_, ?_, ?_⟩
      · have hfilter : y ∈ (C₀ ++ D₀ ++ B).filter (stays below x.1) := by
          rw [List.filter_append, List.filter_append]
          exact hy
        exact (stays_iff.mp (List.mem_filter.mp hfilter).2).2
      · have hle := ((hreduced C₀).append (hreduced D₀)).sublist.length_le
        have hle' := (hreduced B).sublist.length_le
        simp only [List.length_append, List.length_cons] at hle ⊢
        omega
      · intro y hy
        rw [heq, List.filter_append, List.filter_cons_of_pos hstays]
        exact List.mem_cons_of_mem _ hy
  · obtain ⟨C', D', rfl, hC', hD'⟩ := hP'.of_append
    refine .inr ⟨C', D', B, h.reduce hsub hC hsubA hA hx hC' hD' (.refl below x.1 B) fun htop => ?_,
      ?_, fun y hy => by rwa [heq]⟩
    · exact absurd htop (hnottop w (List.mem_append_left _ (hsubA hw)) hxw)
    · have hle := (hC'.append hD').sublist.length_le
      simp only [List.length_append, List.length_cons] at hle ⊢
      omega
  · have hw' : w ∈ C ++ D ++ (s, b) :: B := List.mem_append_right _ hw
    have hne : x.1 ≠ s := by
      intro heqs
      rw [heqs] at hxw
      rcases List.mem_cons.mp hw with rfl | hw
      · rw [hirrefl] at hxw
        cases hxw
      · obtain ⟨z, hz, -⟩ := h.after w hw hxw
        rw [hxs heqs] at hz
        cases hz
    have hstays := hs hne hall
    cases hQ' with
    | drop hdrop _ =>
        rw [hstays] at hdrop
        cases hdrop
    | @keep _ _ B' hB' =>
        refine .inr ⟨_, _, B', h.reduce hsub hC hsubA hA hx (hreduced C₀) (hreduced D₀) hB' fun htop => ?_, ?_, ?_⟩
        · exact absurd htop (hnottop w hw' hxw)
        · have hle := ((hreduced C₀).append (hreduced D₀)).sublist.length_le
          have hle' := hB'.sublist.length_le
          simp only [List.length_append, List.length_cons] at hle ⊢
          omega
        · intro y hy
          rw [heq, List.filter_append]
          exact hy

theorem Guarded.survives (hirrefl : ∀ a, below a a = false) (h : Guarded below T s C D B)
    (hn : (C ++ D ++ (s, b) :: B).length ≤ n) :
    ∃ b', (s, b') ∈ prune below n (C ++ D ++ (s, b) :: B) := by
  induction n generalizing C D B with
  | zero => simp at hn
  | succ n ih =>
      have hnext : ∀ {x : κ × Bool} {C₀ D₀ : List (κ × Bool)}, C ++ D = x :: (C₀ ++ D₀) → C₀ ⊆ C →
          (∀ z ∈ C, z = x ∨ z ∈ C₀) →
          (x.1 = s → C = []) → ∃ b', (s, b') ∈ prune below (n + 1) (C ++ D ++ (s, b) :: B) := by
        intro x C₀ D₀ hsplit hsub hC hxs
        have hlen : (C₀ ++ D₀ ++ (s, b) :: B).length ≤ n := by
          rw [hsplit] at hn
          exact Nat.le_of_succ_le_succ hn
        rcases @Guarded.step κ _ below s b x T C C₀ D D₀ B hirrefl h hsplit hsub hC hxs
          n with hdone | ⟨C', D', B', h', hle, hmem⟩
        · exact hdone
        · obtain ⟨b', hb'⟩ := ih h' (Nat.le_trans hle hlen)
          exact ⟨b', hmem _ hb'⟩
      cases C with
      | cons x C₀ =>
          refine hnext rfl (List.subset_cons_self x C₀) (fun z hz => List.mem_cons.mp hz) fun heq => ?_
          exact absurd heq (h.free x List.mem_cons_self)
      | nil =>
          cases D with
          | cons x D₀ => exact @hnext x [] D₀ rfl (List.nil_subset _) (fun z hz => nomatch hz) fun _ => rfl
          | nil =>
              rcases prune_step below n (s, b) B with ⟨-, heq⟩ | ⟨l₁, w, l₂, rfl, hw, -, -⟩
              · exact ⟨_, by rw [List.append_nil, List.nil_append, heq]; exact List.mem_cons_self⟩
              · obtain ⟨z, hz, -⟩ := h.after w (by simp) hw
                cases hz

end Lib.Prune
