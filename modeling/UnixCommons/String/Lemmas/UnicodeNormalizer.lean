import UnixCommons.String.UnicodeNormalizer

/-!
# 文字列の合成の補題

一つの並びの上の合成は、書いた列と残りの列を分けた合成と一致する。
-/

namespace UnixCommons.String.UnicodeNormalizer

open Lib

variable {t : Tables} {c : Cursor} {rest out : List Nat} {x value : Nat}

/-! ## 分けた合成 -/

/-- 書いた列を、`maybe_starter` の前と、`maybe_starter` と、その後に分けて持つ。 -/
structure Composing where
  done : List Nat
  starter : Nat
  kept : List Nat
  lastClass : Nat

variable {s : Composing}

def Composing.text (s : Composing) : List Nat := s.done ++ s.starter :: s.kept

def Composing.advance (t : Tables) (s : Composing) (x : Nat) : Composing :=
  match if t.combiningClass x > s.lastClass ∨ t.combiningClass x = 0 then t.pairComposite s.starter x else none with
  | some value => { s with starter := value }
  | none =>
      if t.combiningClass x = 0 then ⟨s.text, x, [], t.combiningClass x⟩
      else { s with kept := s.kept ++ [x], lastClass := t.combiningClass x }

def transduce (t : Tables) (out : List Nat) : List Nat → List Nat
  | [] => out
  | x :: rest => (rest.foldl (Composing.advance t) ⟨out, x, [], t.combiningClass x⟩).text

/-! ## 一つの並び -/

structure Cursor.Holds (c : Cursor) (out rest : List Nat) : Prop where
  written : c.buffer.take c.output = out
  rest : c.buffer.drop c.first = rest

theorem Cursor.Holds.output_eq (h : c.Holds out rest) : c.output = out.length := by
  have := c.behind
  have := c.inside
  rw [← h.written, List.length_take]
  omega

theorem Cursor.Holds.remaining_eq (h : c.Holds out rest) : c.buffer.length - c.first = rest.length := by
  rw [← h.rest, List.length_drop]

theorem Cursor.Holds.first_lt (h : c.Holds out (x :: rest)) : c.first < c.buffer.length := by
  have := h.remaining_eq
  rw [List.length_cons] at this
  omega

theorem Cursor.Holds.get_first (h : c.Holds out (x :: rest)) (hlt : c.first < c.buffer.length) : c.buffer[c.first] = x := by
  have hdrop := h.rest
  rw [List.drop_eq_getElem_cons hlt] at hdrop
  exact (List.cons.inj hdrop).1

theorem Cursor.Holds.drop_succ (h : c.Holds out (x :: rest)) : c.buffer.drop (c.first + 1) = rest := by
  rw [← List.drop_drop, h.rest]
  rfl

theorem Cursor.Holds.keep (h : c.Holds out (x :: rest)) (hlt : c.first < c.buffer.length) :
    (c.keep hlt).Holds (out ++ [x]) rest := by
  have hbehind := c.behind
  constructor
  · simp only [Cursor.keep, h.get_first hlt]
    rw [List.take_add_one, List.take_set_of_le (Nat.le_refl _), h.written, List.getElem?_set_self (by omega)]
    rfl
  · simp only [Cursor.keep]
    rw [List.drop_set_of_lt (by omega)]
    exact h.drop_succ

theorem Cursor.Holds.replace {starter : Nat} (h : c.Holds out (x :: rest))
    (hlt : c.first < c.buffer.length) (hp : starter < out.length) :
    (c.replace hlt starter value).Holds (out.set starter value) rest := by
  have hbehind := c.behind
  have houtput := h.output_eq
  constructor
  · simp only [Cursor.replace]
    rw [List.take_set, h.written]
  · simp only [Cursor.replace]
    rw [List.drop_set_of_lt (by omega)]
    exact h.drop_succ

theorem Cursor.Holds.getD_starter (h : c.Holds s.text rest) : c.buffer.getD s.done.length 0 = s.starter := by
  have hget : (c.buffer.take c.output)[s.done.length]? = some s.starter := by
    rw [h.written, Composing.text, List.getElem?_append_right (Nat.le_refl _)]
    simp
  rw [List.getElem?_take] at hget
  split at hget
  · rw [List.getD_eq_getElem?_getD, hget]
    rfl
  · cases hget

theorem pairCompose_spec (h : c.Holds s.text (x :: rest)) (hlt : c.first < c.buffer.length) :
    (∃ lastClass c', pairCompose t s.done.length s.lastClass c hlt = (true, lastClass, c') ∧
    c'.Holds (s.advance t x).text rest ∧
        (s.advance t x).done = s.done ∧ (s.advance t x).lastClass = lastClass) ∨
      (pairCompose t s.done.length s.lastClass c hlt = (false, s.lastClass, c) ∧
        s.advance t x = ⟨s.text, x, [], t.combiningClass x⟩) := by
  rw [pairCompose, Composing.advance]
  simp only [h.get_first hlt, h.getD_starter]
  cases hv : (if t.combiningClass x > s.lastClass ∨ t.combiningClass x = 0 then t.pairComposite s.starter x else none) with
  | some value =>
      refine .inl ⟨_, _, rfl, ?_, rfl, rfl⟩
      have hset : s.text.set s.done.length value = s.done ++ value :: s.kept := by
        rw [Composing.text, List.set_append_right _ _ (Nat.le_refl _)]
        simp
      have hheld : (c.replace hlt s.done.length value).Holds (s.text.set s.done.length value)
          rest := h.replace hlt (by simp [Composing.text])
      rw [hset] at hheld
      exact hheld
  | none =>
      simp only
      split
      · exact .inr ⟨rfl, rfl⟩
      · refine .inl ⟨_, _, rfl, ?_, rfl, rfl⟩
        have hheld : (c.keep hlt).Holds (s.text ++ [x]) rest := h.keep hlt
        simpa [Composing.text] using hheld

theorem composeLoop_spec (h : c.Holds s.text rest) :
    ∃ consumed rest', rest = consumed ++ rest' ∧
      (composeLoop t s.done.length rest.length s.lastClass c).Holds (consumed.foldl (Composing.advance t) s).text rest' ∧
      ∀ x ∈ rest'.head?, (consumed.foldl (Composing.advance t) s).advance t x =
        ⟨(consumed.foldl (Composing.advance t) s).text, x, [], t.combiningClass x⟩ := by
  induction rest generalizing s c with
  | nil => exact ⟨[], [], rfl, h, by simp⟩
  | cons x rest ih =>
      have hlt := h.first_lt
      rw [List.length_cons, composeLoop, dif_pos hlt]
      rcases pairCompose_spec h hlt with ⟨lastClass, c', heq, hheld, hdone, hlast⟩ | ⟨heq, hnew⟩
      · obtain ⟨consumed, rest', hsplit, hloop, hhead⟩ := ih hheld
        rw [hdone, hlast] at hloop
        refine ⟨x :: consumed, rest', by rw [hsplit, List.cons_append], ?_, hhead⟩
        rw [heq]
        exact hloop
      · refine ⟨[], x :: rest, rfl, ?_, ?_⟩
        · rw [heq]
          exact h
        · intro y hy
          obtain rfl := Option.some.inj hy
          exact hnew

theorem compose_spec (h : c.Holds out (x :: rest)) (hlt : c.first < c.buffer.length) :
    ∃ consumed rest', rest = consumed ++ rest' ∧
      (compose t c hlt).Holds (consumed.foldl (Composing.advance t) ⟨out, x, [], t.combiningClass x⟩).text rest' ∧
      ∀ y ∈ rest'.head?, (consumed.foldl (Composing.advance t) ⟨out, x, [], t.combiningClass x⟩).advance t y =
        ⟨(consumed.foldl (Composing.advance t) ⟨out, x, [], t.combiningClass x⟩).text, y, [], t.combiningClass y⟩ := by
  have hheld : (c.keep hlt).Holds (Composing.mk out x [] (t.combiningClass x)).text rest := h.keep hlt
  have hstarter : (c.keep hlt).buffer.getD out.length 0 = x :=
    @Cursor.Holds.getD_starter _ rest (Composing.mk out x [] 0) hheld
  have hspec := @composeLoop_spec t _ rest (Composing.mk out x [] (t.combiningClass x)) hheld
  rw [compose, h.output_eq]
  simp only [hstarter, hheld.remaining_eq]
  exact hspec

theorem composeStringLoop_spec {remaining : Nat} (h : c.Holds out rest) (hr : rest.length ≤ remaining) :
    (composeStringLoop t remaining c).Holds (transduce t out rest) [] := by
  induction remaining generalizing c out rest with
  | zero =>
      obtain rfl := List.eq_nil_of_length_eq_zero (Nat.eq_zero_of_le_zero hr)
      exact h
  | succ remaining ih =>
      rw [composeStringLoop]
      cases rest with
      | nil =>
          rw [dif_neg]
          · exact h
          · have := h.remaining_eq
            rw [List.length_nil] at this
            omega
      | cons x rest =>
          have hlt := h.first_lt
          rw [dif_pos hlt]
          obtain ⟨consumed, rest', rfl, hheld, hhead⟩ := compose_spec h hlt
          have hshort : rest'.length ≤ remaining := by
            simp only [List.length_cons, List.length_append] at hr
            omega
          have hloop := ih hheld hshort
          cases rest' with
          | nil => simpa [transduce] using hloop
          | cons y rest' =>
              have hy := hhead y rfl
              rw [transduce] at hloop ⊢
              rw [List.foldl_append, List.foldl_cons, hy]
              exact hloop

theorem composeString_spec (t : Tables) (text : List Nat) : (composeString t text).written = transduce t [] text := by
  have hinit : (Cursor.mk text 0 0 (Nat.le_refl _) (Nat.zero_le _)).Holds [] text := ⟨rfl, rfl⟩
  exact (composeStringLoop_spec hinit (Nat.le_refl _)).written

/-! ## 対 -/

variable {prev m : Nat} {length : Nat → Nat}

theorem Tables.pairComposite_of_drops (h : t.Drops value x) : t.pairComposite value x = some value := by
  rcases h with ⟨⟨hle, hlt, hmod⟩, rfl⟩ | ⟨rfl, rfl, hempty⟩
  · have hnot : ¬ IsLV value tBase := by
      rintro ⟨⟨-, hl⟩, -⟩
      simp only [lBase, lCount, sBase] at hl hle
      omega
    rw [Tables.pairComposite, if_neg hnot, if_pos ⟨⟨hle, hlt, hmod⟩, Nat.le_refl _, by decide⟩]
    simp
  · have hnot : ¬ IsLV 0 0 := by decide
    have hnot' : ¬ (IsSyllableLV 0 ∧ 0 ≥ tBase ∧ 0 < tBase + tCount) := by decide
    rw [Tables.pairComposite, if_neg hnot, if_neg hnot', hempty]
    rfl

theorem Tables.pairComposite_of_not_drops (h : ¬ t.Drops value x) :
    t.pairComposite value x = t.composer.composite value x := by
  obtain ⟨hsyllable, hzero⟩ := not_or.mp h
  simp only [Tables.pairComposite, Tables.composer]
  split
  · rfl
  · have hbase : (IsSyllableLV value ∧ x ≥ tBase ∧ x < tBase + tCount) ↔
        (IsSyllableLV value ∧ x > tBase ∧ x < tBase + tCount) := by
      constructor
      · rintro ⟨hs, hge, hlt⟩
        exact ⟨hs, Nat.lt_of_le_of_ne hge fun heq => hsyllable ⟨hs, heq.symm⟩, hlt⟩
      · rintro ⟨hs, hgt, hlt⟩
        exact ⟨hs, Nat.le_of_lt hgt, hlt⟩
    simp only [hbase]
    split
    · rfl
    · by_cases hempty : t.compositeHash (hash value x) = emptyRecord
      · have hnot : ¬ (emptyRecord.starter = value ∧ emptyRecord.combiner = x) := by
          rintro ⟨rfl, rfl⟩
          exact hzero ⟨rfl, rfl, hempty⟩
        simp [hempty, hnot]
      · simp [hempty]

theorem Tables.drops_class (h : t.Drops value x) (hlaw : t.composer.Lawful length) :
    t.combiningClass value = 0 ∨ value = x := by
  rcases h with ⟨hs, rfl⟩ | ⟨rfl, rfl, -⟩
  · have hnot : ¬ IsLV value (tBase + 1) := by
      rintro ⟨⟨-, hl⟩, -⟩
      have hle := hs.1
      simp only [lBase, lCount, sBase] at hl hle
      omega
    have hcomposite : t.composer.composite value (tBase + 1) = some (value + (tBase + 1 - tBase)) := by
      simp only [Tables.composer, if_neg hnot]
      exact if_pos ⟨hs, Nat.lt_succ_self _, by decide⟩
    exact .inl (hlaw.starter _ _ _ hcomposite).1
  · exact .inr rfl

theorem Composing.advance_cases (t : Tables) (s : Composing) (x : Nat) :
    (∃ value, t.pairComposite s.starter x = some value ∧ s.advance t x = { s with starter := value }) ∨
      s.advance t x = ⟨s.text, x, [], t.combiningClass x⟩ ∨ s.advance t x =
      { s with kept := s.kept ++ [x], lastClass := t.combiningClass x } := by
  rw [Composing.advance]
  split
  · rename_i value hv
    split at hv
    · exact .inl ⟨value, hv, rfl⟩
    · cases hv
  · split
    · exact .inr (.inl rfl)
    · exact .inr (.inr rfl)

theorem Composing.advance_some (hpass : t.combiningClass x > s.lastClass ∨ t.combiningClass x = 0)
    (hv : t.pairComposite s.starter x = some value) : s.advance t x = { s with starter := value } := by
  rw [Composing.advance, if_pos hpass, hv]

theorem Composing.advance_none
    (h : (if t.combiningClass x > s.lastClass ∨ t.combiningClass x = 0 then t.pairComposite s.starter x else none) = none) :
    s.advance t x = if t.combiningClass x = 0 then ⟨s.text, x, [], t.combiningClass x⟩
      else { s with kept := s.kept ++ [x], lastClass := t.combiningClass x } := by
  rw [Composing.advance, h]

/-! ## 算法との一致 -/

/-- `prev` まで読んだ時の、後に残る文字と `last_class`。 -/
structure Composing.Synced (t : Tables) (s : Composing) (prev : Nat) : Prop where
  kept : ∀ b ∈ s.kept, t.combiningClass b ≠ 0 ∧ t.combiningClass b ≤ s.lastClass
  last : s.kept ≠ [] → (∃ b ∈ s.kept, t.combiningClass b = s.lastClass) ∧ s.lastClass ≤ t.combiningClass prev
  start : (t.combiningClass s.starter = 0 ∧ (s.kept = [] → s.lastClass = 0)) ∨
    (t.combiningClass s.starter ≠ 0 ∧ s.done = [] ∧ t.combiningClass s.starter ≤ s.lastClass ∧
    s.lastClass ≤ t.combiningClass prev)

theorem Composing.Synced.begin (done : List Nat) (h : t.combiningClass x = 0) :
    Composing.Synced t ⟨done, x, [], t.combiningClass x⟩ x :=
  ⟨by simp, by simp, .inl ⟨h, fun _ => h⟩⟩

theorem Composing.Synced.append (h : s.Synced t prev) (hx : t.combiningClass x ≠ 0)
    (hle : s.lastClass ≤ t.combiningClass x) :
    Composing.Synced t { s with kept := s.kept ++ [x], lastClass := t.combiningClass x } x := by
  refine ⟨?_, ?_, ?_⟩
  · intro b hb
    rcases List.mem_append.mp hb with hb | hb
    · exact ⟨(h.kept b hb).1, Nat.le_trans (h.kept b hb).2 hle⟩
    · obtain rfl := List.mem_singleton.mp hb
      exact ⟨hx, Nat.le_refl _⟩
  · intro _
    exact ⟨⟨x, by simp, rfl⟩, Nat.le_refl _⟩
  · rcases h.start with ⟨hs, -⟩ | ⟨hs, hdone, hlow, -⟩
    · exact .inl ⟨hs, fun hnil => by simp at hnil⟩
    · exact .inr ⟨hs, hdone, Nat.le_trans hlow hle, Nat.le_refl _⟩

theorem Composing.Synced.blocked_iff (h : s.Synced t prev) :
    t.composer.Blocked s.kept x ↔ s.kept ≠ [] ∧ t.combiningClass x ≤ s.lastClass := by
  constructor
  · rintro ⟨b, hb, hzero | hle⟩
    · exact absurd hzero (h.kept b hb).1
    · exact ⟨List.ne_nil_of_mem hb, Nat.le_trans hle (h.kept b hb).2⟩
  · rintro ⟨hne, hle⟩
    obtain ⟨⟨b, hb, heq⟩, -⟩ := h.last hne
    exact ⟨b, hb, .inr (Nat.le_trans hle (Nat.le_of_eq heq.symm))⟩

theorem Composing.Synced.lastStarter_eq (h : s.Synced t prev) (hs : t.combiningClass s.starter = 0) :
    t.composer.lastStarter s.text = some (s.done, s.starter, s.kept) :=
  Composer.lastStarter_append hs fun b hb => (h.kept b hb).1

theorem Composing.Synced.nonstarters (h : s.Synced t prev) (hs : t.combiningClass s.starter ≠ 0)
    (hdone : s.done = []) : ∀ b ∈ s.text, t.combiningClass b ≠ 0 := by
  intro b hb
  rw [Composing.text, hdone, List.nil_append] at hb
  cases hb with
  | head => exact hs
  | tail _ hb => exact (h.kept b hb).1

theorem Composing.Synced.passes (h : s.Synced t prev) (hs : s.kept = [] → s.lastClass = 0)
    (hb : t.combiningClass x = 0 ∨ ¬ t.composer.Blocked s.kept x) :
    t.combiningClass x > s.lastClass ∨ t.combiningClass x = 0 := by
  rcases hb with hzero | hb
  · exact .inr hzero
  · rw [h.blocked_iff, not_and_or, not_not] at hb
    rcases hb with hnil | hlt
    · rw [hs hnil]
      exact (Nat.eq_zero_or_pos _).symm
    · exact .inl (Nat.not_le.mp hlt)

theorem Tables.diverges_iff (h : s.Synced t prev) (hs : t.combiningClass s.starter = 0) :
    t.Diverges s.text x ↔ (t.composer.composite s.starter x ≠ none ∧ s.kept ≠ [] ∧ t.combiningClass x = 0) ∨
      (t.Drops s.starter x ∧ (t.combiningClass x = 0 ∨ ¬ t.composer.Blocked s.kept x)) := by
  rw [Tables.Diverges, h.lastStarter_eq hs]

theorem Composing.Synced.step_nonstarter (h : s.Synced t prev) (hlaw : t.composer.Lawful length)
    (hs : t.combiningClass s.starter ≠ 0)
    (hdone : s.done = []) (hlow : t.combiningClass s.starter ≤ s.lastClass) (hprev : s.lastClass ≤ t.combiningClass prev)
    (horder : t.combiningClass x = 0 ∨ t.combiningClass prev ≤ t.combiningClass x) :
    (s.advance t x).text = t.composer.composeNext s.text x ∧ (s.advance t x).Synced t x := by
  have hnone : (if t.combiningClass x > s.lastClass ∨
      t.combiningClass x = 0 then t.pairComposite s.starter x else none) = none := by
    split
    case isTrue hpass =>
      by_cases hd : t.Drops s.starter x
      · rcases t.drops_class hd hlaw with hzero | heq
        · exact absurd hzero hs
        · rw [heq] at hs hlow
          omega
      · rw [t.pairComposite_of_not_drops hd]
        cases hv : t.composer.composite s.starter x with
        | none => rfl
        | some value => exact absurd (hlaw.starter _ _ _ hv).1 hs
    case isFalse => rfl
  rw [Composing.advance_none hnone, Composer.composeNext_of_none (h.nonstarters hs hdone)]
  by_cases hx : t.combiningClass x = 0
  · rw [if_pos hx]
    exact ⟨rfl, .begin _ hx⟩
  · rw [if_neg hx]
    refine ⟨by simp [Composing.text], h.append hx ?_⟩
    exact Nat.le_trans hprev (horder.resolve_left hx)

theorem Composing.Synced.step (h : s.Synced t prev) (hlaw : t.composer.Lawful length)
    (horder : t.combiningClass x = 0 ∨ t.combiningClass prev ≤ t.combiningClass x) (hd : ¬ t.Diverges s.text x) :
    (s.advance t x).text = t.composer.composeNext s.text x ∧ (s.advance t x).Synced t x := by
  rcases h.start with ⟨hs, hnil⟩ | ⟨hs, hdone, hlow, hprev⟩
  · rw [t.diverges_iff h hs, not_or] at hd
    obtain ⟨hpr, hdrop⟩ := hd
    have hkept : ∀ b ∈ s.kept, t.composer.combiningClass b ≠ 0 := fun b hb => (h.kept b hb).1
    by_cases hpass : t.combiningClass x > s.lastClass ∨ t.combiningClass x = 0
    · have hnotDrop : ¬ t.Drops s.starter x := by
        intro hdr
        refine hdrop ⟨hdr, ?_⟩
        rcases hpass with hgt | hzero
        · exact .inr fun hb => absurd ((h.blocked_iff).mp hb).2 (Nat.not_le.mpr hgt)
        · exact .inl hzero
      cases hv : t.composer.composite s.starter x with
      | some value =>
          have hb : ¬ t.composer.Blocked s.kept x := by
            rw [h.blocked_iff]
            rintro ⟨hne, hle⟩
            rcases hpass with hgt | hzero
            · omega
            · exact hpr ⟨by simp [hv], hne, hzero⟩
          rw [Composing.advance_some hpass (by rw [t.pairComposite_of_not_drops hnotDrop, hv])]
          refine ⟨(Composer.composeNext_some hs hkept hb hv).symm, h.kept, ?_, .inl ⟨(hlaw.starter _ _ _ hv).2, hnil⟩⟩
          intro hne
          obtain ⟨hmax, hlast⟩ := h.last hne
          refine ⟨hmax, Nat.le_trans hlast (horder.resolve_left fun hzero => ?_)⟩
          exact hpr ⟨by simp [hv], hne, hzero⟩
      | none =>
          have hnone : t.composer.composeNext s.text x = s.text ++ [x] := Composer.composeNext_append hs hkept (.inr hv)
          have hskip := @Composing.advance_none t x s (by rw [if_pos hpass, t.pairComposite_of_not_drops hnotDrop, hv])
          rw [hskip, hnone]
          by_cases hx : t.combiningClass x = 0
          · rw [if_pos hx]
            exact ⟨rfl, .begin _ hx⟩
          · rw [if_neg hx]
            exact ⟨by simp [Composing.text], h.append hx (Nat.le_of_lt (hpass.resolve_right hx))⟩
    · obtain ⟨hle, hx⟩ := not_or.mp hpass
      have hne : s.kept ≠ [] := by
        intro hempty
        rw [hnil hempty] at hle
        omega
      have hb : t.composer.Blocked s.kept x := h.blocked_iff.mpr ⟨hne, Nat.not_lt.mp hle⟩
      have hnone : t.composer.composeNext s.text x = s.text ++ [x] := Composer.composeNext_append hs hkept (.inl hb)
      have hskip := @Composing.advance_none t x s (if_neg hpass)
      rw [hskip, hnone, if_neg hx]
      refine ⟨by simp [Composing.text], h.append hx ?_⟩
      exact Nat.le_trans (h.last hne).2 (horder.resolve_left hx)
  · exact h.step_nonstarter hlaw hs hdone hlow hprev horder

/-! ## 分かれた後 -/

theorem Composing.weight_advance (hlaw : t.composer.Lawful length) :
    Composer.weight length (s.advance t x).text ≤ Composer.weight length s.text + length x := by
  rcases s.advance_cases t x with ⟨value, hv, heq⟩ | heq | heq
  · rw [heq]
    by_cases hd : t.Drops s.starter x
    · rw [t.pairComposite_of_drops hd] at hv
      obtain rfl := Option.some.inj hv
      exact Nat.le_add_right _ _
    · rw [t.pairComposite_of_not_drops hd] at hv
      simp only [Composing.text, Composer.weight_append, Composer.weight_cons, hlaw.sum _ _ _ hv]
      omega
  · rw [heq]
    simp [Composing.text, Nat.add_assoc]
  · rw [heq]
    simp [Composing.text, Nat.add_assoc]

theorem Composing.weight_foldl (hlaw : t.composer.Lawful length) :
    Composer.weight length (rest.foldl (Composing.advance t) s).text ≤ Composer.weight length
      s.text + Composer.weight length rest := by
  induction rest generalizing s with
  | nil => simp
  | cons x rest ih =>
      have hstep : Composer.weight length (s.advance t x).text ≤ Composer.weight length s.text +
          length x := Composing.weight_advance hlaw
      have hrest := @ih (s.advance t x)
      rw [List.foldl_cons, Composer.weight_cons]
      omega

def Composing.Long (length : Nat → Nat) (m p : Nat) (s : Composing) : Prop :=
  p ≤ s.done.length ∧ ∃ z, s.text[p]? = some z ∧ m ≤ length z

theorem Composing.Long.advance {p : Nat} (h : s.Long length m p) (hlaw : t.composer.Lawful length) :
    (s.advance t x).Long length m p := by
  obtain ⟨hp, z, hz, hm⟩ := h
  rcases s.advance_cases t x with ⟨value, hv, heq⟩ | heq | heq
  · rw [heq]
    refine ⟨hp, ?_⟩
    rcases Nat.lt_or_eq_of_le hp with hlt | rfl
    · refine ⟨z, ?_, hm⟩
      rw [Composing.text, List.getElem?_append_left hlt] at hz ⊢
      exact hz
    · refine ⟨value, by simp [Composing.text], ?_⟩
      obtain rfl : s.starter = z := by simpa [Composing.text] using hz
      by_cases hd : t.Drops s.starter x
      · rw [t.pairComposite_of_drops hd] at hv
        obtain rfl := Option.some.inj hv
        exact hm
      · rw [t.pairComposite_of_not_drops hd] at hv
        rw [hlaw.sum _ _ _ hv]
        exact Nat.le_trans hm (Nat.le_add_right _ _)
  · rw [heq]
    have hlt := (List.getElem?_eq_some_iff.mp hz).1
    refine ⟨Nat.le_of_lt hlt, z, ?_, hm⟩
    rw [Composing.text, List.getElem?_append_left hlt]
    exact hz
  · rw [heq]
    refine ⟨hp, z, ?_, hm⟩
    have hlt := (List.getElem?_eq_some_iff.mp hz).1
    have htext : (Composing.mk s.done s.starter (s.kept ++ [x]) (t.combiningClass x)).text =
        s.text ++ [x] := by simp [Composing.text]
    rw [htext, List.getElem?_append_left hlt]
    exact hz

theorem Composing.Long.foldl {p : Nat} (h : s.Long length m p) (hlaw : t.composer.Lawful length) :
    (rest.foldl (Composing.advance t) s).Long length m p := by
  induction rest generalizing s with
  | nil => exact h
  | cons x rest ih => exact ih (h.advance hlaw)

theorem Composing.Synced.diverge (h : s.Synced t prev) (hlaw : t.composer.Lawful length)
    (hd : t.Diverges s.text x) : (rest.foldl (Composing.advance t) (s.advance t x)).text ≠
    rest.foldl t.composer.composeNext (t.composer.composeNext s.text x) := by
  have hs : t.combiningClass s.starter = 0 ∧ (s.kept = [] → s.lastClass = 0) := by
    rcases h.start with hs | ⟨hs, hdone, -, -⟩
    · exact hs
    · have hnone : t.composer.lastStarter s.text = none := Composer.lastStarter_eq_none (h.nonstarters hs hdone)
      rw [Tables.Diverges, hnone] at hd
      exact hd.elim
  obtain ⟨hs, hnil⟩ := hs
  have hkept : ∀ b ∈ s.kept, t.composer.combiningClass b ≠ 0 := fun b hb => (h.kept b hb).1
  intro heq
  by_cases hdrop : t.Drops s.starter x
  · -- 除かれた文字の分だけ、長さの和が減る。
    have hb : t.combiningClass x = 0 ∨ ¬ t.composer.Blocked s.kept x := by
      rcases (t.diverges_iff h hs).mp hd with ⟨-, -, hzero⟩ | ⟨-, hb⟩
      · exact .inl hzero
      · exact hb
    have hsame : s.advance t x = s := Composing.advance_some (h.passes hnil hb) (t.pairComposite_of_drops hdrop)
    have hle : Composer.weight length (rest.foldl (Composing.advance t) s).text ≤
        Composer.weight length s.text + Composer.weight length rest :=
      Composing.weight_foldl hlaw
    have hspec : Composer.weight length (rest.foldl t.composer.composeNext (t.composer.composeNext s.text x)) =
        Composer.weight length (t.composer.composeNext s.text x) + Composer.weight length rest := hlaw.weight_foldl
    rw [hlaw.weight_composeNext, ← heq, hsame] at hspec
    have := hlaw.pos x
    omega
  · -- 合成した文字の長さは、もう変わらない始めの文字の長さより長い。
    obtain ⟨hcomposite, hne, hx⟩ := ((t.diverges_iff h hs).mp hd).resolve_right fun hright => hdrop hright.1
    obtain ⟨value, hv⟩ := Option.ne_none_iff_exists'.mp hcomposite
    have hadvance : s.advance t x = { s with starter := value } :=
      Composing.advance_some (.inr hx) (by rw [t.pairComposite_of_not_drops hdrop, hv])
    have hlong : (s.advance t x).Long length (length value) s.done.length := by
      rw [hadvance]
      exact ⟨Nat.le_refl _, value, by simp [Composing.text], Nat.le_refl _⟩
    have hfinal : (rest.foldl (Composing.advance t) (s.advance t x)).Long length
        (length value) s.done.length := hlong.foldl hlaw
    obtain ⟨-, z, hz, hle⟩ := hfinal
    have hblocked : t.composer.Blocked s.kept x := h.blocked_iff.mpr ⟨hne, by omega⟩
    have hnext : t.composer.composeNext s.text x = s.text ++ x :: [] := Composer.composeNext_append hs hkept (.inl hblocked)
    have hprefix : ∃ y back, rest.foldl t.composer.composeNext (s.text ++ x :: []) = s.text ++
        y :: back ∧ t.composer.combiningClass y = 0 :=
      hlaw.foldl_prefix hx
    obtain ⟨y, back, hback, -⟩ := hprefix
    rw [heq, hnext, hback, Composing.text] at hz
    obtain rfl : s.starter = z := by simpa using hz
    have hsum := hlaw.sum _ _ _ hv
    have := hlaw.pos x
    omega

theorem Composing.Synced.run_iff (h : s.Synced t prev) (hlaw : t.composer.Lawful length)
    (horder : t.composer.CanonicallyOrdered (prev :: rest)) :
    (rest.foldl (Composing.advance t) s).text = rest.foldl t.composer.composeNext s.text ↔
    t.composer.NeverMeets t.Diverges s.text rest := by
  induction rest generalizing s prev with
  | nil => exact ⟨fun _ => trivial, fun _ => rfl⟩
  | cons x rest ih =>
      obtain ⟨hfirst, hrest⟩ := List.isChain_cons_cons.mp horder
      rw [List.foldl_cons, List.foldl_cons, Composer.NeverMeets]
      by_cases hd : t.Diverges s.text x
      · exact ⟨fun heq => absurd heq (h.diverge hlaw hd), fun hnever => absurd hd hnever.1⟩
      · obtain ⟨htext, hsynced⟩ := h.step hlaw hfirst hd
        rw [← htext, ih hsynced hrest]
        exact ⟨fun hnever => ⟨hd, hnever⟩, fun hnever => hnever.2⟩

theorem transduce_iff {text : List Nat} (hlaw : t.composer.Lawful length) (horder : t.composer.CanonicallyOrdered text) :
    transduce t [] text = t.composer.compose text ↔ t.composer.NeverMeets t.Diverges [] text := by
  cases text with
  | nil => exact ⟨fun _ => trivial, fun _ => rfl⟩
  | cons x rest =>
      have hsynced : Composing.Synced t ⟨[], x, [], t.combiningClass x⟩ x := by
        by_cases hx : t.combiningClass x = 0
        · exact .begin _ hx
        · exact ⟨by simp, by simp, .inr ⟨hx, rfl, Nat.le_refl _, Nat.le_refl _⟩⟩
      have hnot : ¬ t.Diverges [] x := fun hd => hd
      have hiff := hsynced.run_iff hlaw horder
      rw [Composer.NeverMeets]
      exact ⟨fun heq => ⟨hnot, hiff.mp heq⟩, fun hnever => hiff.mpr hnever.2⟩

/-! ## 空の表とハングル -/

section Hangul

variable {combiningClass : Nat → Nat} {starter c y : Nat} {text : List Nat}

def emptyTables (combiningClass : Nat → Nat) : Tables := ⟨combiningClass, fun _ => emptyRecord⟩

def IsJamo (c : Nat) : Prop := 0x1100 ≤ c ∧ c ≤ 0x11FF

def IsSyllable (c : Nat) : Prop := sBase ≤ c ∧ c < sBase + sCount

instance (c : Nat) : Decidable (IsJamo c) := inferInstanceAs (Decidable (0x1100 ≤ c ∧ c ≤ 0x11FF))

instance (c : Nat) : Decidable (IsSyllable c) := inferInstanceAs (Decidable (sBase ≤ c ∧ c < sBase + sCount))

def HangulStarters (combiningClass : Nat → Nat) : Prop := ∀ c, c = 0 ∨ IsJamo c ∨ IsSyllable c → combiningClass c = 0

def ZeroAhead (combiningClass : Nat → Nat) (text : List Nat) : Prop :=
  ∃ between after, text = between ++ 0 :: after ∧ ∀ c ∈ between, combiningClass c ≠ 0

def RepeatsZero (combiningClass : Nat → Nat) (text : List Nat) : Prop :=
  ∃ before after, text = before ++ 0 :: after ∧ ZeroAhead combiningClass after

/-- 始めの文字 U+0000 の後の、次の始めの文字までの U+0000 を除く。 -/
def withoutRepeats (combiningClass : Nat → Nat) : Nat → List Nat → List Nat
  | _, [] => []
  | starter, c :: rest =>
      if starter = 0 ∧ c = 0 then withoutRepeats combiningClass starter rest
      else c :: withoutRepeats combiningClass (if combiningClass c = 0 then c else starter) rest

theorem hangulDecompose_of_not_syllable (h : ¬ IsSyllable c) : hangulDecompose c = [c] := by
  rw [IsSyllable, not_and_or, Nat.not_le, Nat.not_lt] at h
  rw [hangulDecompose, if_pos h]

theorem hangulDecompose_of_syllable (h : IsSyllable c) :
    ∃ l v, IsLV l v ∧ IsSyllableLV (syllableLV l v) ∧
      ((hangulDecompose c = [l, v] ∧ c = syllableLV l v) ∨
        ∃ t, (tBase < t ∧ t < tBase + tCount) ∧ hangulDecompose c = [l, v, t] ∧ c = syllableLV l v + (t - tBase)) := by
  have hlv : IsLV (lBase + (c - sBase) / nCount) (vBase + (c - sBase) % nCount / tCount) := by
    simp only [IsSyllable, IsLV, sBase, sCount, lBase, lCount, nCount, vBase, vCount, tCount] at h ⊢
    omega
  have hvalue : syllableLV (lBase + (c - sBase) / nCount) (vBase + (c - sBase) % nCount / tCount) +
      (c - sBase) % tCount = c := by
    simp only [IsSyllable, syllableLV, sBase, sCount, lBase, lCount, nCount, vBase, vCount, tCount] at h ⊢
    omega
  have hsyllable : IsSyllableLV (syllableLV (lBase + (c - sBase) / nCount) (vBase + (c - sBase) % nCount / tCount)) := by
    simp only [IsSyllable, IsSyllableLV, syllableLV, sBase, sCount, lBase, lCount, nCount, vBase, vCount, tCount] at h ⊢
    omega
  have hnot : ¬ (c < sBase ∨ c ≥ sBase + sCount) := by
    rw [not_or, Nat.not_lt, Nat.not_le]
    exact h
  have hmod : (c - sBase) % tCount < tCount := Nat.mod_lt _ (by decide)
  refine ⟨_, _, hlv, hsyllable, ?_⟩
  rw [hangulDecompose, if_neg hnot]
  by_cases ht : (c - sBase) % tCount = 0
  · rw [ht, Nat.add_zero] at hvalue
    refine .inl ⟨?_, hvalue.symm⟩
    simp [ht]
  · have htail : tBase < tBase + (c - sBase) % tCount := Nat.lt_add_of_pos_right (Nat.pos_of_ne_zero ht)
    refine .inr ⟨_, ⟨htail, Nat.add_lt_add_left hmod _⟩, ?_, by rw [Nat.add_sub_cancel_left, hvalue]⟩
    simp [ht]

theorem pairComposite_emptyTables (hv : ¬ (vBase ≤ y ∧ y < vBase + vCount)) (ht : ¬ (tBase ≤ y ∧ y < tBase + tCount))
    (hzero : ¬ (starter = 0 ∧ y = 0)) : (emptyTables combiningClass).pairComposite starter y = none := by
  have hrecord : ¬ (emptyRecord.starter = starter ∧ emptyRecord.combiner = y) := fun h => hzero ⟨h.1.symm, h.2.symm⟩
  rw [Tables.pairComposite, if_neg fun h => hv h.2, if_neg fun h => ht h.2]
  exact if_neg hrecord

theorem compose_hangulDecompose (hclass : HangulStarters combiningClass) (hjamo : ¬ IsJamo c) (out : List Nat) :
    ∃ x rest, hangulDecompose c = x :: rest ∧ ¬ (vBase ≤ x ∧ x < vBase + vCount) ∧ ¬ (tBase ≤ x ∧ x < tBase + tCount) ∧
      ((x = c ∧ rest = []) ∨ (x ≠ 0 ∧ combiningClass x = 0 ∧ combiningClass c = 0)) ∧
      (rest.foldl (Composing.advance (emptyTables combiningClass)) ⟨out, x, [], combiningClass x⟩).text = out ++ [c] ∧
      (rest.foldl (Composing.advance (emptyTables combiningClass)) ⟨out, x, [], combiningClass x⟩).starter = c := by
  by_cases hc : IsSyllable c
  · obtain ⟨l, v, hlv, hsyllable, hcases⟩ := hangulDecompose_of_syllable hc
    have hrange := hlv
    simp only [IsLV, lBase, lCount, vBase, vCount] at hrange
    have hl : combiningClass l = 0 := hclass l (.inr (.inl ⟨by omega, by omega⟩))
    have hv : combiningClass v = 0 := hclass v (.inr (.inl ⟨by omega, by omega⟩))
    have hcomposed : (Composing.mk out l [] (combiningClass l)).advance (emptyTables combiningClass) v =
        ⟨out, syllableLV l v, [], combiningClass l⟩ := Composing.advance_some (.inr hv) (if_pos hlv)
    have hx : ¬ (vBase ≤ l ∧ l < vBase + vCount) ∧ ¬ (tBase ≤ l ∧ l < tBase + tCount) := by
      simp only [vBase, vCount, tBase, tCount]
      omega
    have hstarters : l ≠ 0 ∧ combiningClass l = 0 ∧ combiningClass c = 0 := ⟨by omega, hl, hclass c (.inr (.inr hc))⟩
    rcases hcases with ⟨hdecompose, heq⟩ | ⟨t, ht, hdecompose, heq⟩
    · refine ⟨l, [v], hdecompose, hx.1, hx.2, .inr hstarters, ?_⟩
      rw [List.foldl_cons, hcomposed, heq]
      exact ⟨rfl, rfl⟩
    · -- 終わりの子音は、母音までを合成した音節に加わる。
      have htrange := ht
      simp only [tBase, tCount] at htrange
      have htclass : combiningClass t = 0 := hclass t (.inr (.inl ⟨by omega, by omega⟩))
      have hnot : ¬ IsLV (syllableLV l v) t := by
        rintro ⟨⟨-, hlt⟩, -⟩
        have hle := hsyllable.1
        simp only [lBase, lCount, sBase] at hlt hle
        omega
      have hpair : (emptyTables combiningClass).pairComposite (syllableLV l v) t = some (syllableLV l v + (t - tBase)) := by
        rw [Tables.pairComposite, if_neg hnot, if_pos ⟨hsyllable, Nat.le_of_lt ht.1, ht.2⟩]
      have hfinal : (Composing.mk out (syllableLV l v) [] (combiningClass l)).advance (emptyTables combiningClass) t =
          ⟨out, syllableLV l v + (t - tBase), [], combiningClass l⟩ := Composing.advance_some (.inr htclass) hpair
      refine ⟨l, [v, t], hdecompose, hx.1, hx.2, .inr hstarters, ?_⟩
      rw [List.foldl_cons, List.foldl_cons, hcomposed, hfinal, heq]
      exact ⟨rfl, rfl⟩
  · have hx : ¬ (vBase ≤ c ∧ c < vBase + vCount) ∧ ¬ (tBase ≤ c ∧ c < tBase + tCount) := by
      simp only [IsJamo, vBase, vCount, tBase, tCount] at hjamo ⊢
      omega
    exact ⟨c, [], hangulDecompose_of_not_syllable hc, hx.1, hx.2, .inl ⟨rfl, rfl⟩, rfl, rfl⟩

theorem advance_hangulDecompose (hclass : HangulStarters combiningClass) (hjamo : ¬ IsJamo c)
    (hzero : ¬ (s.starter = 0 ∧ c = 0)) :
    ((hangulDecompose c).foldl (Composing.advance (emptyTables combiningClass)) s).text = s.text ++ [c] ∧
      ((hangulDecompose c).foldl (Composing.advance (emptyTables combiningClass)) s).starter =
      if combiningClass c = 0 then c else s.starter := by
  obtain ⟨x, rest, hdecompose, hv, ht, hx, htext, hstarter⟩ := compose_hangulDecompose hclass hjamo s.text
  have hnone : (emptyTables combiningClass).pairComposite s.starter x = none := by
    refine pairComposite_emptyTables hv ht ?_
    rcases hx with ⟨rfl, -⟩ | ⟨hne, -⟩
    · exact hzero
    · exact fun h => hne h.2
  have hadvance : s.advance (emptyTables combiningClass) x = if combiningClass x = 0 then ⟨s.text, x, [], combiningClass x⟩
      else { s with kept := s.kept ++ [x], lastClass := combiningClass x } :=
    Composing.advance_none (by rw [hnone, ite_self])
  rw [hdecompose, List.foldl_cons, hadvance]
  by_cases hxclass : combiningClass x = 0
  · have hcclass : combiningClass c = 0 := by
      rcases hx with ⟨rfl, -⟩ | ⟨-, -, hcclass⟩
      · exact hxclass
      · exact hcclass
    rw [if_pos hxclass, if_pos hcclass]
    exact ⟨htext, hstarter⟩
  · obtain ⟨rfl, rfl⟩ := hx.resolve_right fun h => hxclass h.2.1
    rw [if_neg hxclass, if_neg hxclass]
    exact ⟨by simp [Composing.text], rfl⟩

theorem foldl_hangulDecompose (hclass : HangulStarters combiningClass) (hjamo : ∀ c ∈ text, ¬ IsJamo c) :
    ((text.flatMap hangulDecompose).foldl (Composing.advance (emptyTables combiningClass)) s).text =
      s.text ++ withoutRepeats combiningClass s.starter text := by
  induction text generalizing s with
  | nil => exact (List.append_nil _).symm
  | cons c text ih =>
      obtain ⟨hc, htext⟩ := List.forall_mem_cons.mp hjamo
      rw [List.flatMap_cons, List.foldl_append, ih htext, withoutRepeats]
      by_cases hzero : s.starter = 0 ∧ c = 0
      · -- 空の場所の対は、始めの文字を変えずに次の文字を除く。
        obtain ⟨hstarter, rfl⟩ := hzero
        have hdrops : (emptyTables combiningClass).Drops s.starter 0 := .inr ⟨hstarter, rfl, rfl⟩
        have hsame : s.advance (emptyTables combiningClass) 0 = s :=
          Composing.advance_some (.inr (hclass 0 (.inl rfl))) (Tables.pairComposite_of_drops hdrops)
        rw [if_pos ⟨hstarter, rfl⟩, hangulDecompose_of_not_syllable (by decide), List.foldl_cons, hsame]
        rfl
      · obtain ⟨hwritten, hstarter⟩ := advance_hangulDecompose hclass hc hzero
        rw [if_neg hzero, hwritten, hstarter, List.append_assoc]
        rfl

theorem transduce_hangulDecompose (hclass : HangulStarters combiningClass) (hjamo : ∀ x ∈ c :: text, ¬ IsJamo x) :
    transduce (emptyTables combiningClass) [] ((c :: text).flatMap hangulDecompose) = c ::
      withoutRepeats combiningClass c text := by
  obtain ⟨hc, htext⟩ := List.forall_mem_cons.mp hjamo
  obtain ⟨x, rest, hdecompose, -, -, -, hwritten, hstarter⟩ := compose_hangulDecompose hclass hc []
  rw [List.flatMap_cons, hdecompose, List.cons_append, transduce, List.foldl_append, foldl_hangulDecompose hclass htext]
  show (rest.foldl (Composing.advance (emptyTables combiningClass)) ⟨[], x, [], combiningClass x⟩).text ++
    withoutRepeats combiningClass (rest.foldl (Composing.advance (emptyTables combiningClass))
    ⟨[], x, [], combiningClass x⟩).starter text = _
  rw [hwritten, hstarter]
  rfl

theorem length_withoutRepeats_le (starter : Nat) (text : List Nat) :
    (withoutRepeats combiningClass starter text).length ≤ text.length := by
  induction text generalizing starter with
  | nil => exact Nat.le_refl _
  | cons c text ih =>
      rw [withoutRepeats]
      by_cases hzero : starter = 0 ∧ c = 0
      · rw [if_pos hzero]
        exact Nat.le_succ_of_le (ih starter)
      · rw [if_neg hzero]
        exact Nat.succ_le_succ (ih _)

theorem zeroAhead_cons :
    ZeroAhead combiningClass (c :: text) ↔ c = 0 ∨ (combiningClass c ≠ 0 ∧ ZeroAhead combiningClass text) := by
  constructor
  · rintro ⟨between, after, heq, hbetween⟩
    cases between with
    | nil => exact .inl (List.cons.inj heq).1
    | cons b between =>
        obtain ⟨rfl, rfl⟩ := List.cons.inj heq
        obtain ⟨hb, hbetween⟩ := List.forall_mem_cons.mp hbetween
        exact .inr ⟨hb, between, after, rfl, hbetween⟩
  · rintro (rfl | ⟨hc, between, after, rfl, hbetween⟩)
    · exact ⟨[], text, rfl, fun _ hx => by cases hx⟩
    · exact ⟨c :: between, after, rfl, List.forall_mem_cons.mpr ⟨hc, hbetween⟩⟩

theorem repeatsZero_cons :
    RepeatsZero combiningClass (c :: text) ↔ (c = 0 ∧ ZeroAhead combiningClass text) ∨ RepeatsZero combiningClass text := by
  constructor
  · rintro ⟨before, after, heq, hahead⟩
    cases before with
    | nil =>
        obtain ⟨rfl, rfl⟩ := List.cons.inj heq
        exact .inl ⟨rfl, hahead⟩
    | cons b before =>
        obtain ⟨rfl, rfl⟩ := List.cons.inj heq
        exact .inr ⟨before, after, rfl, hahead⟩
  · rintro (⟨rfl, hahead⟩ | ⟨before, after, rfl, hahead⟩)
    · exact ⟨[], text, rfl, hahead⟩
    · exact ⟨c :: before, after, rfl, hahead⟩

theorem withoutRepeats_eq_iff (hzero : combiningClass 0 = 0) :
    withoutRepeats combiningClass starter text = text ↔
      ¬ ((starter = 0 ∧ ZeroAhead combiningClass text) ∨ RepeatsZero combiningClass text) := by
  induction text generalizing starter with
  | nil =>
      refine iff_of_true rfl ?_
      rintro (⟨-, between, after, heq, -⟩ | ⟨before, after, heq, -⟩)
      · exact List.append_ne_nil_of_right_ne_nil between (List.cons_ne_nil 0 after) heq.symm
      · exact List.append_ne_nil_of_right_ne_nil before (List.cons_ne_nil 0 after) heq.symm
  | cons c text ih =>
      rw [withoutRepeats, zeroAhead_cons, repeatsZero_cons]
      by_cases hdrop : starter = 0 ∧ c = 0
      · rw [if_pos hdrop]
        refine iff_of_false (fun heq => ?_) fun h => h (.inl ⟨hdrop.1, .inl hdrop.2⟩)
        have hle := @length_withoutRepeats_le combiningClass starter text
        rw [heq, List.length_cons] at hle
        omega
      · rw [if_neg hdrop, List.cons_inj_right, ih]
        by_cases hc : combiningClass c = 0
        · rw [if_pos hc]
          tauto
        · have hne : c ≠ 0 := fun heq => hc (heq ▸ hzero)
          rw [if_neg hc]
          tauto

end Hangul

end UnixCommons.String.UnicodeNormalizer
