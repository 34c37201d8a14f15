import UnixCommons.Lib.Regex
import Mathlib.Tactic.Tauto

/-!
# RFC 3986 の成分

URI の参照を、付録 B の正規表現で五つの成分に分け、5.3 節のように繋ぎ直す。文字は任意の型とし、四つの区切りは互いに異なる。
-/

namespace Lib.Uri

variable {α : Type}

structure Delims (α : Type) where
  colon : α
  slash : α
  question : α
  hash : α
  nodup : [colon, slash, question, hash].Nodup

structure Components (α : Type) where
  scheme : Option (List α)
  authority : Option (List α)
  path : List α
  query : Option (List α)
  fragment : Option (List α)

theorem Delims.colon_ne_question (D : Delims α) : D.colon ≠ D.question := by
  have := D.nodup
  simp only [List.nodup_cons, List.mem_cons, not_or] at this
  exact this.1.2.1

theorem Delims.colon_ne_hash (D : Delims α) : D.colon ≠ D.hash := by
  have := D.nodup
  simp only [List.nodup_cons, List.mem_cons, not_or] at this
  exact this.1.2.2.1

theorem Delims.slash_ne_question (D : Delims α) : D.slash ≠ D.question := by
  have := D.nodup
  simp only [List.nodup_cons, List.mem_cons, not_or] at this
  exact this.2.1.1

theorem Delims.slash_ne_hash (D : Delims α) : D.slash ≠ D.hash := by
  have := D.nodup
  simp only [List.nodup_cons, List.mem_cons, not_or] at this
  exact this.2.1.2.1

theorem Delims.question_ne_hash (D : Delims α) : D.question ≠ D.hash := by
  have := D.nodup
  simp only [List.nodup_cons, List.mem_cons, not_or] at this
  exact this.2.2.1.1

def StartsWith (p : α → Prop) (s : List α) : Prop := ∀ a rest, s = a :: rest → p a

theorem startsWith_dropWhile (p : α → Bool) (s : List α) : StartsWith (fun a => p a = false) (s.dropWhile p) := by
  intro a rest h
  induction s with
  | nil => simp at h
  | cons b s ih =>
      by_cases hb : p b = true
      · rw [List.dropWhile_cons_of_pos hb] at h
        exact ih h
      · rw [List.dropWhile_cons_of_neg hb] at h
        rw [← (List.cons.inj h).1]
        exact eq_false_of_ne_true hb

theorem StartsWith.append {p : α → Prop} {s t : List α} (hs : StartsWith p s)
    (ht : StartsWith p t) : StartsWith p (s ++ t) := by
  cases s with
  | nil => exact ht
  | cons a s => exact fun b rest h => hs b s (by rw [(List.cons.inj h).1])

theorem StartsWith.mono {p q : α → Prop} {s : List α} (hs : StartsWith p s) (h : ∀ a, p a → q a) : StartsWith q s :=
  fun a rest he => h a (hs a rest he)

theorem startsWith_fragment {D : Delims α} (x : Option (List α)) : StartsWith (· = D.hash) (x.elim [] (D.hash :: ·)) := by
  cases x with
  | none => exact fun a rest h => by cases h
  | some x => exact fun a rest h => (List.cons.inj h).1.symm

theorem startsWith_query {D : Delims α} (x : Option (List α)) {rest : List α} (hrest : StartsWith (· = D.hash) rest) :
    StartsWith (fun a => a = D.question ∨ a = D.hash) (x.elim [] (D.question :: ·) ++ rest) := by
  cases x with
  | none => exact fun a t h => .inr (hrest a t h)
  | some y => exact fun a t h => .inl (List.cons.inj h).1.symm

theorem splitWhile_append {p : α → Bool} {pre rest : List α} (hpre : ∀ a ∈ pre, p a = true)
    (hrest : StartsWith (fun a => p a = false) rest) :
    (pre ++ rest).takeWhile p = pre ∧ (pre ++ rest).dropWhile p = rest := by
  rw [List.takeWhile_append_of_pos hpre, List.dropWhile_append_of_pos hpre]
  cases rest with
  | nil => simp
  | cons c rest =>
      have hc : ¬ p c = true := by simp [hrest c rest rfl]
      rw [List.takeWhile_cons_of_neg hc, List.dropWhile_cons_of_neg hc, List.append_nil]
      exact ⟨rfl, rfl⟩

section
variable {β : Type} {p : α → Bool} {a c : α} {i : Nat} {s rest : List α} {g : Groups α} {k : List α → Groups α → Option β}

theorem run_one_of_pos (h : p a = true) : (Regex.one p).run (a :: s) g k = k s g := by
  rw [Regex.run, if_pos h]

theorem run_one_of_neg (h : StartsWith (fun a => p a = false) s) : (Regex.one p).run s g k = none := by
  cases s with
  | nil => rfl
  | cons a s =>
      have ha : p a = false := h a s rfl
      rw [Regex.run, if_neg (by rw [ha]; decide)]

/-- 文字 `c` と、その後の繰り返しを読んだときの括弧。 -/
def tag (i : Nat) (p : α → Bool) (c : α) (rest : List α) (g : Groups α) : Groups α :=
  Function.update (Function.update g (i + 1) (some (rest.takeWhile p))) i
    (some ((c :: rest).take ((c :: rest).length - (rest.dropWhile p).length)))

theorem tag_succ : tag i p c rest g (i + 1) = some (rest.takeWhile p) := by
  rw [tag, Function.update_of_ne (by omega), Function.update_self]

theorem tag_of_ne {j : Nat} (h : j ≠ i) (h' : j ≠ i + 1) : tag i p c rest g j = g j := by
  rw [tag, Function.update_of_ne h, Function.update_of_ne h']

end

variable [DecidableEq α]

def isChar (c a : α) : Bool := a = c

namespace Delims

variable (D : Delims α)

def inScheme (a : α) : Bool := a ≠ D.colon ∧ a ≠ D.slash ∧ a ≠ D.question ∧ a ≠ D.hash

def inAuthority (a : α) : Bool := a ≠ D.slash ∧ a ≠ D.question ∧ a ≠ D.hash

def inPath (a : α) : Bool := a ≠ D.question ∧ a ≠ D.hash

def inQuery (a : α) : Bool := a ≠ D.hash

/-! ## 付録 B の正規表現 -/

def schemeRegex : Regex α := .opt (.group 1 (.seq (.group 2 (.some D.inScheme)) (.one (isChar D.colon))))

def authorityRegex : Regex α :=
  .opt (.group 3 (.seq (.one (isChar D.slash)) (.seq (.one (isChar D.slash)) (.group 4 (.many D.inAuthority)))))

def pathRegex : Regex α := .group 5 (.many D.inPath)

def queryRegex : Regex α := .opt (.group 6 (.seq (.one (isChar D.question)) (.group 7 (.many D.inQuery))))

def fragmentRegex : Regex α := .opt (.group 8 (.seq (.one (isChar D.hash)) (.group 9 (.many fun _ => true))))

/-- `^(([^:/?#]+):)?(//([^/?#]*))?([^?#]*)([?]([^#]*))?(#(.*))?$` -/
def regex : Regex α := .all [D.schemeRegex, D.authorityRegex, D.pathRegex, D.queryRegex] D.fragmentRegex

/-! ## 成分 -/

def schemeOf (s : List α) : Option (List α) × List α :=
  match s.dropWhile D.inScheme with
  | [] => (none, s)
  | a :: rest => if a = D.colon ∧ s.takeWhile D.inScheme ≠ [] then (some (s.takeWhile D.inScheme), rest) else (none, s)

def authorityOf : List α → Option (List α) × List α
  | a :: b :: rest =>
      if a = D.slash ∧ b = D.slash then (some (rest.takeWhile D.inAuthority),
        rest.dropWhile D.inAuthority) else (none, a :: b :: rest)
  | s => (none, s)

def queryOf : List α → Option (List α) × List α
  | [] => (none, [])
  | a :: rest => if a = D.question then (some (rest.takeWhile D.inQuery), rest.dropWhile D.inQuery) else (none, a :: rest)

def fragmentOf : List α → Option (List α)
  | [] => none
  | a :: rest => if a = D.hash then some rest else none

def splitPath (scheme authority : Option (List α)) (s : List α) : Components α :=
  let rest := s.dropWhile D.inPath
  ⟨scheme, authority, s.takeWhile D.inPath, (D.queryOf rest).1, D.fragmentOf (D.queryOf rest).2⟩

def split (s : List α) : Components α :=
  let afterScheme := D.schemeOf s
  let afterAuthority := D.authorityOf afterScheme.2
  D.splitPath afterScheme.1 afterAuthority.1 afterAuthority.2

def recompose (c : Components α) : List α :=
  c.scheme.elim [] (· ++ [D.colon]) ++ (c.authority.elim [] (D.slash :: D.slash :: ·) ++
    (c.path ++ (c.query.elim [] (D.question :: ·) ++ c.fragment.elim [] (D.hash :: ·))))

end Delims

/-! ## 正規表現との一致 -/

variable {D : Delims α} {s rest : List α} {g : Groups α}

def finish (s : List α) (g : Groups α) : Option (Groups α) := if s.isEmpty then some g else none

section
variable {β : Type} {p : α → Bool} {c : α} {i : Nat} {k : List α → Groups α → Option β}

theorem run_tagged (hk : (k (rest.dropWhile p) (tag i p c rest g)).isSome) :
    (Regex.opt (.group i (.seq (.one (isChar c)) (.group (i + 1) (.many p))))).run (c :: rest) g k =
      k (rest.dropWhile p) (tag i p c rest g) := by
  have hrun : (Regex.group i (.seq (.one (isChar c)) (.group (i + 1) (.many p)))).run
      (c :: rest) g k = k (rest.dropWhile p) (tag i p c rest g) := by
    rw [Regex.run, Regex.run, run_one_of_pos (by simp [isChar]), Regex.run, run_many_greedy, take_sub_dropWhile]
    · rfl
    · rw [take_sub_dropWhile]
      exact hk
  rw [run_opt_some (by rw [hrun]; exact hk), hrun]

theorem run_tagged_none {r : Regex α} (hs : StartsWith (· ≠ c) s) :
    (Regex.opt (.group i (.seq (.one (isChar c)) r))).run s g k = k s g := by
  apply run_opt_none
  rw [Regex.run, Regex.run]
  apply run_one_of_neg
  intro a rest h
  simp [isChar, hs a rest h]

end

theorem fragment_run (hs : StartsWith (· = D.hash) s) (g : Groups α) (h9 : g 9 = none) :
    ∃ g', D.fragmentRegex.run s g finish = some g' ∧ g' 9 = D.fragmentOf s ∧ ∀ i < 8, g' i = g i := by
  cases s with
  | nil => exact ⟨g, rfl, h9, fun _ _ => rfl⟩
  | cons a rest =>
      obtain rfl : a = D.hash := hs a rest rfl
      have hdrop : rest.dropWhile (fun _ => true) = [] := by
        rw [List.dropWhile_eq_nil_iff]
        simp
      have hrun : D.fragmentRegex.run (D.hash :: rest) g finish = some (tag 8 (fun _ => true) D.hash rest g) := by
        rw [Delims.fragmentRegex, run_tagged] <;> rw [hdrop] <;> rfl
      refine ⟨_, hrun, ?_, fun i hi => tag_of_ne (by omega) (by omega)⟩
      rw [tag_succ, Delims.fragmentOf, if_pos rfl]
      simp

theorem inQuery_eq_false {a : α} : D.inQuery a = false ↔ a = D.hash := by
  simp [Delims.inQuery]

theorem inPath_eq_false {a : α} : D.inPath a = false ↔ a = D.question ∨ a = D.hash := by
  simp only [Delims.inPath, decide_eq_false_iff_not]
  tauto

theorem inAuthority_eq_false {a : α} : D.inAuthority a = false ↔ a = D.slash ∨ a = D.question ∨ a = D.hash := by
  simp only [Delims.inAuthority, decide_eq_false_iff_not]
  tauto

theorem inScheme_eq_false {a : α} : D.inScheme a = false ↔ a = D.colon ∨ a = D.slash ∨ a = D.question ∨ a = D.hash := by
  simp only [Delims.inScheme, decide_eq_false_iff_not]
  tauto

theorem query_run (hs : StartsWith (fun a => a = D.question ∨ a = D.hash) s) (g : Groups α)
    (h7 : g 7 = none) (h9 : g 9 = none) :
    ∃ g', (Regex.seq D.queryRegex D.fragmentRegex).run s g finish = some g' ∧
      g' 7 = (D.queryOf s).1 ∧ g' 9 = D.fragmentOf (D.queryOf s).2 ∧ ∀ i < 6, g' i = g i := by
  by_cases hq : ∃ rest, s = D.question :: rest
  · obtain ⟨rest, rfl⟩ := hq
    have hhash : StartsWith (· = D.hash) (rest.dropWhile D.inQuery) := fun a t h =>
      inQuery_eq_false.mp (startsWith_dropWhile D.inQuery rest a t h)
    have hof : D.queryOf (D.question :: rest) = (some (rest.takeWhile D.inQuery), rest.dropWhile D.inQuery) := by
      simp [Delims.queryOf]
    obtain ⟨g', hrun, hf, hi⟩ := fragment_run hhash (tag 6 D.inQuery D.question rest g)
      ((tag_of_ne (by omega) (by omega)).trans h9)
    refine ⟨g', ?_, ?_, ?_, ?_⟩
    · rw [Regex.run, Delims.queryRegex, run_tagged (by rw [hrun]; rfl), hrun]
    · rw [hof, hi 7 (by omega), tag_succ]
    · rw [hof, hf]
    · intro i hlt
      rw [hi i (by omega), tag_of_ne (by omega) (by omega)]
  · have hne : StartsWith (· ≠ D.question) s := by
      rintro a rest rfl rfl
      exact hq ⟨rest, rfl⟩
    have hof : D.queryOf s = (none, s) := by
      cases s with
      | nil => rfl
      | cons a rest => rw [Delims.queryOf, if_neg (hne a rest rfl)]
    have hhash : StartsWith (· = D.hash) s := fun a rest h => (hs a rest h).resolve_left (hne a rest h)
    obtain ⟨g', hrun, hf, hi⟩ := fragment_run hhash g h9
    refine ⟨g', ?_, ?_, ?_, fun i hlt => hi i (by omega)⟩
    · rw [Regex.run, Delims.queryRegex, run_tagged_none hne, hrun]
    · rw [hof, hi 7 (by omega), h7]
    · rw [hof, hf]

theorem path_run (s : List α) (g : Groups α) (h7 : g 7 = none) (h9 : g 9 = none) :
    ∃ g', (Regex.seq D.pathRegex (.seq D.queryRegex D.fragmentRegex)).run s g finish = some g' ∧
      g' 5 = some (s.takeWhile D.inPath) ∧
      g' 7 = (D.queryOf (s.dropWhile D.inPath)).1 ∧
      g' 9 = D.fragmentOf (D.queryOf (s.dropWhile D.inPath)).2 ∧ ∀ i < 5, g' i = g i := by
  have hs : StartsWith (fun a => a = D.question ∨ a = D.hash) (s.dropWhile D.inPath) := fun a t h =>
    inPath_eq_false.mp (startsWith_dropWhile D.inPath s a t h)
  obtain ⟨g', hrun, hq, hf, hi⟩ := query_run hs (Function.update g 5 (some (s.takeWhile D.inPath)))
    ((Function.update_of_ne (by omega) _ _).trans h7) ((Function.update_of_ne (by omega) _ _).trans h9)
  refine ⟨g', ?_, ?_, hq, hf, ?_⟩
  · rw [Regex.run, Delims.pathRegex, Regex.run, run_many_greedy] <;> rw [take_sub_dropWhile, hrun]
    rfl
  · rw [hi 5 (by omega), Function.update_self]
  · intro i hlt
    rw [hi i (by omega), Function.update_of_ne (by omega)]

theorem authority_run (s : List α) (g : Groups α) (h4 : g 4 = none) (h7 : g 7 = none) (h9 : g 9 = none) :
    ∃ g', (Regex.seq D.authorityRegex (.seq D.pathRegex (.seq D.queryRegex D.fragmentRegex))).run s g finish = some g' ∧
      g' 4 = (D.authorityOf s).1 ∧ g' 5 = some ((D.authorityOf s).2.takeWhile D.inPath) ∧
      g' 7 = (D.queryOf ((D.authorityOf s).2.dropWhile D.inPath)).1 ∧
      g' 9 = D.fragmentOf (D.queryOf ((D.authorityOf s).2.dropWhile D.inPath)).2 ∧ ∀ i < 3, g' i = g i := by
  by_cases ha : ∃ rest, s = D.slash :: D.slash :: rest
  · obtain ⟨rest, rfl⟩ := ha
    have hof : D.authorityOf (D.slash :: D.slash :: rest) = (some (rest.takeWhile D.inAuthority),
        rest.dropWhile D.inAuthority) := by
      simp [Delims.authorityOf]
    obtain ⟨g', hrun, hp, hq, hf, hi⟩ := path_run (D := D) (rest.dropWhile D.inAuthority)
      (Function.update (Function.update g 4 (some (rest.takeWhile D.inAuthority))) 3
        (some ((D.slash :: D.slash :: rest).take
        ((D.slash :: D.slash :: rest).length - (rest.dropWhile D.inAuthority).length))))
      (by rw [Function.update_of_ne (by omega), Function.update_of_ne (by omega), h7])
      (by rw [Function.update_of_ne (by omega), Function.update_of_ne (by omega), h9])
    have hopt : (Regex.group 3 (.seq (.one (isChar D.slash))
        (.seq (.one (isChar D.slash)) (.group 4 (.many D.inAuthority))))).run
        (D.slash :: D.slash :: rest) g (fun s' g' =>
        (Regex.seq D.pathRegex (.seq D.queryRegex D.fragmentRegex)).run s' g' finish) =
        some g' := by
      rw [Regex.run, Regex.run, run_one_of_pos (by simp [isChar]), Regex.run, run_one_of_pos (by simp [isChar]), Regex.run,
        run_many_greedy] <;> rw [take_sub_dropWhile, hrun]
      rfl
    refine ⟨g', ?_, ?_, ?_, ?_, ?_, ?_⟩
    · rw [Regex.run, Delims.authorityRegex, run_opt_some (by rw [hopt]; rfl), hopt]
    · rw [hi 4 (by omega), Function.update_of_ne (by omega), Function.update_self, hof]
    · rw [hp, hof]
    · rw [hq, hof]
    · rw [hf, hof]
    · intro i hlt
      rw [hi i (by omega), Function.update_of_ne (by omega), Function.update_of_ne (by omega)]
  · have hof : D.authorityOf s = (none, s) := by
      cases s with
      | nil => rfl
      | cons a t =>
          cases t with
          | nil => rfl
          | cons b rest =>
              rw [Delims.authorityOf, if_neg]
              rintro ⟨rfl, rfl⟩
              exact ha ⟨rest, rfl⟩
    obtain ⟨g', hrun, hp, hq, hf, hi⟩ := path_run (D := D) s g h7 h9
    refine ⟨g', ?_, ?_, ?_, ?_, ?_, fun i hlt => hi i (by omega)⟩
    · rw [Regex.run, Delims.authorityRegex, run_opt_none, hrun]
      rw [Regex.run, Regex.run]
      cases s with
      | nil => rfl
      | cons a t =>
          cases t with
          | nil =>
              rw [Regex.run]
              split <;> rfl
          | cons b rest =>
              rw [Regex.run, Regex.run]
              split
              next h₁ =>
                  rw [Regex.run, if_neg]
                  intro h₂
                  simp only [isChar, decide_eq_true_eq] at h₁ h₂
                  exact ha ⟨rest, by rw [h₁, h₂]⟩
              next => rfl
    · rw [hi 4 (by omega), h4, hof]
    · rw [hp, hof]
    · rw [hq, hof]
    · rw [hf, hof]

theorem schemeOf_of_colon {pre : List α} (hpre : ∀ a ∈ pre, D.inScheme a = true) (hne : pre ≠ [])
    (rest : List α) : D.schemeOf (pre ++ D.colon :: rest) = (some pre, rest) := by
  have hcolon : StartsWith (fun a => D.inScheme a = false) (D.colon :: rest) := by
    rintro a t h
    obtain ⟨rfl, rfl⟩ := List.cons.inj h
    exact inScheme_eq_false.mpr (.inl rfl)
  obtain ⟨htake, hdrop⟩ := splitWhile_append hpre hcolon
  unfold Delims.schemeOf
  rw [hdrop]
  dsimp only
  rw [htake, if_pos ⟨rfl, hne⟩]

theorem schemeOf_of_none (h : ∀ pre rest, s = pre ++ D.colon :: rest →
    (∀ a ∈ pre, D.inScheme a = true) → pre = []) : D.schemeOf s = (none, s) := by
  unfold Delims.schemeOf
  split
  · rfl
  next a rest hdrop =>
      rw [if_neg]
      rintro ⟨rfl, hne⟩
      refine hne (h (s.takeWhile D.inScheme) rest ?_ ?_)
      · rw [← hdrop, List.takeWhile_append_dropWhile]
      · exact fun a ha => List.mem_takeWhile_imp ha

theorem regex_eq (D : Delims α) :
    D.regex = .seq D.schemeRegex (.seq D.authorityRegex (.seq D.pathRegex (.seq D.queryRegex D.fragmentRegex))) := rfl

theorem regex_groups (D : Delims α) (s : List α) :
    ∃ g, D.regex.fullMatch s = some g ∧ g 2 = (D.split s).scheme ∧ g 4 = (D.split s).authority ∧
      g 5 = some (D.split s).path ∧ g 7 = (D.split s).query ∧ g 9 = (D.split s).fragment := by
  by_cases hs : ∃ pre rest, s = pre ++ D.colon :: rest ∧ (∀ a ∈ pre, D.inScheme a = true) ∧ pre ≠ []
  · obtain ⟨pre, rest, rfl, hpre, hne⟩ := hs
    have hcolon : StartsWith (fun a => D.inScheme a = false) (D.colon :: rest) := by
      rintro a t h
      obtain ⟨rfl, rfl⟩ := List.cons.inj h
      exact inScheme_eq_false.mpr (.inl rfl)
    obtain ⟨htake, hdrop⟩ := splitWhile_append hpre hcolon
    have hof := schemeOf_of_colon hpre hne rest
    have hgroup : (pre ++ D.colon :: rest).take ((pre ++ D.colon :: rest).length - (D.colon :: rest).length) = pre := by
      rw [List.length_append, Nat.add_sub_cancel, List.take_left]
    obtain ⟨g', hrun, ha, hp, hq, hf, hi⟩ := authority_run (D := D) rest
      (Function.update (Function.update (fun _ => none) 2 (some pre)) 1
        (some ((pre ++ D.colon :: rest).take ((pre ++ D.colon :: rest).length - rest.length)))) rfl rfl rfl
    obtain ⟨a, pre', rfl⟩ := List.exists_cons_of_ne_nil hne
    have hopt : (Regex.group 1 (.seq (.group 2 (.some D.inScheme)) (.one (isChar D.colon)))).run
        (a :: pre' ++ D.colon :: rest)
        (fun _ => none)
        (fun s' g' => (Regex.seq D.authorityRegex
        (.seq D.pathRegex (.seq D.queryRegex D.fragmentRegex))).run s' g' finish) = some g' := by
      have hdrop' : (pre' ++ D.colon :: rest).dropWhile D.inScheme = D.colon :: rest :=
        (splitWhile_append (fun b hb => hpre b (List.mem_cons_of_mem _ hb)) hcolon).2
      rw [Regex.run, Regex.run, Regex.run, Regex.some, Regex.run, List.cons_append,
        run_one_of_pos (hpre a List.mem_cons_self),
        run_many_greedy] <;> rw [hdrop', run_one_of_pos (by simp [isChar])] <;> rw [← List.cons_append, hgroup, hrun]
      rfl
    refine ⟨g', ?_, ?_, ?_, ?_, ?_, ?_⟩
    · show D.regex.run _ _ finish = _
      rw [regex_eq, Regex.run, Delims.schemeRegex, run_opt_some (by rw [hopt]; rfl), hopt]
    · rw [hi 2 (by omega), Function.update_of_ne (by omega), Function.update_self]
      simp only [Delims.split, hof, Delims.splitPath]
    all_goals simp only [Delims.split, hof, Delims.splitPath, ha, hp, hq, hf]
  · have hnone : ∀ pre rest, s = pre ++ D.colon :: rest → (∀ a ∈ pre, D.inScheme a = true) → pre = [] := by
      intro pre rest he hpre
      by_contra hne
      exact hs ⟨pre, rest, he, hpre, hne⟩
    have hof := schemeOf_of_none hnone
    obtain ⟨g', hrun, ha, hp, hq, hf, hi⟩ := authority_run (D := D) s (fun _ => none) rfl rfl rfl
    refine ⟨g', ?_, ?_, ?_, ?_, ?_, ?_⟩
    · show D.regex.run _ _ finish = _
      rw [regex_eq, Regex.run, Delims.schemeRegex, run_opt_none]
      · exact hrun
      · rw [Regex.run, Regex.run, Regex.run, Regex.some, Regex.run]
        cases s with
        | nil => rfl
        | cons a s =>
            rw [Regex.run]
            split
            next h₁ =>
                apply runMany_none
                intro pre post he hpre
                apply run_one_of_neg
                rintro b t rfl
                simp only [isChar, decide_eq_false_iff_not]
                rintro rfl
                have := hnone (a :: pre) t (by rw [he, List.cons_append]) (by
                  intro x hx
                  rcases List.mem_cons.mp hx with rfl | hx
                  · exact h₁
                  · exact hpre x hx)
                cases this
            next => rfl
    · rw [hi 2 (by omega)]
      simp only [Delims.split, hof, Delims.splitPath]
    all_goals simp only [Delims.split, hof, Delims.splitPath, ha, hp, hq, hf]

/-! ## 繋ぎ直し -/

theorem schemeOf_append (D : Delims α) (s : List α) : (D.schemeOf s).1.elim [] (· ++ [D.colon]) ++ (D.schemeOf s).2 = s := by
  by_cases hs : ∃ pre rest, s = pre ++ D.colon :: rest ∧ (∀ a ∈ pre, D.inScheme a = true) ∧ pre ≠ []
  · obtain ⟨pre, rest, rfl, hpre, hne⟩ := hs
    rw [schemeOf_of_colon hpre hne]
    simp
  · rw [schemeOf_of_none]
    · rfl
    · intro pre rest he hpre
      by_contra hne
      exact hs ⟨pre, rest, he, hpre, hne⟩

theorem authorityOf_append (D : Delims α) (s : List α) :
    (D.authorityOf s).1.elim [] (D.slash :: D.slash :: ·) ++ (D.authorityOf s).2 = s := by
  match s with
  | [] => rfl
  | [_] => rfl
  | a :: b :: rest =>
      rw [Delims.authorityOf]
      split
      next h =>
          rw [h.1, h.2]
          simp
      next => rfl

theorem authorityOf_mem (D : Delims α) (s : List α) : ∀ x ∈ (D.authorityOf s).1, ∀ b ∈ x, D.inAuthority b = true := by
  match s with
  | [] => intro x hx; cases hx
  | [_] => intro x hx; cases hx
  | a :: b :: rest =>
      rw [Delims.authorityOf]
      split
      next =>
          intro x hx c hc
          obtain rfl := Option.some.inj hx
          exact List.mem_takeWhile_imp hc
      next =>
          intro x hx
          cases hx

theorem queryOf_append (D : Delims α) (s : List α) : (D.queryOf s).1.elim [] (D.question :: ·) ++ (D.queryOf s).2 = s := by
  cases s with
  | nil => rfl
  | cons a rest =>
      rw [Delims.queryOf]
      split
      next h =>
          rw [h]
          simp
      next => rfl

theorem fragmentOf_append (hs : StartsWith (· = D.hash) s) : (D.fragmentOf s).elim [] (D.hash :: ·) = s := by
  cases s with
  | nil => rfl
  | cons a rest =>
      obtain rfl : a = D.hash := hs a rest rfl
      simp [Delims.fragmentOf]

theorem queryOf_startsWith (hs : StartsWith (fun a => a = D.question ∨ a = D.hash) s) :
    StartsWith (· = D.hash) (D.queryOf s).2 := by
  cases s with
  | nil => exact fun a rest h => by cases h
  | cons b rest =>
      rw [Delims.queryOf]
      split
      next => exact fun a t h => inQuery_eq_false.mp (startsWith_dropWhile D.inQuery rest a t h)
      next hb => exact fun a t h => (hs a t h).resolve_left fun ha => hb ((List.cons.inj h).1.trans ha)

theorem recompose_splitPath (D : Delims α) (scheme : Option (List α)) (s : List α) :
    D.recompose (D.splitPath scheme (D.authorityOf s).1 (D.authorityOf s).2) = scheme.elim [] (· ++ [D.colon]) ++ s := by
  have hq : StartsWith (fun a => a = D.question ∨ a = D.hash) ((D.authorityOf s).2.dropWhile D.inPath) := fun a t h =>
    inPath_eq_false.mp (startsWith_dropWhile D.inPath _ a t h)
  simp only [Delims.recompose, Delims.splitPath]
  rw [fragmentOf_append (queryOf_startsWith hq), queryOf_append, List.takeWhile_append_dropWhile, authorityOf_append]

theorem recompose_split (D : Delims α) (s : List α) : D.recompose (D.split s) = s := by
  rw [Delims.split, recompose_splitPath, schemeOf_append]

structure Unambiguous (D : Delims α) (c : Components α) : Prop where
  scheme : ∀ x ∈ c.scheme, x ≠ [] ∧ ∀ a ∈ x, D.inScheme a = true
  authority : ∀ x ∈ c.authority, ∀ a ∈ x, D.inAuthority a = true
  path : ∀ a ∈ c.path, D.inPath a = true
  query : ∀ x ∈ c.query, ∀ a ∈ x, D.inQuery a = true
  rooted : c.authority ≠ none → StartsWith (· = D.slash) c.path
  single : c.authority = none → ∀ rest, c.path ≠ D.slash :: D.slash :: rest
  segment : c.scheme = none → c.authority = none → ∀ pre rest, c.path = pre ++ D.colon :: rest →
    (∀ a ∈ pre, D.inScheme a = true) → pre = []

theorem fragmentOf_elim (x : Option (List α)) : D.fragmentOf (x.elim [] (D.hash :: ·)) = x := by
  cases x with
  | none => rfl
  | some x => simp [Delims.fragmentOf]

theorem queryOf_elim {x : Option (List α)} {rest : List α}
    (hx : ∀ y ∈ x, ∀ a ∈ y, D.inQuery a = true) (hrest : StartsWith (· = D.hash) rest) :
    D.queryOf (x.elim [] (D.question :: ·) ++ rest) = (x, rest) := by
  cases x with
  | none =>
      cases rest with
      | nil => rfl
      | cons a rest =>
          obtain rfl : a = D.hash := hrest a rest rfl
          show D.queryOf (D.hash :: rest) = _
          rw [Delims.queryOf, if_neg D.question_ne_hash.symm]
  | some y =>
      obtain ⟨htake, hdrop⟩ := splitWhile_append (hx y rfl) fun a t h => inQuery_eq_false.mpr (hrest a t h)
      show D.queryOf (D.question :: (y ++ rest)) = _
      rw [Delims.queryOf, if_pos rfl, htake, hdrop]

theorem authorityOf_elim {x : Option (List α)} {rest : List α} (hx : ∀ y ∈ x, ∀ a ∈ y, D.inAuthority a = true)
    (hrest : x ≠ none → StartsWith (fun a => D.inAuthority a = false) rest)
    (hnone : x = none → ∀ t, rest ≠ D.slash :: D.slash :: t) :
    D.authorityOf (x.elim [] (D.slash :: D.slash :: ·) ++ rest) = (x, rest) := by
  cases x with
  | none =>
      match rest, hnone rfl with
      | [], _ => rfl
      | [_], _ => rfl
      | a :: b :: t, hne =>
          show D.authorityOf (a :: b :: t) = _
          rw [Delims.authorityOf, if_neg]
          rintro ⟨rfl, rfl⟩
          exact hne t rfl
  | some y =>
      obtain ⟨htake, hdrop⟩ := splitWhile_append (hx y rfl) (hrest (by simp))
      show D.authorityOf (D.slash :: D.slash :: (y ++ rest)) = _
      rw [Delims.authorityOf, if_pos ⟨rfl, rfl⟩, htake, hdrop]

theorem split_recompose {c : Components α} (h : Unambiguous D c) : D.split (D.recompose c) = c := by
  obtain ⟨scheme, authority, path, query, fragment⟩ := c
  have hf : StartsWith (· = D.hash) (fragment.elim [] (D.hash :: ·)) := startsWith_fragment fragment
  have hq := startsWith_query query hf
  have hpath := splitWhile_append h.path (hq.mono fun a ha => inPath_eq_false.mpr ha)
  have hauth : D.authorityOf (authority.elim [] (D.slash :: D.slash :: ·) ++
      (path ++ (query.elim [] (D.question :: ·) ++ fragment.elim [] (D.hash :: ·)))) =
      (authority, path ++ (query.elim [] (D.question :: ·) ++ fragment.elim [] (D.hash :: ·))) := by
    apply authorityOf_elim h.authority
    · intro hne
      refine StartsWith.append ((h.rooted hne).mono fun a ha => inAuthority_eq_false.mpr (.inl ha))
        (hq.mono fun a ha => inAuthority_eq_false.mpr (.inr ha))
    · intro hnone t he
      -- 経路の初めの二文字が `/` でなければ、後の部分の初めが `/` でなければならない。
      match path, h.single hnone with
      | [], _ =>
          rcases hq _ _ he with h₁ | h₁
          · exact D.slash_ne_question h₁
          · exact D.slash_ne_hash h₁
      | [a], _ =>
          rcases hq _ _ (List.cons.inj he).2 with h₁ | h₁
          · exact D.slash_ne_question h₁
          · exact D.slash_ne_hash h₁
      | a :: b :: p, hne =>
          obtain ⟨rfl, ht⟩ := List.cons.inj he
          obtain ⟨rfl, -⟩ := List.cons.inj ht
          exact hne p rfl
  have hscheme : D.schemeOf (D.recompose ⟨scheme, authority, path, query, fragment⟩) =
      (scheme, authority.elim [] (D.slash :: D.slash :: ·) ++
      (path ++ (query.elim [] (D.question :: ·) ++ fragment.elim [] (D.hash :: ·)))) := by
    cases scheme with
    | some x =>
        obtain ⟨hne, hin⟩ := h.scheme x rfl
        simp only [Delims.recompose, Option.elim_some, List.append_assoc, List.singleton_append]
        exact schemeOf_of_colon hin hne _
    | none =>
        apply schemeOf_of_none
        intro pre rest he hpre
        cases authority with
        | some x =>
            -- `//` で始まるので、方式の文字は先頭にない。
            by_contra hne
            obtain ⟨a, pre, rfl⟩ := List.exists_cons_of_ne_nil hne
            have ha := hpre a List.mem_cons_self
            rw [← (List.cons.inj he).1, inScheme_eq_false.mpr (.inr (.inl rfl))] at ha
            cases ha
        | none =>
            have he' : path ++ (query.elim [] (D.question :: ·) ++ fragment.elim [] (D.hash :: ·)) =
                pre ++ D.colon :: rest := he
            rcases List.append_eq_append_iff.mp he' with ⟨t, rfl, ht⟩ | ⟨t, hp, ht⟩
            · -- 経路が先に終われば、次は `?` か `#` である。
              cases t with
              | nil =>
                  rcases hq _ _ ht with h₁ | h₁
                  · exact absurd h₁ D.colon_ne_question
                  · exact absurd h₁ D.colon_ne_hash
              | cons a t =>
                  have ha := hpre a (by simp)
                  rw [inScheme_eq_false.mpr (.inr (.inr (hq _ _ ht)))] at ha
                  cases ha
            · cases t with
              | nil =>
                  rcases hq _ _ ht.symm with h₁ | h₁
                  · exact absurd h₁ D.colon_ne_question
                  · exact absurd h₁ D.colon_ne_hash
              | cons a t =>
                  obtain ⟨rfl, -⟩ := List.cons.inj ht
                  exact h.segment rfl rfl pre t hp hpre
  simp only [Delims.split, hscheme, hauth, Delims.splitPath, hpath.1, hpath.2, queryOf_elim h.query hf, fragmentOf_elim]

end Lib.Uri
