import UnixCommons.Language.NormalizeTrigger
import UnixCommons.Lib.Spec

/-!
# トリガーの読み取りの補題

文法に従って書かれたトリガーを `divide` が読むと、部分の並びになる。
-/

namespace UnixCommons.Language.NormalizeTrigger

open Lib

variable {s : Simplifier} {p : Piece} {ps qs : List Piece} {T rest text : Bytes} {d d' : Division} {fuel : Nat} {c : UInt8}

/-! ## 文字を探す -/

@[simp] theorem isBlank_iff : isBlank c = true ↔ c = space ∨ c = tab := by simp [isBlank]

theorem next_eq (cur : Bytes) : next cur = cur.dropWhile isBlank := rfl

theorem next_blanks (h : ∀ c ∈ text, isBlank c = true) (rest : Bytes) : next (text ++ rest) = next rest := by
  rw [next_eq, next_eq, List.dropWhile_append_of_pos h]

theorem next_of_head (h : ∀ c ∈ rest.head?, isBlank c = false) : next rest = rest := by
  cases rest with
  | nil => rfl
  | cons c rest =>
      have hc : isBlank c = false := h c rfl
      rw [next_eq, List.dropWhile_cons_of_neg (by simp [hc])]

theorem findQuote_append (h : ∀ c ∈ text, c ≠ quote ∧ c ≠ left ∧ c ≠ right) (rest : Bytes) :
    findQuote (text ++ quote :: rest) = some (text, quote :: rest) := by
  induction text with
  | nil => simp [findQuote]
  | cons c text ih =>
      obtain ⟨hc, htext⟩ := List.forall_mem_cons.mp h
      rw [List.cons_append, findQuote, if_neg hc.1, if_neg (by tauto), ih htext]
      rfl

theorem findSpaceOrQuote_append (h : ∀ c ∈ text, c ≠ quote ∧ c ≠ left ∧ c ≠ right ∧ c ≠ space ∧
    c ≠ tab) (hrest : Delimited rest)
    (exact : Bool) : findSpaceOrQuote exact (text ++ rest) = some (text, rest) := by
  induction text with
  | nil =>
      cases rest with
      | nil => rfl
      | cons c rest =>
          have hc := hrest c rfl
          rw [isBlank_iff] at hc
          rw [List.nil_append, findSpaceOrQuote, if_pos (or_assoc.mp hc)]
  | cons c text ih =>
      obtain ⟨hc, htext⟩ := List.forall_mem_cons.mp h
      rw [List.cons_append, findSpaceOrQuote, if_neg (by tauto), if_neg (by tauto), if_neg (by tauto), ih htext]
      rfl

/-! ## 部分を加える -/

def Division.pushAll (d : Division) (extra : Nat) (parts : List Part) : Division :=
  parts.foldl (fun d p => d.push p.1 p.2 extra) d

theorem simplify_cases (s : Simplifier) (trigger : Bytes) (str : Bytes) :
    (∃ t, simplify s trigger "trigger" str = .ok t ∧ simplify s [] "trigger" str = .ok t) ∨
      (∃ e e', simplify s trigger "trigger" str = .error e ∧ simplify s [] "trigger" str = .error e') := by
  unfold simplify simplifyCommon
  cases s.caseChange str with
  | none => exact .inr ⟨_, _, rfl, rfl⟩
  | some res =>
      cases s.putSpaces with
      | none => exact .inl (by by_cases hres : res = [] <;> simp [hres, pure, Except.pure])
      | some putSpaces =>
          exact .inl (by by_cases hres : res = [] <;> by_cases hp : putSpaces res = [] <;>
            simp [hres, hp, pure, Except.pure])

theorem addPart_piece (s : Simplifier) (trigger : Bytes) (p : Piece) (d : Division) :
    (∃ l, p.part s = some l ∧ addPart s trigger p.text p.quoted false d = .ok (d.pushAll 3 l)) ∨
      (p.part s = none ∧ ∃ e, addPart s trigger p.text p.quoted false d = .error e) := by
  by_cases htext : p.text = []
  · exact .inl ⟨[], if_pos htext, by rw [addPart, if_pos htext]; rfl⟩
  · rw [addPart, Piece.part, if_neg htext, if_neg htext]
    rcases simplify_cases s trigger p.text with ⟨t, ht, ht'⟩ | ⟨e, e', he, he'⟩
    · rw [ht, ht', ok_bind]
      cases t with
      | nil => exact .inl ⟨[], rfl, rfl⟩
      | cons c t => exact .inl ⟨[(c :: t, p.quoted)], rfl, rfl⟩
    · rw [he, he']
      exact .inr ⟨rfl, e, rfl⟩

def addParts (s : Simplifier) (trigger : Bytes) (d : Division) (ps : List Piece) : Except Exception Division :=
  ps.foldlM (fun d p => addPart s trigger p.text p.quoted false d) d

theorem addParts_cons (s : Simplifier) (trigger : Bytes) (d : Division) (p : Piece) (ps : List Piece) :
    addParts s trigger d (p :: ps) = (addPart s trigger p.text p.quoted false d >>= fun d => addParts s trigger d ps) := rfl

theorem addParts_ok (h : Simplifies s ps) (trigger : Bytes) (d : Division) :
    addParts s trigger d ps = .ok (d.pushAll 3 (partsOf s ps)) := by
  induction ps generalizing d with
  | nil => rfl
  | cons p ps ih =>
      obtain ⟨hp, hps⟩ := List.forall_mem_cons.mp h
      rcases addPart_piece s trigger p d with ⟨l, hl, heq⟩ | ⟨hnone, -⟩
      · rw [addParts_cons, heq, ok_bind, ih hps]
        simp [partsOf, hl, Division.pushAll]
      · exact absurd hnone hp

theorem addParts_error (h : ¬ Simplifies s ps) (trigger : Bytes) (d : Division) :
    ∃ e, addParts s trigger d ps = .error e := by
  induction ps generalizing d with
  | nil => exact absurd (fun p hp => nomatch hp) h
  | cons p ps ih =>
      rw [addParts_cons]
      rcases addPart_piece s trigger p d with ⟨l, hl, heq⟩ | ⟨-, e, heq⟩
      · have hps : ¬ Simplifies s ps := fun hps => h (List.forall_mem_cons.mpr ⟨by simp [hl], hps⟩)
        rw [heq, ok_bind]
        exact ih hps _
      · exact ⟨e, by rw [heq]; rfl⟩

/-! ## `divide` のループ -/

theorem Piece.print_head (p : Piece) (rest : Bytes) : ∀ c ∈ (p.print ++ rest).head?, isBlank c = false ∧ c ≠ left := by
  intro c hc
  rw [Piece.print] at hc
  split_ifs at hc with hq
  · obtain rfl : quote = c := by simpa using hc
    exact ⟨rfl, by decide⟩
  · have hq : p.quoted = false := by simpa using hq
    have hvalid := p.valid
    cases htext : p.text with
    | nil => exact absurd htext (p.nonempty hq)
    | cons c' text =>
        rw [htext] at hc hvalid
        obtain rfl : c' = c := by simpa using hc
        obtain ⟨-, hleft, -, hblank⟩ := hvalid c' List.mem_cons_self
        exact ⟨by simpa [isBlank] using hblank hq, hleft⟩

def readRest (s : Simplifier) (trigger : Bytes) (fuel : Nat) (rest : Bytes) (d : Division) : Except Exception Division :=
  match next rest with
  | [] => .ok d
  | cur => divideLoop s trigger false fuel cur d

theorem divideLoop_piece (hd : p.quoted = false → Delimited rest) (trigger : Bytes) (d : Division)
    (fuel : Nat) : divideLoop s trigger false (fuel + 1) (p.print ++ rest) d =
      (addPart s trigger p.text p.quoted false d >>= fun d => readRest s trigger fuel rest d) := by
  cases hq : p.quoted with
  | true =>
      have hprint : p.print ++ rest = quote :: (p.text ++ quote :: rest) := by simp [Piece.print, hq]
      have hfind := findQuote_append (fun c hc => ⟨(p.valid c hc).1, (p.valid c hc).2.1, (p.valid c hc).2.2.1⟩) rest
      rw [hprint, divideLoop]
      simp [hfind, readRest]
      rfl
  | false =>
      have hvalid : ∀ c ∈ p.text, c ≠ quote ∧ c ≠ left ∧ c ≠ right ∧ c ≠ space ∧ c ≠ tab := by
        intro c hc
        have := p.valid c hc
        tauto
      have hfind := findSpaceOrQuote_append hvalid (hd hq) false
      have hprint : p.print ++ rest = p.text ++ rest := by simp [Piece.print, hq]
      cases htext : p.text with
      | nil => exact absurd htext (p.nonempty hq)
      | cons c text =>
          rw [htext] at hfind hvalid
          have hc : c ≠ quote := (hvalid c List.mem_cons_self).1
          rw [hprint, htext, List.cons_append, divideLoop]
          rw [List.cons_append] at hfind
          simp [hfind, hc, readRest]
          rfl

theorem next_length_le (cur : Bytes) : (next cur).length ≤ cur.length := (List.dropWhile_suffix _).length_le

theorem next_of_blanks (h : ∀ c ∈ text, isBlank c = true) : next text = [] := by
  have hnext := next_blanks h []
  rwa [List.append_nil] at hnext

theorem next_piece {blanks : Bytes} (h : ∀ c ∈ blanks, isBlank c = true) (p : Piece)
    (rest : Bytes) : next (blanks ++ p.print ++ rest) = p.print ++ rest := by
  rw [List.append_assoc, next_blanks h, next_of_head fun c hc => (p.print_head rest c hc).1]

theorem Piece.print_ne_nil (p : Piece) : p.print ≠ [] := by
  rw [Piece.print]
  split_ifs with hq
  · simp
  · exact p.nonempty (by simpa using hq)

theorem readRest_spells (h : Spells ps T) (trigger : Bytes) (d : Division)
    (hfuel : (next T).length ≤ fuel) : readRest s trigger fuel T d = addParts s trigger d ps := by
  induction h generalizing d fuel with
  | nil hblanks =>
      rw [readRest, next_of_blanks hblanks]
      rfl
  | @cons p ps blanks rest hblanks hd _ ih =>
      rw [next_piece hblanks] at hfuel
      have hprint := List.length_pos_of_ne_nil p.print_ne_nil
      rw [List.length_append] at hfuel
      cases fuel with
      | zero => omega
      | succ fuel =>
          have hrest : (next rest).length ≤ fuel := Nat.le_trans (next_length_le rest) (by omega)
          rw [readRest, next_piece hblanks, addParts_cons]
          have hpiece := @divideLoop_piece s p rest hd trigger d fuel
          cases hlist : p.print ++ rest with
          | nil => simp [p.print_ne_nil] at hlist
          | cons c cur =>
              rw [hlist] at hpiece
              exact hpiece.trans (congrArg _ (funext fun d => ih d hrest))

theorem Spells.next_ne_left (h : Spells ps T) : ∀ c ∈ (next T).head?, c ≠ left := by
  cases h with
  | nil hblanks => simp [next_of_blanks hblanks]
  | @cons p ps blanks rest hblanks _ _ =>
      rw [next_piece hblanks]
      exact fun c hc => (p.print_head rest c hc).2

theorem divide_spells (h : Spells ps T) (hlen : T.length ≤ 1024) :
    divide s T = (addParts s T ⟨[], 0, 0⟩ ps >>= fun d => .ok (⟨false, d.parts⟩, d)) := by
  have hread := fun fuel => @readRest_spells s ps T fuel h T ⟨[], 0, 0⟩
  have hleft := h.next_ne_left
  rw [divide, if_neg (by omega)]
  unfold readRest at hread
  cases hnext : next T with
  | nil =>
      rw [hnext] at hread
      rw [← hread 0 le_rfl]
      rfl
  | cons c cur =>
      rw [hnext] at hread hleft
      rw [← hread _ le_rfl]
      have hc : c ≠ left := hleft c rfl
      simp [hc]
      rfl

/-! ## 読み取ったトリガーの文法 -/

theorem of_findQuote {cur : Bytes} (h : findQuote cur = some (text, rest)) :
    cur = text ++ rest ∧ (∀ c ∈ text, c ≠ quote ∧ c ≠ left ∧ c ≠ right) ∧ ∀ c ∈ rest.head?, c = quote := by
  induction cur generalizing text with
  | nil =>
      obtain ⟨rfl, rfl⟩ := Prod.mk.inj (Option.some.inj h)
      exact ⟨rfl, fun c hc => (nomatch hc), fun c hc => nomatch hc⟩
  | cons c cur ih =>
      rw [findQuote] at h
      split_ifs at h with hquote hbracket
      · obtain ⟨rfl, rfl⟩ := Prod.mk.inj (Option.some.inj h)
        exact ⟨rfl, fun c hc => (nomatch hc), fun c' hc => by obtain rfl := Option.some.inj hc; exact hquote⟩
      · obtain ⟨⟨text', rest'⟩, hfind, heq⟩ := Option.map_eq_some_iff.mp h
        obtain ⟨rfl, rfl⟩ := Prod.mk.inj heq
        obtain ⟨rfl, hvalid, hrest⟩ := ih hfind
        exact ⟨rfl, List.forall_mem_cons.mpr ⟨by tauto, hvalid⟩, hrest⟩

theorem of_findSpaceOrQuote {cur : Bytes} (h : findSpaceOrQuote false cur = some (text, rest)) :
    cur = text ++ rest ∧ (∀ c ∈ text, c ≠ quote ∧ c ≠ left ∧ c ≠ right ∧ c ≠ space ∧ c ≠ tab) ∧ Delimited rest := by
  induction cur generalizing text with
  | nil =>
      obtain ⟨rfl, rfl⟩ := Prod.mk.inj (Option.some.inj h)
      exact ⟨rfl, fun c hc => (nomatch hc), fun c hc => nomatch hc⟩
  | cons c cur ih =>
      rw [findSpaceOrQuote] at h
      split_ifs at h with hstop hleft hright hexact
      · obtain ⟨rfl, rfl⟩ := Prod.mk.inj (Option.some.inj h)
        refine ⟨rfl, fun c hc => (nomatch hc), fun c' hc => ?_⟩
        obtain rfl := Option.some.inj hc
        rw [isBlank_iff]
        tauto
      · cases hexact
      · obtain ⟨⟨text', rest'⟩, hfind, heq⟩ := Option.map_eq_some_iff.mp h
        obtain ⟨rfl, rfl⟩ := Prod.mk.inj heq
        obtain ⟨rfl, hvalid, hrest⟩ := ih hfind
        exact ⟨rfl, List.forall_mem_cons.mpr ⟨by tauto, hvalid⟩, hrest⟩

theorem exists_piece {cur : Bytes} (hc : isBlank c = false) (h : divideLoop s T false (fuel + 1) (c :: cur) d = .ok d') :
    ∃ (p : Piece) (rest : Bytes), c :: cur = p.print ++ rest ∧ (p.quoted = false → Delimited rest) := by
  rw [divideLoop] at h
  by_cases hquote : c = quote
  · simp only [hquote, Bool.false_eq_true, false_and, if_false, decide_true, Bool.not_false, Bool.and_self, if_true] at h
    rcases hfind : findQuote cur with _ | ⟨text, _ | ⟨c', rest⟩⟩
    · rw [hfind] at h
      cases h
    · rw [hfind] at h
      cases h
    · obtain ⟨rfl, hvalid, hhead⟩ := of_findQuote hfind
      obtain rfl : c' = quote := hhead c' rfl
      have hvalid' : ∀ c ∈ text, c ≠ quote ∧ c ≠ left ∧ c ≠ right ∧ (true = false → c ≠ space ∧ c ≠ tab) := by
        intro c hc
        have := hvalid c hc
        tauto
      refine ⟨⟨true, text, hvalid', fun h => nomatch h⟩, rest, ?_, fun h => nomatch h⟩
      rw [hquote, Piece.print, if_pos rfl, List.append_assoc]
      rfl
  · simp only [hquote, Bool.false_eq_true, false_and, if_false, decide_false, Bool.not_false, Bool.and_false] at h
    rcases hfind : findSpaceOrQuote false (c :: cur) with _ | ⟨text, rest⟩
    · rw [hfind] at h
      cases h
    · obtain ⟨heq, hvalid, hrest⟩ := of_findSpaceOrQuote hfind
      have hvalid' : ∀ c ∈ text, c ≠ quote ∧ c ≠ left ∧ c ≠ right ∧ (false = false → c ≠ space ∧ c ≠ tab) := by
        intro c hc
        have := hvalid c hc
        tauto
      -- 始めの文字は空白でも引用符でもないので、部分は空でない。
      have hne : text ≠ [] := by
        rintro rfl
        have hhead := hrest c (by rw [← List.nil_append rest, ← heq]; rfl)
        rw [hc] at hhead
        exact hquote (hhead.resolve_left (by simp))
      exact ⟨⟨false, text, hvalid', fun _ => hne⟩, rest, heq, fun _ => hrest⟩

theorem next_head (cur : Bytes) : ∀ c ∈ (next cur).head?, isBlank c = false := by
  intro c hc
  have hne : cur.dropWhile isBlank ≠ [] := by
    intro hnil
    rw [next_eq, hnil] at hc
    cases hc
  have hfalse := List.head_dropWhile_not isBlank hne
  rw [next_eq, List.head?_eq_some_head hne] at hc
  rwa [Option.some.inj hc] at hfalse

theorem Spells.blank (h : Spells ps T) : Spells ps (space :: T) := by
  cases h with
  | nil hblanks => exact .nil (List.forall_mem_cons.mpr ⟨rfl, hblanks⟩)
  | @cons p ps blanks rest hblanks hd hrest =>
      exact @Spells.cons p ps (space :: blanks) rest (List.forall_mem_cons.mpr ⟨rfl, hblanks⟩) hd hrest

theorem Spells.of_next (h : Spells ps (next T)) : Spells ps T := by
  have hsplit : T.takeWhile isBlank ++ next T = T := List.takeWhile_append_dropWhile
  have hblank : ∀ c ∈ T.takeWhile isBlank, isBlank c = true := fun c hc => List.all_eq_true.mp (List.all_takeWhile) c hc
  generalize next T = R at h hsplit
  rw [← hsplit]
  cases h with
  | nil hblanks =>
      refine .nil fun c hc => ?_
      rcases List.mem_append.mp hc with hc | hc
      · exact hblank c hc
      · exact hblanks c hc
  | @cons p ps blanks rest hblanks hd hrest =>
      rw [← List.append_assoc, ← List.append_assoc]
      refine .cons (fun c hc => ?_) hd hrest
      rcases List.mem_append.mp hc with hc | hc
      · exact hblank c hc
      · exact hblanks c hc

theorem spells_of_divideLoop {cur : Bytes} (hfuel : cur.length ≤ fuel) (hhead : ∀ c ∈ cur.head?, isBlank c = false)
    (h : divideLoop s T false fuel cur d = .ok d') : ∃ ps, Spells ps cur := by
  induction fuel generalizing cur d with
  | zero =>
      rw [List.length_eq_zero_iff.mp (Nat.le_zero.mp hfuel)]
      exact ⟨[], .nil fun c hc => nomatch hc⟩
  | succ fuel ih =>
      cases cur with
      | nil => exact ⟨[], .nil fun c hc => nomatch hc⟩
      | cons c cur =>
          obtain ⟨p, rest, heq, hd⟩ := exists_piece (hhead c rfl) h
          have hlen := congrArg List.length heq
          have hprint := List.length_pos_of_ne_nil p.print_ne_nil
          rw [List.length_append] at hlen
          rw [heq] at h ⊢
          rw [divideLoop_piece hd] at h
          have hrest : ∃ ps, Spells ps (next rest) := by
            obtain ⟨d₁, hadd, h⟩ := bind_eq_ok.mp h
            rw [readRest] at h
            cases hnext : next rest with
            | nil => exact ⟨[], .nil fun c hc => nomatch hc⟩
            | cons c' cur' =>
                rw [hnext] at h
                have hle := next_length_le rest
                rw [hnext] at hle
                exact ih (by omega) (fun c hc => next_head rest c (by rwa [hnext])) h
          obtain ⟨ps, hps⟩ := hrest
          exact ⟨p :: ps, @Spells.cons p ps [] rest (fun c hc => nomatch hc) hd hps.of_next⟩

theorem divide_cases {split : Split} (h : divide s T = .ok (split, d)) :
    T.length ≤ 1024 ∧ ((next T = [] ∧ split = ⟨false, []⟩ ∧ d = ⟨[], 0, 0⟩) ∨
      (∃ c cur, next T = c :: cur ∧ c ≠ left ∧ divideLoop s T false (c :: cur).length (c :: cur) ⟨[], 0, 0⟩ = .ok d ∧
        split = ⟨false, d.parts⟩) ∨
      ∃ cur, cur.length ≤ T.length ∧ divideLoop s T true cur.length cur ⟨[], 0, 1⟩ = .ok d ∧ split = ⟨true, d.parts⟩) := by
  rw [divide] at h
  split_ifs at h with hlen
  · cases h
  refine ⟨by omega, ?_⟩
  cases hnext : next T with
  | nil =>
      rw [hnext] at h
      obtain ⟨rfl, rfl⟩ := Prod.mk.inj (Except.ok.inj h)
      exact .inl ⟨rfl, rfl, rfl⟩
  | cons c cur =>
      rw [hnext] at h
      by_cases hleft : c = left
      · simp only [hleft, if_true] at h
        rcases hcur : next cur with _ | ⟨c', cur'⟩
        · rw [hcur] at h
          cases h
        · rw [hcur] at h
          change (divideLoop s T true (c' :: cur').length (c' :: cur') ⟨[], 0, 1⟩ >>= fun d =>
            pure (⟨true, d.parts⟩, d)) = .ok (split, d) at h
          obtain ⟨d', hloop, h⟩ := bind_eq_ok.mp h
          obtain ⟨rfl, rfl⟩ := Prod.mk.inj (Except.ok.inj h)
          have hle := next_length_le cur
          have hle' := next_length_le T
          rw [hcur] at hle
          rw [hnext, List.length_cons] at hle'
          exact .inr (.inr ⟨_, by omega, hloop, rfl⟩)
      · simp only [hleft, if_false] at h
        obtain ⟨d', hloop, h⟩ := bind_eq_ok.mp h
        obtain ⟨rfl, rfl⟩ := Prod.mk.inj (Except.ok.inj h)
        exact .inr (.inl ⟨c, cur, rfl, hleft, hloop, rfl⟩)

theorem exists_spells {split : Split} (h : divide s T = .ok (split, d))
    (hexact : split.exact = false) : ∃ ps, Spells ps T := by
  obtain ⟨-, ⟨hnext, -, -⟩ | ⟨c, cur, hnext, -, hloop, -⟩ | ⟨cur, -, -, rfl⟩⟩ := divide_cases h
  · have hnil : Spells [] (next T) := by
      rw [hnext]
      exact .nil fun c hc => nomatch hc
    exact ⟨[], hnil.of_next⟩
  · have hhead := next_head T
    rw [hnext] at hhead
    obtain ⟨ps, hps⟩ := spells_of_divideLoop le_rfl hhead hloop
    rw [← hnext] at hps
    exact ⟨ps, hps.of_next⟩
  · cases hexact

/-! ## 正規化 -/

theorem Division.pushAll_parts (d : Division) (extra : Nat) (l : List Part) : (d.pushAll extra l).parts = d.parts ++ l := by
  induction l generalizing d with
  | nil => exact (List.append_nil d.parts).symm
  | cons p l ih =>
      rw [Division.pushAll, List.foldl_cons, ← Division.pushAll, ih, Division.push, List.append_assoc]
      rfl

theorem Division.pushAll_count (d : Division) (extra : Nat) (l : List Part) :
    (d.pushAll extra l).count = d.count + UInt32.ofNat l.length := by
  induction l generalizing d with
  | nil => simp [Division.pushAll]
  | cons p l ih =>
      have hpush : (d.push p.1 p.2 extra).count = d.count + 1 := rfl
      rw [Division.pushAll, List.foldl_cons, ← Division.pushAll, ih, hpush, List.length_cons,
        UInt32.add_assoc, Nat.add_comm l.length, UInt32.ofNat_add]
      rfl

theorem length_partsOf_le (s : Simplifier) (ps : List Piece) : (partsOf s ps).length ≤ ps.length := by
  induction ps with
  | nil => exact Nat.zero_le 0
  | cons p ps ih =>
      have hp : ((p.part s).getD []).length ≤ 1 := by
        rw [Piece.part]
        split_ifs
        · exact Nat.zero_le 1
        · rcases simplify s [] "trigger" p.text with e | (_ | ⟨c, t⟩) <;> simp
      rw [partsOf, List.flatMap_cons, List.length_append, ← partsOf, List.length_cons]
      omega

theorem Spells.length_le (h : Spells ps T) : ps.length ≤ T.length := by
  induction h with
  | nil => exact Nat.zero_le _
  | @cons p ps blanks rest _ _ _ ih =>
      have hprint := List.length_pos_of_ne_nil p.print_ne_nil
      rw [List.length_append, List.length_append, List.length_cons]
      omega

theorem normalizeTrigger_spells (h : Spells ps T) (hlen : T.length ≤ 1024) (hs : Simplifies s ps) :
    normalizeTrigger s T = .ok (combineTrigger ⟨false, narrow (partsOf s ps)⟩) := by
  have hcount : (UInt32.ofNat (partsOf s ps).length = 0) ↔ partsOf s ps = [] := by
    have hle := length_partsOf_le s ps
    have hle' := h.length_le
    rw [← UInt32.toNat_inj, UInt32.toNat_ofNat', Nat.mod_eq_of_lt (by omega)]
    simp
  rw [normalizeTrigger, divide_spells h hlen, addParts_ok hs, ok_bind, ok_bind]
  simp only [Division.pushAll_parts, Division.pushAll_count, List.nil_append, UInt32.zero_add, hcount]
  by_cases hnil : partsOf s ps = []
  · rw [if_pos hnil, hnil]
    rfl
  · rw [if_neg hnil]
    rfl

theorem normalizeTrigger_error (h : Spells ps T) (hlen : T.length ≤ 1024) (hs : ¬ Simplifies s ps) :
    ∃ e, normalizeTrigger s T = .error e := by
  obtain ⟨e, he⟩ := addParts_error hs T ⟨[], 0, 0⟩
  refine ⟨e, ?_⟩
  rw [normalizeTrigger, divide_spells h hlen, he]
  rfl

theorem normalize_eq (s : Simplifier) (T : Bytes) : normalize s T = (normalizeTrigger s T).map Trigger.trigger := by
  rw [normalize, normalizeTrigger]
  cases divide s T with
  | error e => rfl
  | ok r =>
      rw [ok_bind, ok_bind]
      by_cases hcount : r.2.count = 0
      · simp [hcount]
        rfl
      · simp [hcount]
        rfl

end UnixCommons.Language.NormalizeTrigger
