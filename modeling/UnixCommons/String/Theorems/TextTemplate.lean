import UnixCommons.String.TextTemplate

/-!
# 文字列の雛形の定理

雛形を分けることは、どの開く語も閉じる語を持つ時に成功し、鍵だけが値に変わる。
-/

namespace UnixCommons.String.TextTemplate

open Lib

section

variable {startLexeme endLexeme lexeme str text opened key rest tail before after : Bytes}
    {segments : List (Bytes × Bytes)} {items : List Item}
  {pos fuel : Nat} {callback : ArgsCallback}

/-! ## 最初の現れ -/

theorem First.unique {before' after' : Bytes} (h : First lexeme str before after)
    (h' : First lexeme str before' after') : before = before' ∧ after = after' := by
  have hlen : before.length = before'.length := Nat.le_antisymm (h.2 before' after' h'.1) (h'.2 before after h.1)
  have heq := h.1.symm.trans h'.1
  rw [List.append_assoc, List.append_assoc] at heq
  obtain ⟨rfl, hrest⟩ := List.append_inj heq hlen
  exact ⟨rfl, List.append_cancel_left hrest⟩

theorem First.length (h : First lexeme str before after) : str.length = before.length + lexeme.length + after.length := by
  rw [h.1, List.length_append, List.length_append]

theorem First.infix (h : First lexeme str before after) : lexeme <:+: str := ⟨before, after, h.1.symm⟩

theorem occursAt_iff {x : Nat} (hx : x ≤ str.length) : SubString.occursAt str lexeme x = true ↔ lexeme <+: str.drop x := by
  rw [SubString.occursAt, decide_eq_true_eq, List.prefix_iff_eq_take]
  constructor
  · exact fun h => h.2.symm
  · intro h
    have hlen := congrArg List.length h
    rw [List.length_take, List.length_drop] at hlen
    exact ⟨by omega, h.symm⟩

theorem find_first (hne : lexeme ≠ []) (hsize : str.length < 2 ^ 63) (hpos : pos ≤ str.length) :
    (∃ before after, First lexeme (str.drop pos) before after ∧ SubString.find str lexeme pos = .ok (pos + before.length)) ∨
      (¬ lexeme <:+: str.drop pos ∧ SubString.find str lexeme pos = .ok SubString.npos) := by
  have hfind : SubString.find str lexeme pos = .ok (SubString.stdValue .find str lexeme pos) :=
    (SubString.find_iff hsize (by omega)).mpr (by rw [SubString.FindAgrees, if_neg hne]; exact .inl hpos)
  rw [hfind, SubString.stdValue]
  -- 前の文字列の長さだけ進んだ位置が、語の現れる位置である。
  have hat : ∀ before after, str.drop pos = before ++ lexeme ++ after →
      pos + before.length ≤ str.length ∧ SubString.occursAt str lexeme (pos + before.length) = true := by
    intro before after heq
    have hlen := congrArg List.length heq
    rw [List.length_drop, List.length_append, List.length_append] at hlen
    refine ⟨by omega, (occursAt_iff (by omega)).mpr ⟨after, ?_⟩⟩
    rw [← List.drop_drop, heq, List.append_assoc, List.drop_left]
  cases hlow : lowest (fun x => decide (pos ≤ x ∧ SubString.occursAt str lexeme x = true)) (str.length + 1) with
  | some x =>
      obtain ⟨hx, hlt, hmin⟩ := lowest_eq_some_iff.mp hlow
      obtain ⟨hle, hoccurs⟩ := of_decide_eq_true hx
      obtain ⟨after, hafter⟩ := (occursAt_iff (Nat.le_of_lt_succ hlt)).mp hoccurs
      have hlen : ((str.drop pos).take (x - pos)).length = x - pos := by
        rw [List.length_take, List.length_drop]
        omega
      refine .inl ⟨(str.drop pos).take (x - pos), after, ⟨?_, ?_⟩, ?_⟩
      · have hdrop : (str.drop pos).drop (x - pos) = str.drop x := by
          rw [List.drop_drop, Nat.add_sub_cancel' hle]
        rw [List.append_assoc, hafter, ← hdrop, List.take_append_drop]
      · intro before' after' heq
        obtain ⟨-, hocc⟩ := hat before' after' heq
        rw [hlen]
        by_contra hshort
        have hnone := hmin (pos + before'.length) (by omega)
        exact absurd ⟨Nat.le_add_right pos _, hocc⟩ (of_decide_eq_false hnone)
      · rw [hlen, Nat.add_sub_cancel' hle]
        rfl
  | none =>
      refine .inr ⟨?_, rfl⟩
      rintro ⟨before, after, heq⟩
      obtain ⟨hle, hocc⟩ := hat before after heq.symm
      have hnone := lowest_eq_none_iff.mp hlow (pos + before.length) (Nat.lt_succ_of_le hle)
      exact absurd ⟨Nat.le_add_right pos _, hocc⟩ (of_decide_eq_false hnone)

theorem exists_first (hne : lexeme ≠ []) (hsize : str.length < 2 ^ 63) :
    (∃ before after, First lexeme str before after) ∨ ¬ lexeme <:+: str := by
  rcases find_first hne hsize (Nat.zero_le str.length) with ⟨before, after, h, -⟩ | ⟨h, -⟩
  · exact .inl ⟨before, after, h⟩
  · exact .inr h

theorem find_of_first (hne : lexeme ≠ []) (hsize : str.length < 2 ^ 63) (hpos : pos ≤ str.length)
    (h : First lexeme (str.drop pos) before after) :
    SubString.find str lexeme pos = .ok (pos + before.length) := by
  rcases find_first hne hsize hpos with ⟨before', after', h', hfind⟩ | ⟨hnone, -⟩
  · obtain ⟨rfl, -⟩ := h.unique h'
    exact hfind
  · exact absurd h.infix hnone

theorem find_of_not_infix (hne : lexeme ≠ []) (hsize : str.length < 2 ^ 63)
    (hpos : pos ≤ str.length) (h : ¬ lexeme <:+: str.drop pos) :
    SubString.find str lexeme pos = .ok SubString.npos := by
  rcases find_first hne hsize hpos with ⟨before', after', h', -⟩ | ⟨-, hfind⟩
  · exact absurd h'.infix h
  · exact hfind

/-! ## 一周 -/

theorem substr_to_end (hsize : str.length < 2 ^ 63) (hpos : pos ≤ str.length) :
    substr str pos SubString.npos = .ok (str.drop pos) := by
  rw [substr, if_pos hpos, Nat.min_eq_right (by unfold SubString.npos; omega), ← List.length_drop, List.take_length]
  rfl

theorem turn_of_absent (hstart : startLexeme ≠ []) (hsize : str.length < 2 ^ 63) (h : ¬ startLexeme <:+: str) :
    turn startLexeme endLexeme str items = (items ++ [.string str], .ok none) := by
  rw [turn, find_of_not_infix hstart hsize (Nat.zero_le _) h]
  rfl

theorem turn_of_first (hstart : startLexeme ≠ []) (hsize : str.length < 2 ^ 63) (h : First startLexeme str text opened) :
    turn startLexeme endLexeme str items = readKey endLexeme str (text.length + startLexeme.length)
      (items ++ [.string text]) := by
  have hlen := h.length
  have htake : substr str 0 text.length = .ok text := by
    rw [substr, if_pos (Nat.zero_le _), List.drop_zero, Nat.min_eq_left (by omega), h.1, List.append_assoc, List.take_left]
    rfl
  rw [turn, find_of_first hstart hsize (Nat.zero_le _) h, Nat.zero_add]
  dsimp only
  rw [if_neg (by unfold SubString.npos; omega), htake]

theorem drop_opened (h : First startLexeme str text opened) : str.drop (text.length + startLexeme.length) = opened := by
  rw [h.1, ← List.length_append, List.drop_left]

theorem readKey_of_not_infix (hend : endLexeme ≠ []) (hsize : str.length < 2 ^ 63)
    (h : First startLexeme str text opened) (hclose : ¬ endLexeme <:+: opened) :
    readKey endLexeme str (text.length + startLexeme.length) items = (items, .error .invalidTemplate) := by
  have hlen := h.length
  rw [readKey, find_of_not_infix hend hsize (by omega) (by rwa [drop_opened h])]
  rfl

theorem readKey_of_first (hend : endLexeme ≠ []) (hsize : str.length < 2 ^ 63)
    (h : First startLexeme str text opened) (hclose : First endLexeme opened key rest) :
    readKey endLexeme str (text.length + startLexeme.length) items = (items ++ [.var key], .ok (some rest)) := by
  have hlen := h.length
  have hlen' := hclose.length
  have hkey : substr str (text.length + startLexeme.length)
      (text.length + startLexeme.length + key.length - (text.length + startLexeme.length)) =
      .ok key := by
    rw [Nat.add_sub_cancel_left, substr, if_pos (by omega), drop_opened h,
      Nat.min_eq_left (by omega), hclose.1, List.append_assoc, List.take_left]
    rfl
  have hrest : substr str (text.length + startLexeme.length + key.length + endLexeme.length) SubString.npos = .ok rest := by
    rw [substr_to_end hsize (by omega), Nat.add_assoc, ← List.drop_drop, drop_opened h, hclose.1,
      ← List.length_append, List.drop_left]
  rw [readKey, find_of_first hend hsize (by omega) (by rwa [drop_opened h])]
  dsimp only
  rw [if_neg (by unfold SubString.npos; omega), hkey]
  dsimp only
  rw [hrest]
  rfl

/-! ## ループ -/

def segmentItems (segments : List (Bytes × Bytes)) : List Item :=
  segments.flatMap fun segment => [.string segment.1, .var segment.2]

def tailItems (tail : Bytes) : List Item := if tail = [] then [] else [.string tail]

theorem segmentItems_cons : segmentItems ((text, key) :: segments) = .string text :: .var key :: segmentItems segments := rfl

theorem Segments.length_le (h : Segments startLexeme endLexeme str segments tail) : tail.length ≤ str.length := by
  induction h with
  | done => exact Nat.le_refl _
  | key hopen hclose _ ih =>
      have hlen := hopen.length
      have hlen' := hclose.length
      omega

theorem itemsLoop_segments (hstart : startLexeme ≠ []) (hend : endLexeme ≠ [])
    (h : Segments startLexeme endLexeme str segments tail)
    (hsize : str.length < 2 ^ 63) (hfuel : str.length < fuel) (items : List Item) :
    ∃ fuel', tail.length < fuel' ∧ itemsLoop startLexeme endLexeme fuel str items =
      itemsLoop startLexeme endLexeme fuel' tail (items ++ segmentItems segments) := by
  induction h generalizing fuel items with
  | done str => exact ⟨fuel, hfuel, by rw [segmentItems, List.flatMap_nil, List.append_nil]⟩
  | @key str text opened key rest tail segments hopen hclose _ ih =>
      obtain ⟨fuel, rfl⟩ : ∃ n, fuel = n + 1 := ⟨fuel - 1, by omega⟩
      have hlen := hopen.length
      have hlen' := hclose.length
      have hpos := List.length_pos_of_ne_nil hstart
      have hne : str ≠ [] := List.ne_nil_of_length_pos (by omega)
      obtain ⟨fuel', hfuel', hrun⟩ := @ih fuel (by omega) (by omega) (items ++ [.string text] ++ [.var key])
      refine ⟨fuel', hfuel', ?_⟩
      rw [itemsLoop, if_neg hne, turn_of_first hstart hsize hopen, readKey_of_first hend hsize hopen hclose]
      dsimp only
      rw [hrun, segmentItems_cons, List.append_assoc, List.append_assoc]
      rfl

theorem itemsLoop_closed (hstart : startLexeme ≠ []) (hend : endLexeme ≠ [])
    (h : Closed startLexeme endLexeme str segments tail) (hsize : str.length < 2 ^ 63) :
    itemsLoop startLexeme endLexeme (str.length + 1) str [] = (segmentItems segments ++ tailItems tail, .ok ()) := by
  obtain ⟨fuel', hfuel', hrun⟩ := itemsLoop_segments hstart hend h.1 hsize (Nat.lt_succ_self _) []
  obtain ⟨fuel', rfl⟩ : ∃ n, fuel' = n + 1 := ⟨fuel' - 1, by omega⟩
  have hle := h.1.length_le
  rw [hrun, itemsLoop, tailItems, List.nil_append]
  split
  · rw [List.append_nil]
    rfl
  · rw [turn_of_absent hstart (by omega) h.2]
    rfl

theorem itemsLoop_unclosed (hstart : startLexeme ≠ []) (hend : endLexeme ≠ [])
    (h : Unclosed startLexeme endLexeme str segments text) (hsize : str.length < 2 ^ 63) :
    itemsLoop startLexeme endLexeme (str.length + 1) str
      [] = (segmentItems segments ++ [.string text], .error .invalidTemplate) := by
  obtain ⟨rest, opened, hseg, hopen, hclose⟩ := h
  obtain ⟨fuel', hfuel', hrun⟩ := itemsLoop_segments hstart hend hseg hsize (Nat.lt_succ_self _) []
  obtain ⟨fuel', rfl⟩ : ∃ n, fuel' = n + 1 := ⟨fuel' - 1, by omega⟩
  have hle := hseg.length_le
  have hlen := hopen.length
  have hpos := List.length_pos_of_ne_nil hstart
  have hne : rest ≠ [] := List.ne_nil_of_length_pos (by omega)
  rw [hrun, itemsLoop, if_neg hne, turn_of_first hstart (by omega) hopen, readKey_of_not_infix hend (by omega) hopen hclose]
  rfl

theorem closed_or_unclosed (hstart : startLexeme ≠ []) (hend : endLexeme ≠ []) (hsize : str.length < 2 ^ 63) :
    ∃ segments last, Closed startLexeme endLexeme str segments last ∨ Unclosed startLexeme endLexeme str segments last := by
  induction hn : str.length using Nat.strong_induction_on generalizing str with
  | h n ih =>
      subst hn
      rcases exists_first hstart hsize with ⟨text, opened, hopen⟩ | hnone
      · have hlen := hopen.length
        rcases exists_first hend (show opened.length < 2 ^ 63 by omega) with ⟨key, rest, hclose⟩ | hnone
        · have hlen' := hclose.length
          have hpos := List.length_pos_of_ne_nil hstart
          obtain ⟨segments, last, h⟩ := ih rest.length (by omega) (by omega) rfl
          refine ⟨(text, key) :: segments, last, ?_⟩
          rcases h with ⟨hseg, hnone⟩ | ⟨rest', opened', hseg, hopen', hnone⟩
          · exact .inl ⟨.key hopen hclose hseg, hnone⟩
          · exact .inr ⟨rest', opened', .key hopen hclose hseg, hopen', hnone⟩
        · exact ⟨[], text, .inr ⟨str, opened, .done str, hopen, hnone⟩⟩
      · exact ⟨[], str, .inl ⟨.done str, hnone⟩⟩

theorem Segments.unique {segments' : List (Bytes × Bytes)} {tail' : Bytes}
    (h : Segments startLexeme endLexeme str segments tail)
    (hnone : ∀ text opened key rest, First startLexeme tail text opened → First endLexeme opened key rest → False)
    (h' : Segments startLexeme endLexeme str segments' tail')
    (hnone' : ∀ text opened key rest, First startLexeme tail' text opened →
    First endLexeme opened key rest → False) : segments = segments' ∧ tail = tail' := by
  induction h generalizing segments' with
  | done str =>
      cases h' with
      | done => exact ⟨rfl, rfl⟩
      | key hopen hclose => exact (hnone _ _ _ _ hopen hclose).elim
  | key hopen hclose _ ih =>
      cases h' with
      | done => exact (hnone' _ _ _ _ hopen hclose).elim
      | key hopen' hclose' hrest' =>
          obtain ⟨rfl, rfl⟩ := hopen.unique hopen'
          obtain ⟨rfl, rfl⟩ := hclose.unique hclose'
          obtain ⟨rfl, rfl⟩ := ih hnone hrest'
          exact ⟨rfl, rfl⟩

theorem Closed.stops (h : Closed startLexeme endLexeme str segments tail)
    {text opened key rest : Bytes} (hopen : First startLexeme tail text opened)
    (_ : First endLexeme opened key rest) : False := h.2 hopen.infix

/-! ## 値に変える -/

theorem substitute_cons (value : Bytes → Bytes) : substitute value
    ((text, key) :: segments) tail = text ++ value key ++ substitute value segments tail := by
  rw [substitute, substitute, List.flatMap_cons, List.append_assoc]

theorem expand_eq {value : Bytes → Bytes} (h : ∀ segment ∈ segments, callback segment.2 = some (value segment.2)) :
    expand callback tail segments = .ok (substitute value segments tail) := by
  induction segments with
  | nil => rfl
  | cons segment segments ih =>
      rw [List.forall_mem_cons] at h
      rw [expand, h.1, ih h.2, substitute_cons]
      rfl

theorem foldlM_segmentItems (dst : Bytes)
    (htail : ∀ dst, items.foldlM (fun dst item => item.appendValue false callback dst) dst = .ok (dst ++ tail)) :
    (segmentItems segments ++ items).foldlM (fun dst item => item.appendValue false callback dst) dst =
      (expand callback tail segments).map (dst ++ ·) := by
  induction segments generalizing dst with
  | nil => exact htail dst
  | cons segment segments ih =>
      obtain ⟨text, key⟩ := segment
      have hstring : (Item.string text).appendValue false callback dst = .ok (dst ++ text) := rfl
      rw [segmentItems_cons, List.cons_append, List.cons_append, List.foldlM_cons, hstring, ok_bind,
        List.foldlM_cons, expand]
      cases hkey : callback key with
      | none =>
          have hvar : (Item.var key).appendValue false callback (dst ++ text) = .error (.unknownName key) := by
            simp [Item.appendValue, hkey, throw, throwThe, MonadExceptOf.throw]
          rw [hvar]
          rfl
      | some result =>
          have hvar : (Item.var key).appendValue false callback (dst ++ text) = .ok (dst ++ text ++ result) := by
            simp [Item.appendValue, hkey, pure, Except.pure]
          rw [hvar, ok_bind, ih]
          cases expand callback tail segments with
          | error fault => rfl
          | ok value => simp [Except.map, bind, Except.bind, pure, Except.pure]

theorem instantiate_tailItems : instantiate false
    (segmentItems segments ++ tailItems tail) callback = expand callback tail segments := by
  rw [instantiate, foldlM_segmentItems]
  · cases expand callback tail segments <;> rfl
  · intro dst
    rw [tailItems]
    split
    · rename_i htail
      rw [htail, List.append_nil]
      rfl
    · rfl

theorem instantiate_string : instantiate false (segmentItems segments ++ [.string tail]) callback =
    expand callback tail segments := by
  rw [instantiate, foldlM_segmentItems]
  · cases expand callback tail segments <;> rfl
  · exact fun _ => rfl

theorem substitute_injective {segments' : List (Bytes × Bytes)} {tail' : Bytes}
    (h : ∀ value, substitute value segments tail = substitute value segments' tail') :
    segments = segments' ∧ tail = tail' := by
  -- 初めの鍵の前の文字列は、値の最初のバイトを二通りに変えて比べる。
  have hbegins : ∀ {text text' key key' : Bytes} {f g : (Bytes → Bytes) → Bytes}, text.length ≤ text'.length →
      (∀ value, text ++ value key ++ f value = text' ++ value key' ++ g value) → text = text' := by
    intro text text' key key' f g hle heq
    by_cases hlen : text.length = text'.length
    · exact List.append_inj_left (by simpa using heq fun _ => []) hlen
    · have hget : ∀ c : UInt8, text'[text.length]? = some c := by
        intro c
        have hc := congrArg (fun bytes => bytes[text.length]?) (heq fun _ => [c])
        simpa [List.getElem?_append, Nat.lt_of_le_of_ne hle hlen] using hc.symm
      exact absurd ((hget 0).symm.trans (hget 1)) (by decide)
  have hconstant : ∀ {bytes text key : Bytes} {f : (Bytes → Bytes) → Bytes}, ¬ ∀ value,
      bytes = text ++ value key ++ f value := by
    intro bytes text key f heq
    have hget : ∀ c : UInt8, bytes[text.length]? = some c := fun c => by
      rw [heq fun _ => [c]]
      simp
    exact absurd ((hget 0).symm.trans (hget 1)) (by decide)
  induction segments generalizing segments' with
  | nil =>
      cases segments' with
      | nil => exact ⟨rfl, h fun _ => []⟩
      | cons segment segments' => exact (hconstant fun value => (h value).trans (substitute_cons value)).elim
  | cons segment segments ih =>
      cases segments' with
      | nil => exact (hconstant fun value => (h value).symm.trans (substitute_cons value)).elim
      | cons segment' segments' =>
          obtain ⟨text, key⟩ := segment
          obtain ⟨text', key'⟩ := segment'
          simp only [substitute_cons] at h
          obtain rfl : text = text' := by
            rcases Nat.le_total text.length text'.length with hle | hle
            · exact hbegins hle h
            · exact (hbegins hle fun value => (h value).symm).symm
          simp only [List.append_assoc, List.append_cancel_left_eq] at h
          obtain rfl : key = key' := by
            by_contra hne
            have hhead := h fun k => if k = key then [0] else [1]
            simp [Ne.symm hne] at hhead
          simp only [List.append_cancel_left_eq] at h
          obtain ⟨rfl, rfl⟩ := ih h
          exact ⟨rfl, rfl⟩

end

/-! ## 正確な置き換え -/

structure Exact (startLexeme endLexeme source : Bytes) (items : List Item)
    (segments : List (Bytes × Bytes)) (tail : Bytes) : Prop where
  source_eq : source = substitute (fun key => startLexeme ++ key ++ endLexeme) segments tail
  result : ∀ callback, instantiate false items callback = expand callback tail segments
  replaced : ∀ (callback : ArgsCallback) (value : Bytes → Bytes),
    (∀ segment ∈ segments, callback segment.2 = some (value segment.2)) →
    instantiate false items callback = .ok (substitute value segments tail)
  identity : instantiate false items (fun key => some (startLexeme ++ key ++ endLexeme)) = .ok source

theorem Segments.source_eq {startLexeme endLexeme str tail : Bytes}
    {segments : List (Bytes × Bytes)} (h : Segments startLexeme endLexeme str segments tail) :
    str = substitute (fun key => startLexeme ++ key ++ endLexeme) segments tail := by
  induction h with
  | done str => rfl
  | key hopen hclose _ ih =>
      rw [substitute_cons, ← ih, hopen.1, hclose.1]
      simp only [List.append_assoc]

/-- 分けることが成功するのは、どの開く語も閉じる語を持つ時、しかもその時に限り、成功すれば鍵だけが値に変わる。 -/
theorem template_exact (source startLexeme endLexeme : SubString) (hstart : startLexeme.bytes ≠ [])
    (hend : endLexeme.bytes ≠ []) :
    ((init source.bytes startLexeme.bytes endLexeme.bytes).2 = .ok () ↔
        ∃ segments tail, Closed startLexeme.bytes endLexeme.bytes source.bytes segments tail) ∧
      ((init source.bytes startLexeme.bytes endLexeme.bytes).2 = .error .invalidTemplate ↔
        ∃ segments text, Unclosed startLexeme.bytes endLexeme.bytes source.bytes segments text) ∧
      ∀ segments tail, Closed startLexeme.bytes endLexeme.bytes source.bytes segments tail →
        Exact startLexeme.bytes endLexeme.bytes source.bytes
        (init source.bytes startLexeme.bytes endLexeme.bytes).1 segments tail := by
  have hinit : init source.bytes startLexeme.bytes endLexeme.bytes =
      itemsLoop startLexeme.bytes endLexeme.bytes (source.bytes.length + 1) source.bytes [] := by
    rw [init, if_neg hstart, if_neg hend]
  have hclosed : ∀ {segments tail}, Closed startLexeme.bytes endLexeme.bytes source.bytes segments tail →
      init source.bytes startLexeme.bytes endLexeme.bytes = (segmentItems segments ++ tailItems tail, .ok ()) := fun h =>
    hinit.trans (itemsLoop_closed hstart hend h source.size_lt)
  have hunclosed : ∀ {segments text}, Unclosed startLexeme.bytes endLexeme.bytes source.bytes
      segments text → init source.bytes startLexeme.bytes endLexeme.bytes =
      (segmentItems segments ++ [.string text], .error .invalidTemplate) := fun h =>
    hinit.trans (itemsLoop_unclosed hstart hend h source.size_lt)
  obtain ⟨segments, last, hall⟩ := closed_or_unclosed hstart hend source.size_lt
  refine ⟨⟨fun h => ?_, ?_⟩, ⟨fun h => ?_, ?_⟩, ?_⟩
  · refine ⟨segments, last, hall.resolve_right fun hun => ?_⟩
    rw [hunclosed hun] at h
    cases h
  · rintro ⟨segments, tail, h⟩
    rw [hclosed h]
  · refine ⟨segments, last, hall.resolve_left fun hcl => ?_⟩
    rw [hclosed hcl] at h
    cases h
  · rintro ⟨segments, text, h⟩
    rw [hunclosed h]
  · intro segments tail h
    have hresult : ∀ callback,
        instantiate false (init source.bytes startLexeme.bytes endLexeme.bytes).1 callback =
        expand callback tail segments := by
      intro callback
      rw [hclosed h]
      exact instantiate_tailItems
    have hreplaced : ∀ (callback : ArgsCallback) (value : Bytes → Bytes),
        (∀ segment ∈ segments, callback segment.2 = some (value segment.2)) →
        instantiate false (init source.bytes startLexeme.bytes endLexeme.bytes).1 callback =
        .ok (substitute value segments tail) :=
      fun callback value hvalue => (hresult callback).trans (expand_eq hvalue)
    refine ⟨h.1.source_eq, hresult, hreplaced, ?_⟩
    rw [hreplaced _ (fun key => startLexeme.bytes ++ key ++ endLexeme.bytes) fun _ _ => rfl, ← h.1.source_eq]

theorem template_exact_sample :
    instantiate false (init [97, 37, 37, 107, 37, 37, 37, 37, 37, 37] [37, 37] [37, 37]).1
      (fun key => some (0 :: key)) = .ok [97, 0, 107, 0] := by
  have hfirst : ∀ {lexeme str before after : Bytes}, str = before ++ lexeme ++ after →
      before.length ≤ 1 → (before = [] ∨ ¬ lexeme <+: str) → First lexeme str before after := by
    intro lexeme str before after heq hle hzero
    refine ⟨heq, fun before' after' heq' => ?_⟩
    rcases hzero with rfl | hnot
    · exact Nat.zero_le _
    · cases before' with
      | nil => exact absurd ⟨after', by simpa using heq'.symm⟩ hnot
      | cons byte before' => exact hle.trans (Nat.succ_le_succ (Nat.zero_le _))
  have hopen : First [37, 37] [97, 37, 37, 107, 37, 37, 37, 37, 37, 37] [97] [107, 37, 37, 37, 37, 37, 37] :=
    hfirst rfl (by decide) (.inr (by decide))
  have hclose : First [37, 37] [107, 37, 37, 37, 37, 37, 37] [107] [37, 37, 37, 37] :=
    hfirst rfl (by decide) (.inr (by decide))
  have hopen' : First [37, 37] [37, 37, 37, 37] [] [37, 37] := hfirst rfl (by decide) (.inl rfl)
  have hclose' : First [37, 37] [37, 37] [] [] := hfirst rfl (by decide) (.inl rfl)
  have hclosed : Closed [37, 37] [37, 37] [97, 37, 37, 107, 37, 37, 37, 37, 37, 37] [([97], [107]), ([], [])] [] :=
    ⟨.key hopen hclose (.key hopen' hclose' (.done [])), by decide⟩
  exact ((template_exact ⟨[97, 37, 37, 107, 37, 37, 37, 37, 37, 37], by decide⟩
    ⟨[37, 37], by decide⟩ ⟨[37, 37], by decide⟩ (by decide) (by decide)).2.2
    _ _ hclosed).replaced _ (fun key => 0 :: key) fun _ _ => rfl

/-! ## 失敗した作り直し -/

section

variable {startLexeme endLexeme text tail : Bytes} {segments : List (Bytes × Bytes)}
    {str : SubString} {s s' : Template} {fault : Fault}

theorem parse_closed (hstart : startLexeme ≠ []) (hend : endLexeme ≠ [])
    (h : Closed startLexeme endLexeme str.bytes segments tail) :
    parse str startLexeme endLexeme = (⟨str, segmentItems segments ++ tailItems tail, false⟩, .ok ()) := by
  rw [parse, init, if_neg hstart, if_neg hend, itemsLoop_closed hstart hend h str.size_lt]

theorem parse_unclosed (hstart : startLexeme ≠ []) (hend : endLexeme ≠ [])
    (h : Unclosed startLexeme endLexeme str.bytes segments text) :
    parse str startLexeme endLexeme = (⟨str, segmentItems segments ++ [.string text], false⟩, .error .invalidTemplate) := by
  rw [parse, init, if_neg hstart, if_neg hend, itemsLoop_unclosed hstart hend h str.size_lt]

theorem parse_empty (str : SubString) (h : startLexeme = [] ∨ endLexeme = []) :
    ∃ fault, parse str startLexeme endLexeme = (⟨str, [], false⟩, .error fault) := by
  rw [parse, init]
  split_ifs with hstart hend
  · exact ⟨_, rfl⟩
  · exact ⟨_, rfl⟩
  · exact (h.elim hstart hend).elim

theorem parse_ok (h : parse str startLexeme endLexeme = (s, .ok ())) :
    ∃ segments tail, Closed startLexeme endLexeme s.text.bytes segments tail ∧
      s = ⟨s.text, segmentItems segments ++ tailItems tail, false⟩ := by
  by_cases hempty : startLexeme = [] ∨ endLexeme = []
  · obtain ⟨fault, hparse⟩ := parse_empty str hempty
    rw [hparse] at h
    cases h
  · obtain ⟨hstart, hend⟩ := not_or.mp hempty
    obtain ⟨segments, last, hcl | hun⟩ := closed_or_unclosed hstart hend str.size_lt
    · rw [parse_closed hstart hend hcl] at h
      cases h
      exact ⟨segments, last, hcl, rfl⟩
    · rw [parse_unclosed hstart hend hun] at h
      cases h

theorem reload_ok {s₀ : Template} {call : Reload} (h : s₀.reload call = (s, .ok ())) :
    ∃ segments tail, Closed call.startLexeme call.endLexeme s.text.bytes segments tail ∧
      s = ⟨s.text, segmentItems segments ++ tailItems tail, false⟩ := by
  have histream : ∀ istr, initIStream s₀ istr call.startLexeme call.endLexeme = (s, .ok ()) →
      ∃ segments tail, Closed call.startLexeme call.endLexeme s.text.bytes segments tail ∧
        s = ⟨s.text, segmentItems segments ++ tailItems tail, false⟩ := by
    intro istr hinit
    unfold initIStream at hinit
    dsimp only at hinit
    split_ifs at hinit
    · cases hinit
    · exact parse_ok hinit
  unfold Template.reload at h
  split at h
  · exact parse_ok h
  · exact histream _ h
  · cases h
  · exact histream _ h

theorem expand_eq_iff {segments' : List (Bytes × Bytes)} {tail' : Bytes} :
    (∀ callback, expand callback tail' segments' = expand callback tail segments) ↔ segments = segments' ∧ tail = tail' := by
  constructor
  · intro h
    refine substitute_injective fun value => ?_
    have hvalue := h fun key => some (value key)
    rw [expand_eq fun _ _ => rfl, expand_eq fun _ _ => rfl] at hvalue
    exact (Except.ok.inj hvalue).symm
  · rintro ⟨rfl, rfl⟩ callback
    rfl

theorem parse_keeps_iff (h : parse str startLexeme endLexeme = (s', .error fault)) :
    (∀ callback, s'.instantiate callback = expand callback tail segments) ↔
    Leaves startLexeme endLexeme str.bytes segments tail := by
  unfold Leaves
  split_ifs with hempty
  · obtain ⟨fault', hparse⟩ := parse_empty str hempty
    rw [hparse] at h
    cases h
    exact @expand_eq_iff tail segments [] []
  · obtain ⟨hstart, hend⟩ := not_or.mp hempty
    obtain ⟨segments', last, hcl | hun⟩ := closed_or_unclosed hstart hend str.size_lt
    · rw [parse_closed hstart hend hcl] at h
      cases h
    · have hparse := parse_unclosed hstart hend hun
      constructor
      · intro hsame
        rw [hparse] at h
        cases h
        obtain ⟨rfl, rfl⟩ := expand_eq_iff.mp fun callback => instantiate_string.symm.trans (hsame callback)
        exact hun
      · intro hleaves callback
        rw [parse_unclosed hstart hend hleaves] at h
        cases h
        exact instantiate_string

def Item.view : Item → Bytes
  | .string value => value
  | .var key => key

theorem view_of_stale {items : List Item} {callback : ArgsCallback} {dst result : Bytes}
    (h : items.foldlM (fun dst item => item.appendValue true callback dst) dst = .ok result) :
    ∀ item ∈ items, item.view = [] := by
  induction items generalizing dst with
  | nil => simp
  | cons item items ih =>
      rw [List.foldlM_cons] at h
      obtain ⟨dst', hitem, hrest⟩ := bind_eq_ok.mp h
      refine List.forall_mem_cons.mpr ⟨?_, ih hrest⟩
      by_contra hne
      cases item with
      | string value =>
          rw [Item.appendValue, if_pos ⟨rfl, hne⟩] at hitem
          cases hitem
      | var key =>
          rw [Item.appendValue, if_pos ⟨rfl, hne⟩] at hitem
          cases hitem

theorem foldlM_stale {items : List Item} {callback : ArgsCallback} (h : ∀ item ∈ items, item.view = []) (dst : Bytes) :
    items.foldlM (fun dst item => item.appendValue true callback dst) dst =
      items.foldlM (fun dst item => item.appendValue false callback dst) dst := by
  induction items generalizing dst with
  | nil => rfl
  | cons item items ih =>
      rw [List.forall_mem_cons] at h
      have hitem : item.appendValue true callback dst = item.appendValue false callback dst := by
        cases item with
        | string value => simp [Item.appendValue, show value = [] from h.1]
        | var key => simp [Item.appendValue, show key = [] from h.1]
      rw [List.foldlM_cons, List.foldlM_cons, hitem]
      exact congrArg _ (funext fun dst' => ih h.2 dst')

theorem view_items_iff :
    (∀ item ∈ segmentItems segments ++ tailItems tail, item.view = []) ↔
    (∀ segment ∈ segments, segment = ([], [])) ∧ tail = [] := by
  rw [List.forall_mem_append]
  refine and_congr ?_ ?_
  · rw [segmentItems, List.forall_mem_flatMap]
    refine forall₂_congr fun segment _ => ?_
    simp [Item.view, Prod.ext_iff]
  · unfold tailItems
    split_ifs with htail
    · simp [htail]
    · simp [Item.view]

theorem initIStream_keeps_iff {istr : Istream} (hs : s = ⟨s.text, segmentItems segments ++ tailItems tail, false⟩)
    (h : initIStream s istr startLexeme endLexeme = (s', .error fault)) :
    (∀ callback, s'.instantiate callback = expand callback tail segments) ↔
    istr.Keeps startLexeme endLexeme s.text.bytes segments tail := by
  have hsame : ∀ callback, s.instantiate callback = expand callback tail segments := by
    intro callback
    rw [hs]
    exact instantiate_tailItems
  have hitems : s.items = segmentItems segments ++ tailItems tail := congrArg Template.items hs
  have hstale : s.stale = false := congrArg Template.stale hs
  -- 読み込みに失敗すると、文字列だけが書き直される。
  have hread : ∀ text' : SubString, s' = ⟨text', s.items, true⟩ →
      ((∀ callback, s'.instantiate callback = expand callback tail segments) ↔
      (∀ segment ∈ segments, segment = ([], [])) ∧ tail = []) := by
    rintro text' rfl
    rw [← view_items_iff, ← hitems]
    constructor
    · intro hall
      have hvalue := hall fun _ => some []
      rw [@expand_eq tail segments _ (fun _ => []) fun _ _ => rfl] at hvalue
      exact view_of_stale hvalue
    · intro hview callback
      rw [← hsame, Template.instantiate, Template.instantiate, hstale]
      exact foldlM_stale hview []
  unfold initIStream Istream.getline at h
  unfold Istream.Keeps
  by_cases hgood : istr.good
  · rw [if_pos hgood] at h ⊢
    by_cases hnul : 0 ∈ istr.bytes.bytes
    · rw [if_pos hnul] at h
      rw [if_pos (.inl hnul)]
      cases h
      exact hread (upToNul istr.bytes) (by simp [hgood])
    · rw [if_neg hnul] at h
      by_cases hbroken : istr.broken
      · rw [if_pos hbroken] at h
        rw [if_pos (.inr hbroken)]
        cases h
        exact hread istr.bytes (by simp [hgood])
      · rw [if_neg hbroken] at h
        rw [if_neg (not_or.mpr ⟨hnul, hbroken⟩)]
        exact parse_keeps_iff h
  · rw [if_neg hgood] at h ⊢
    split_ifs with hstop
    · dsimp only at h
      rw [if_pos hstop] at h
      cases h
      refine iff_of_true (fun callback => ?_) trivial
      have hfalse : (s.stale || istr.good) = s.stale := by simp [hgood]
      rw [← hsame, Template.instantiate, Template.instantiate, hfalse]
    · dsimp only at h
      rw [if_neg hstop] at h
      exact parse_keeps_iff h

/-- 失敗した作り直しの後に、どの値でも前と同じ結果になるのは、残った項目が前の雛形と同じ分け方である時、しかもその時に限る。 -/
theorem failed_reload_iff {s₀ : Template} {call again : Reload}
    (hcall : s₀.reload call = (s, .ok ())) (hagain : s.reload again = (s', .error fault)) :
    (∀ callback, s'.instantiate callback = s.instantiate callback) ↔
      ∃ segments tail, Closed call.startLexeme call.endLexeme s.text.bytes segments tail ∧
      again.Keeps s.text.bytes segments tail := by
  obtain ⟨segments, tail, hclosed, hs⟩ := reload_ok hcall
  have hsame : ∀ callback, s.instantiate callback = expand callback tail segments := by
    intro callback
    rw [hs]
    exact instantiate_tailItems
  have hkeeps : (∀ callback, s'.instantiate callback = expand callback tail segments) ↔
      again.Keeps s.text.bytes segments tail := by
    unfold Template.reload at hagain
    unfold Reload.Keeps
    split at hagain
    · exact parse_keeps_iff hagain
    · exact initIStream_keeps_iff hs hagain
    · cases hagain
      exact iff_of_true hsame trivial
    · exact initIStream_keeps_iff hs hagain
  simp only [hsame]
  rw [hkeeps]
  constructor
  · exact fun h => ⟨segments, tail, hclosed, h⟩
  · rintro ⟨segments', tail', hclosed', h⟩
    obtain ⟨rfl, rfl⟩ := hclosed.1.unique (fun _ _ _ _ => hclosed.stops) hclosed'.1 fun _ _ _ _ => hclosed'.stops
    exact h

end

def emptyTemplate : Template := ⟨⟨[], by decide⟩, [], false⟩

def percents (str : Bytes) (h : str.length < 2 ^ 63) : Reload := ⟨.string ⟨str, h⟩, [37, 37], [37, 37]⟩

theorem reload_a : emptyTemplate.reload (percents [97] (by decide)) = (⟨⟨[97], by decide⟩, [.string [97]], false⟩, .ok ()) :=
  @parse_closed [37, 37] [37, 37] [97] [] ⟨[97], by decide⟩ (by decide) (by decide) ⟨.done [97], by decide⟩

theorem unclosed_after (byte : UInt8) (rest : Bytes)
    (hopen : ¬ [37, 37] <+: byte :: 37 :: 37 :: rest) (hclose : ¬ [37, 37] <:+: rest) :
    Unclosed [37, 37] [37, 37] (byte :: 37 :: 37 :: rest) [] [byte] := by
  refine ⟨_, rest, .done _, ⟨rfl, fun before' after' heq => ?_⟩, hclose⟩
  cases before' with
  | nil => exact absurd ⟨after', by simpa using heq.symm⟩ hopen
  | cons _ before' => exact Nat.succ_le_succ (Nat.zero_le _)

theorem failed_reload_iff_same :
    (⟨⟨[97], by decide⟩, [.string [97]], false⟩ : Template).reload (percents [97, 37, 37, 107] (by decide)) =
        (⟨⟨[97, 37, 37, 107], by decide⟩, [.string [97]], false⟩, .error .invalidTemplate) ∧
      ∀ callback, (⟨⟨[97, 37, 37, 107], by decide⟩, [.string [97]], false⟩ : Template).instantiate callback =
        (⟨⟨[97], by decide⟩, [.string [97]], false⟩ : Template).instantiate callback := by
  have hun := unclosed_after 97 [107] (by decide) (by decide)
  have hagain : (⟨⟨[97], by decide⟩, [.string [97]], false⟩ : Template).reload (percents [97, 37, 37, 107] (by decide)) =
      (⟨⟨[97, 37, 37, 107], by decide⟩, [.string [97]], false⟩, .error .invalidTemplate) :=
    @parse_unclosed [37, 37] [37, 37] [97] [] ⟨[97, 37, 37, 107], by decide⟩ (by decide) (by decide) hun
  exact ⟨hagain, (failed_reload_iff reload_a hagain).mpr ⟨[], [97], ⟨.done [97], by decide⟩, hun⟩⟩

/-- `a` の後に、閉じていない `b%%` を渡すと、前の雛形の代わりに `b` が残る。 -/
theorem failed_reload_replaces :
    ¬ ∀ (s₀ s s' : Template) (call again : Reload) (fault : Fault), s₀.reload call = (s, .ok ()) →
      s.reload again = (s', .error fault) →
      ∀ callback, s'.instantiate callback = s.instantiate callback := by
  intro h
  have hagain : (⟨⟨[97], by decide⟩, [.string [97]], false⟩ : Template).reload (percents [98, 37, 37] (by decide)) =
      (⟨⟨[98, 37, 37], by decide⟩, [.string [98]], false⟩, .error .invalidTemplate) :=
    @parse_unclosed [37, 37] [37, 37] [98] [] ⟨[98, 37, 37], by decide⟩ (by decide) (by decide)
      (unclosed_after 98 [] (by decide) (by decide))
  exact absurd (h _ _ _ _ _ _ reload_a hagain fun _ => none) (by decide)

end UnixCommons.String.TextTemplate
