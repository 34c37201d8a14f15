import UnixCommons.String.Lemmas.IntText

/-!
# 緩衝域への連結の補題

文字列の `append` は文字列を残し、整数の `append` は、終わりの桁を除いた文字列を残す。
-/

namespace UnixCommons.String.Concat

open Lib UTF8Handler IntText

variable {memory memory' : Memory} {buffer size n i : Nat} {s : Bytes} {arg : Arg} {args : List Arg}

theorem strlcpyLoop_spec (left : Nat) (src : Bytes) (memory : Memory) (dst : Nat) :
    readBytes (strlcpyLoop left src memory dst) dst (src.take left).length = src.take left ∧
      strlcpyLoop left src memory dst (dst + (src.take left).length) = 0 ∧
      ∀ i, i < dst ∨ dst + (src.take left).length < i → strlcpyLoop left src memory dst i = memory i := by
  induction left generalizing src memory dst with
  | zero =>
      rw [strlcpyLoop, List.take_zero]
      refine ⟨rfl, Function.update_self _ _ _, ?_⟩
      intro i hi
      rw [List.length_nil] at hi
      exact Function.update_of_ne (by omega) _ _
  | succ left ih =>
      cases src with
      | nil =>
          rw [strlcpyLoop, List.take_nil]
          refine ⟨rfl, Function.update_self _ _ _, ?_⟩
          intro i hi
          rw [List.length_nil] at hi
          exact Function.update_of_ne (by omega) _ _
      | cons ch src =>
          obtain ⟨hread, hnul, hframe⟩ := ih src (Function.update memory dst ch) (dst + 1)
          rw [strlcpyLoop, List.take_succ_cons, List.length_cons]
          refine ⟨?_, ?_, ?_⟩
          · rw [readBytes_succ, hread, hframe dst (.inl (Nat.lt_succ_self dst)), Function.update_self]
          · rw [Nat.add_assoc, Nat.add_comm 1] at hnul
            exact hnul
          · intro i hi
            rw [hframe i (by omega)]
            exact Function.update_of_ne (by omega) _ _

/-! ## 一つの引数 -/

def Arg.text : Arg → Bytes
  | .cstr s => s.bytes
  | .sub s => s
  | .str s => s
  | .int _ value _ => intText value

def Arg.piece : Arg → Bytes
  | .int _ value _ => (intText value).dropLast
  | arg => arg.text

def Arg.IsMin : Arg → Prop
  | .int B value _ => B.isSigned = true ∧ value = B.min
  | _ => False

instance : DecidablePred Arg.IsMin
  | .int _ _ _ => inferInstanceAs (Decidable (_ ∧ _))
  | .cstr _ => inferInstanceAs (Decidable False)
  | .sub _ => inferInstanceAs (Decidable False)
  | .str _ => inferInstanceAs (Decidable False)

def Arg.room : Arg → Nat
  | .int B _ _ => B.digits10 + 3
  | _ => 0

def Appended (memory : Memory) (buffer size : Nat) (arg : Arg) (result : Except Fault (Memory × Nat)) : Prop :=
  ∃ memory' length, result = .ok (memory', length) ∧ (∀ i, i < buffer ∨ buffer + size ≤ i →
    memory' i = memory i) ∧ if arg.IsMin then length = size ∧ memory' buffer = 0
    else if arg.piece.length < size then length = arg.piece.length ∧ readBytes memory' buffer length = arg.piece
    else length = size ∧ readBytes memory' buffer (size - 1) = arg.piece.take (size - 1) ∧ memory' (buffer + (size - 1)) = 0

theorem appendPointer_spec (hsize : 0 < size) (memory : Memory) (buffer : Nat) (str : CString) :
    Appended memory buffer size (.cstr str) (.ok (appendPointer memory buffer size str.bytes)) := by
  obtain ⟨hread, hnul, hframe⟩ := strlcpyLoop_spec (size - 1) str.bytes memory buffer
  have hpiece : (Arg.cstr str).piece = str.bytes := rfl
  refine ⟨strlcpyLoop (size - 1) str.bytes memory buffer,
    if str.bytes.length < size then str.bytes.length else size, ?_, ?_, ?_⟩
  · rw [appendPointer, strlcpy, if_pos (by omega)]
  · intro i hi
    refine hframe i ?_
    rw [List.length_take]
    omega
  · have hmin : ¬ (Arg.cstr str).IsMin := fun h => h
    rw [if_neg hmin, hpiece]
    split_ifs with hlt
    · rw [List.take_of_length_le (by omega)] at hread
      exact ⟨rfl, hread⟩
    · rw [List.length_take, Nat.min_eq_left (by omega)] at hread hnul
      exact ⟨rfl, hread, hnul⟩

theorem appendSubString_spec (hsize : 0 < size) (memory : Memory) (buffer : Nat)
    (harg : arg.piece = s) (hmin : ¬ arg.IsMin) :
    Appended memory buffer size arg (appendSubString memory buffer size s) := by
  unfold appendSubString
  by_cases hge : s.length ≥ size
  · have hlen : (s.take (size - 1)).length = size - 1 := by rw [List.length_take, Nat.min_eq_left (by omega)]
    rw [if_pos hge, if_neg (by omega)]
    refine ⟨_, size, rfl, ?_, ?_⟩
    · intro i hi
      rw [Function.update_of_ne (by omega)]
      rcases hi with hi | hi
      · exact writeBytes_of_lt hi
      · exact writeBytes_of_ge (by omega)
    · have hread : readBytes (writeBytes memory buffer (s.take (size - 1))) buffer
          (s.take (size - 1)).length = s.take (size - 1) :=
        readBytes_writeBytes
      rw [hlen] at hread
      rw [if_neg hmin, harg, if_neg (by omega)]
      exact ⟨rfl, by rw [readBytes_update_of_ge (by omega), hread], Function.update_self _ _ _⟩
  · rw [if_neg hge]
    refine ⟨_, s.length, rfl, ?_, ?_⟩
    · intro i hi
      rcases hi with hi | hi
      · exact writeBytes_of_lt hi
      · exact writeBytes_of_ge (by omega)
    · rw [if_neg hmin, harg, if_pos (by omega)]
      exact ⟨rfl, readBytes_writeBytes⟩

theorem intText_ne_nil (x : Int) : intText x ≠ [] := by
  unfold intText
  split_ifs
  · exact List.cons_ne_nil _ _
  · rw [Ne, List.map_eq_nil_iff]
    exact natText_ne_nil _

theorem appendInteger_spec {B : BinaryType} {value : Int} (hvalue : B.min ≤ value ∧ value ≤ B.max)
    (hroom : B.digits10 + 3 ≤ size) (memory : Memory) (buffer : Nat) :
    Appended memory buffer size (.int B value hvalue) (.ok (appendInteger memory buffer size B value)) := by
  unfold appendInteger
  by_cases hmin : B.isSigned = true ∧ value = B.min
  · obtain ⟨hs, rfl⟩ := hmin
    rw [intToStr_min hs]
    refine ⟨_, size, rfl, ?_, ?_⟩
    · intro i hi
      exact Function.update_of_ne (by omega) _ _
    · rw [if_pos ⟨hs, rfl⟩]
      exact ⟨rfl, Function.update_self _ _ _⟩
  · have hconv : Convertible B value := ⟨hvalue.1, hvalue.2, fun hs hx => hmin ⟨hs, hx⟩⟩
    obtain ⟨hlen, hread, hnul, hframe⟩ := intToStr_wrote hconv hroom memory buffer
    have hfits := length_intText_le hconv
    have hpos := List.length_pos_of_ne_nil (intText_ne_nil value)
    have hpiece : (Arg.int B value hvalue).piece = (intText value).dropLast := rfl
    refine ⟨(intToStr B value memory buffer size).1, (intText value).length - 1, ?_, ?_, ?_⟩
    · dsimp only
      rw [hlen, if_neg (by omega)]
    · intro i hi
      exact hframe i (by omega)
    · have hmin' : ¬ (Arg.int B value hvalue).IsMin := hmin
      rw [if_neg hmin', hpiece, List.length_dropLast, if_pos (by omega)]
      exact ⟨rfl, readBytes_pred hpos hread⟩

theorem append_spec (hsize : 0 < size) (hroom : arg.room ≤ size) (memory : Memory) (buffer : Nat) :
    Appended memory buffer size arg (append memory buffer size arg) := by
  cases arg with
  | cstr str => exact appendPointer_spec hsize memory buffer str
  | sub str => exact appendSubString_spec hsize memory buffer rfl (fun h => h)
  | str str => exact appendSubString_spec hsize memory buffer rfl (fun h => h)
  | int B value hvalue => exact appendInteger_spec hvalue hroom memory buffer

/-! ## 連結 -/

def texts (args : List Arg) : Bytes := args.flatMap Arg.text

def kept : List Arg → Bytes
  | [] => []
  | arg :: args => if arg.IsMin then [] else arg.piece ++ kept args

def Fits : Nat → List Arg → Prop
  | _, [] => True
  | size, arg :: args => arg.room ≤ size ∧ (¬ arg.IsMin → arg.piece.length < size → Fits (size - arg.piece.length) args)

/-- `buffer` から、`text` と NUL が書かれ、`size` バイトの外は変わらない。 -/
def Leaves (memory memory' : Memory) (buffer size : Nat) (text : Bytes) : Prop :=
  readBytes memory' buffer text.length = text ∧ memory' (buffer + text.length) = 0 ∧
    ∀ i, i < buffer ∨ buffer + size ≤ i → memory' i = memory i

theorem concat_spec (hsize : 0 < size) (hfits : Fits size args) (memory : Memory) (buffer : Nat) :
    ∃ memory', concat memory buffer size args = .ok memory' ∧ Leaves memory memory' buffer size
      ((kept args).take (size - 1)) := by
  induction args generalizing size memory buffer with
  | nil =>
      refine ⟨Function.update memory buffer 0, ?_, ?_, ?_, ?_⟩
      · rw [concat, if_neg (by omega)]
        rfl
      · rw [kept, List.take_nil, List.length_nil, readBytes_zero]
      · rw [kept, List.take_nil]
        exact Function.update_self _ _ _
      · intro i hi
        exact Function.update_of_ne (by omega) _ _
  | cons arg args ih =>
      obtain ⟨hroom, hrest⟩ := hfits
      obtain ⟨memory₁, length, happend, hframe, hcase⟩ := append_spec hsize hroom memory buffer
      rw [concat, happend, ok_bind, kept]
      dsimp only
      by_cases hmin : arg.IsMin
      · rw [if_pos hmin] at hcase ⊢
        obtain ⟨rfl, hnul⟩ := hcase
        rw [if_neg (Nat.lt_irrefl _), List.take_nil]
        exact ⟨memory₁, rfl, rfl, hnul, hframe⟩
      · rw [if_neg hmin] at hcase ⊢
        by_cases hlt : arg.piece.length < size
        · rw [if_pos hlt] at hcase
          obtain ⟨rfl, hread⟩ := hcase
          obtain ⟨memory', hrun, htext, hnul, hout⟩ := @ih (size - arg.piece.length) (by omega) (hrest hmin hlt) memory₁
            (buffer + arg.piece.length)
          have hsplit : (arg.piece ++ kept args).take (size - 1) = arg.piece ++ (kept args).take
              (size - arg.piece.length - 1) := by
            rw [List.take_append, List.take_of_length_le (by omega)]
            congr 2
            omega
          rw [if_pos hlt, hsplit]
          refine ⟨memory', hrun, ?_, ?_, ?_⟩
          · have hkeep : readBytes memory' buffer arg.piece.length = readBytes memory₁ buffer arg.piece.length :=
              readBytes_congr fun i _ hi => hout i (.inl hi)
            rw [List.length_append, readBytes_add, htext, hkeep, hread]
          · rw [List.length_append, ← Nat.add_assoc]
            exact hnul
          · intro i hi
            rw [hout i (by omega), hframe i hi]
        · rw [if_neg hlt] at hcase
          obtain ⟨rfl, hread, hnul⟩ := hcase
          have hsplit : (arg.piece ++ kept args).take (length - 1) = arg.piece.take (length - 1) :=
            List.take_append_of_le_length (by omega)
          have hlen : (arg.piece.take (length - 1)).length = length - 1 := by
            rw [List.length_take, Nat.min_eq_left (by omega)]
          rw [if_neg (Nat.lt_irrefl _), hsplit]
          refine ⟨memory₁, rfl, ?_, ?_, hframe⟩
          · rw [hlen, hread]
          · rw [hlen, hnul]

/-! ## 残す文字と文字列 -/

theorem zero_not_mem_intText (x : Int) : 0 ∉ intText x := by
  have hdigits : 0 ∉ (natText x.natAbs).map AsciiStringManip.ascii := fun h => absurd (isDigit_natText _ 0 h) (by decide)
  unfold intText
  split_ifs
  · simpa using hdigits
  · exact hdigits

theorem count_piece (arg : Arg) : arg.piece.count 0 = arg.text.count 0 ∧ arg.piece.length ≤ arg.text.length := by
  cases arg with
  | cstr s => exact ⟨rfl, Nat.le_refl _⟩
  | sub s => exact ⟨rfl, Nat.le_refl _⟩
  | str s => exact ⟨rfl, Nat.le_refl _⟩
  | int B value hvalue =>
      have hzero := zero_not_mem_intText value
      refine ⟨?_, ?_⟩
      · show ((intText value).dropLast).count 0 = (intText value).count 0
        rw [List.count_eq_zero.mpr hzero, List.count_eq_zero.mpr fun h => hzero (List.dropLast_subset _ h)]
      · show ((intText value).dropLast).length ≤ (intText value).length
        rw [List.length_dropLast]
        omega

theorem head_text_of_isMin (h : arg.IsMin) (rest : Bytes) : ∃ b r, arg.text ++ rest = b :: r ∧ b ≠ 0 := by
  cases arg with
  | cstr s => exact h.elim
  | sub s => exact h.elim
  | str s => exact h.elim
  | int B value hvalue =>
      obtain ⟨b, r, hb⟩ := List.exists_cons_of_ne_nil (intText_ne_nil value)
      have hzero := zero_not_mem_intText value
      refine ⟨b, r ++ rest, ?_, ?_⟩
      · show intText value ++ rest = _
        rw [hb, List.cons_append]
      · rintro rfl
        rw [hb] at hzero
        exact hzero List.mem_cons_self

theorem texts_split (args : List Arg) :
    ∃ p r, texts args = p ++ r ∧ p.count 0 = (kept args).count 0 ∧ (kept args).length ≤ p.length ∧ ∀ q, r ≠ 0 :: q := by
  induction args with
  | nil => exact ⟨[], [], rfl, rfl, Nat.le_refl 0, fun q h => by cases h⟩
  | cons arg args ih =>
      obtain ⟨p, r, hsplit, hcount, hlen, hhead⟩ := ih
      obtain ⟨hpiece, hle⟩ := count_piece arg
      rw [texts, List.flatMap_cons, kept]
      split_ifs with hmin
      · obtain ⟨b, r', hcons, hb⟩ := head_text_of_isMin hmin (args.flatMap Arg.text)
        refine ⟨[], b :: r', hcons, rfl, Nat.le_refl 0, ?_⟩
        intro q h
        exact hb (List.cons.inj h).1
      · refine ⟨arg.text ++ p, r, ?_, ?_, ?_, hhead⟩
        · rw [List.append_assoc, ← hsplit]
          rfl
        · rw [List.count_append, List.count_append, hpiece, hcount]
        · rw [List.length_append, List.length_append]
          omega

theorem texts_ne_kept_zero (args : List Arg) (q : Bytes) : texts args ≠ kept args ++ 0 :: q := by
  intro h
  obtain ⟨p, r, hsplit, hcount, hlen, hhead⟩ := texts_split args
  rw [hsplit] at h
  rcases List.append_eq_append_iff.mp h with ⟨a, hp, hr⟩ | ⟨a, hp, hr⟩
  · have hnil : a = [] := by
      rw [hp, List.length_append] at hlen
      exact List.length_eq_zero_iff.mp (by omega)
    rw [hnil] at hr
    exact hhead q hr
  · cases a with
    | nil => exact hhead q hr.symm
    | cons b a =>
        obtain ⟨rfl, -⟩ := List.cons.inj hr
        rw [hp, List.count_append, List.count_cons_self] at hcount
        omega

theorem length_kept_le (args : List Arg) : (kept args).length ≤ (texts args).length := by
  obtain ⟨p, r, hsplit, -, hlen, -⟩ := texts_split args
  rw [hsplit, List.length_append]
  omega

def Arg.IsInt : Arg → Prop
  | .int _ _ _ => True
  | _ => False

theorem piece_of_not_isInt (h : ¬ arg.IsInt) : ¬ arg.IsMin ∧ arg.piece = arg.text := by
  cases arg with
  | cstr s => exact ⟨fun h => h, rfl⟩
  | sub s => exact ⟨fun h => h, rfl⟩
  | str s => exact ⟨fun h => h, rfl⟩
  | int B value hvalue => exact absurd trivial h

theorem length_piece_lt (h : arg.IsInt) : arg.piece.length < arg.text.length := by
  cases arg with
  | cstr s => exact h.elim
  | sub s => exact h.elim
  | str s => exact h.elim
  | int B value hvalue =>
      have hpos := List.length_pos_of_ne_nil (intText_ne_nil value)
      show ((intText value).dropLast).length < (intText value).length
      rw [List.length_dropLast]
      omega

theorem kept_eq_texts_iff : kept args = texts args ↔ ∀ arg ∈ args, ¬ arg.IsInt := by
  induction args with
  | nil => simp [kept, texts]
  | cons arg args ih =>
      have hle := length_kept_le args
      rw [kept, texts, List.flatMap_cons, List.forall_mem_cons]
      change _ = arg.text ++ texts args ↔ _
      by_cases hint : arg.IsInt
      · refine iff_of_false (fun h => ?_) fun h => h.1 hint
        have hshort := length_piece_lt hint
        have hlen := congrArg List.length h
        rw [List.length_append] at hlen
        split_ifs at hlen
        · rw [List.length_nil] at hlen
          omega
        · rw [List.length_append] at hlen
          omega
      · obtain ⟨hmin, hpiece⟩ := piece_of_not_isInt hint
        rw [if_neg hmin, hpiece, List.append_cancel_left_eq, ih]
        exact (and_iff_right hint).symm

theorem leaves_texts_iff {k : Nat} (h : Leaves memory memory' buffer size ((kept args).take k)) :
    Leaves memory memory' buffer size ((texts args).take k) ↔ (kept args).take k = (texts args).take k := by
  constructor
  · rintro ⟨htext, -, -⟩
    obtain ⟨hkept, hnul, -⟩ := h
    have hle := length_kept_le args
    by_cases hshort : (texts args).length ≤ k ∧ (kept args).length < (texts args).length ∨
      (kept args).length < k ∧ k < (texts args).length
    · have hwhole : (kept args).take k = kept args := List.take_of_length_le (by omega)
      rw [hwhole] at hkept hnul
      have hlonger : (kept args).length < ((texts args).take k).length := by
        rw [List.length_take]
        omega
      obtain ⟨m, hm⟩ : ∃ m, ((texts args).take k).length = (kept args).length + (m + 1) :=
        ⟨((texts args).take k).length - (kept args).length - 1, by omega⟩
      rw [hm, readBytes_add, hkept, readBytes_succ, hnul] at htext
      have hfull := List.take_append_drop k (texts args)
      rw [← htext, List.append_assoc] at hfull
      exact absurd hfull.symm (texts_ne_kept_zero args _)
    · have hlen : ((kept args).take k).length = ((texts args).take k).length := by
        rw [List.length_take, List.length_take]
        omega
      rw [← hkept, hlen, htext]
  · intro heq
    rwa [← heq]

end UnixCommons.String.Concat
