import Mathlib.Data.List.Basic
import UnixCommons.Lib.Utf8

/-! # 文字列の符号の文法 -/

/-!
## バックスラッシュの符号

文字列の本体の、バックスラッシュで始まる符号を元に戻す規則。そのまま現れてよいバイトと、符号の意味は引数である。十六進の符号は UTF-16 の単位を表し、
代用符号は対でなければならない。
-/

namespace Lib.Escape

open Utf8

def backslash : UInt8 := 0x5C

/-- バックスラッシュの次の文字の意味。 -/
inductive Kind
  | byte (b : UInt8)
  | hex (digits : Nat)

structure Rules where
  raw : UInt8 → Bool
  escape : UInt8 → Option Kind

inductive Item
  | byte (b : UInt8)
  | unit (n : Nat)
  deriving DecidableEq

/-- 読んだ所。 -/
inductive State
  | text
  | escape
  | hex (left value : Nat)

def hexDigit (b : UInt8) : Option Nat :=
  if 0x30 ≤ b.toNat ∧ b.toNat ≤ 0x39 then some (b.toNat - 0x30)
  else if 0x41 ≤ b.toNat ∧ b.toNat ≤ 0x46 then some (b.toNat - 0x37)
  else if 0x61 ≤ b.toNat ∧ b.toNat ≤ 0x66 then some (b.toNat - 0x57)
  else none

def scan (R : Rules) : State → Bytes → Option (List Item)
  | .text, [] => some []
  | .escape, [] => none
  | .hex _ _, [] => none
  | .text, b :: s =>
      if b = backslash then scan R .escape s
      else if R.raw b then (scan R .text s).map (.byte b :: ·)
      else none
  | .escape, b :: s =>
      match R.escape b with
      | some (.byte c) => (scan R .text s).map (.byte c :: ·)
      | some (.hex digits) => scan R (.hex digits 0) s
      | none => none
  | .hex left value, b :: s =>
      match hexDigit b with
      | some digit =>
          if left ≤ 1 then (scan R .text s).map (.unit (value * 16 + digit) :: ·)
            else scan R (.hex (left - 1) (value * 16 + digit)) s
      | none => none

def IsHigh (n : Nat) : Prop := 0xD800 ≤ n ∧ n < 0xDC00

def IsLow (n : Nat) : Prop := 0xDC00 ≤ n ∧ n < 0xE000

instance (n : Nat) : Decidable (IsHigh n) := inferInstanceAs (Decidable (_ ∧ _))

instance (n : Nat) : Decidable (IsLow n) := inferInstanceAs (Decidable (_ ∧ _))

def pairValue (high low : Nat) : Nat := 0x10000 + (high - 0xD800) * 0x400 + (low - 0xDC00)

def join : List Item → Option Bytes
  | [] => some []
  | .byte b :: items => (join items).map (b :: ·)
  | .unit n :: items =>
      if IsHigh n then
        match items with
        | .unit m :: items => if IsLow m then (join items).map (encode (pairValue n m) ++ ·) else none
        | _ => none
      else if IsLow n then none
      else (join items).map (encode n ++ ·)

def unescape (R : Rules) (s : Bytes) : Option Bytes := (scan R .text s).bind join

def json : Rules where
  raw b := 0x20 ≤ b.toNat ∧ b ≠ 0x22
  escape b :=
    if b = 0x22 ∨ b = 0x5C ∨ b = 0x2F then some (.byte b)
    else if b = 0x62 then some (.byte 0x08)
    else if b = 0x66 then some (.byte 0x0C)
    else if b = 0x6E then some (.byte 0x0A)
    else if b = 0x72 then some (.byte 0x0D)
    else if b = 0x74 then some (.byte 0x09)
    else if b = 0x75 then some (.hex 4)
    else none

/-- JavaScript の `\xXX` と `\uXXXX` だけの規則。 -/
def javascript : Rules where
  raw _ := true
  escape b :=
    if b = 0x78 then some (.hex 2)
    else if b = 0x75 then some (.hex 4)
    else none

variable {R : Rules} {st : State} {s t v rest : Bytes} {items more : List Item}

theorem map_cons_append {α : Type} {x : Option (List α)} {a : α} {l : List α} :
    ((x.map (l ++ ·)).map (a :: ·)) = x.map (a :: l ++ ·) := by
  rw [Option.map_map]
  rfl

theorem scan_append (h : scan R st t = some items) : scan R st (t ++ rest) = (scan R .text rest).map (items ++ ·) := by
  induction t generalizing st items with
  | nil =>
      cases st with
      | text =>
          obtain rfl : [] = items := Option.some.inj h
          simp
      | escape => cases h
      | hex left value => cases h
  | cons b t ih =>
      rw [List.cons_append]
      cases st with
      | text =>
          rw [scan] at h ⊢
          split_ifs at h ⊢ with hb hraw
          · exact ih h
          · obtain ⟨l, hl, rfl⟩ := Option.map_eq_some_iff.mp h
            rw [ih hl, map_cons_append]
      | escape =>
          rw [scan] at h ⊢
          match R.escape b, h with
          | some (.byte c), h =>
              obtain ⟨l, hl, rfl⟩ := Option.map_eq_some_iff.mp h
              dsimp only
              rw [ih hl, map_cons_append]
          | some (.hex digits), h => exact ih h
      | hex left value =>
          rw [scan] at h ⊢
          match hexDigit b, h with
          | some digit, h =>
              dsimp only at h ⊢
              split_ifs at h ⊢ with hleft
              · obtain ⟨l, hl, rfl⟩ := Option.map_eq_some_iff.mp h
                rw [ih hl, map_cons_append]
              · exact ih h

theorem map_append_append {α : Type} {x : Option (List α)} {l l' : List α} :
    ((x.map (l ++ ·)).map (l' ++ ·)) = x.map (l' ++ l ++ ·) := by
  rw [Option.map_map]
  congr 1
  funext y
  exact (List.append_assoc l' l y).symm

theorem join_append (h : join items = some v) : join (items ++ more) = (join more).map (v ++ ·) := by
  induction items using join.induct generalizing v with
  | case1 =>
      obtain rfl : [] = v := Option.some.inj h
      simp
  | case2 b items ih =>
      rw [join] at h
      obtain ⟨w, hw, rfl⟩ := Option.map_eq_some_iff.mp h
      rw [List.cons_append, join, ih hw, map_cons_append]
  | case3 n hhigh m items hlow ih =>
      rw [join, if_pos hhigh, if_pos hlow] at h
      obtain ⟨w, hw, rfl⟩ := Option.map_eq_some_iff.mp h
      rw [List.cons_append, List.cons_append, join, if_pos hhigh, if_pos hlow, ih hw, map_append_append]
  | case4 n hhigh m items hlow =>
      rw [join, if_pos hhigh, if_neg hlow] at h
      cases h
  | case5 n items hhigh hitems =>
      rw [join.eq_def] at h
      dsimp only at h
      rw [if_pos hhigh] at h
      split at h
      · next m items => exact absurd rfl (hitems m items)
      · cases h
  | case6 n items hhigh hlow =>
      rw [join.eq_def] at h
      dsimp only at h
      rw [if_neg hhigh, if_pos hlow] at h
      cases h
  | case7 n items hhigh hlow ih =>
      rw [join.eq_def] at h
      dsimp only at h
      rw [if_neg hhigh, if_neg hlow] at h
      obtain ⟨w, hw, rfl⟩ := Option.map_eq_some_iff.mp h
      rw [List.cons_append, join.eq_def]
      dsimp only
      rw [if_neg hhigh, if_neg hlow, ih hw, map_append_append]

theorem unescape_append (h : unescape R t = some v) : unescape R (t ++ rest) = (unescape R rest).map (v ++ ·) := by
  obtain ⟨items, hscan, hjoin⟩ := Option.bind_eq_some_iff.mp h
  unfold unescape
  rw [scan_append hscan]
  cases scan R .text rest with
  | none => rfl
  | some more => exact join_append hjoin

theorem unescape_append_of_eq (h : unescape R t = some v) (hs : unescape R s = some rest) :
    unescape R (t ++ s) = some (v ++ rest) := by
  rw [unescape_append h, hs]
  rfl

end Lib.Escape

/-!
## 区切られた項の並び

RFC 4180 の `record` の文法と、一文字ずつ状態を進める構文解析。引用符、改行の文字、区切りの文字は引数である。RFC の `TEXTDATA` は印字できる文字に限るが、
ここでは、引用符、改行、区切りのほかのすべての文字とする。
-/

namespace Lib.Csv

variable {α : Type}

structure Dialect (α : Type) where
  quote : α
  breaks : List α
  separator : α
  separator_ne : separator ≠ quote

variable (D : Dialect α)

def TextData (b : α) : Prop := b ≠ D.separator ∧ b ≠ D.quote ∧ b ∉ D.breaks

inductive Escaped : List α → List α → Prop
  | nil : Escaped [] []
  | char {b : α} {t v : List α} (hb : b ≠ D.quote) (h : Escaped t v) : Escaped (b :: t) (b :: v)
  | quote {t v : List α} (h : Escaped t v) : Escaped (D.quote :: D.quote :: t) (D.quote :: v)

inductive Field : List α → List α → Prop
  | plain {t : List α} (h : ∀ b ∈ t, TextData D b) : Field t t
  | escaped {t v : List α} (h : Escaped D t v) : Field (D.quote :: (t ++ [D.quote])) v

inductive Record : List α → List (List α) → Prop
  | one {t v : List α} (h : Field D t v) : Record t [v]
  | cons {t v rest : List α} {vs : List (List α)} (h : Field D t v)
      (hrest : Record rest vs) : Record (t ++ D.separator :: rest) (v :: vs)

/-- 読んだ所。 -/
inductive State
  | start
  | plain
  | quoted
  | closing

variable [DecidableEq α]

def run : State → List α → List α → Option (List (List α))
  | .quoted, _, [] => none
  | .start, cur, [] => some [cur]
  | .plain, cur, [] => some [cur]
  | .closing, cur, [] => some [cur]
  | .start, cur, b :: s =>
      if b = D.quote then run .quoted cur s
      else if b = D.separator then (run .start [] s).map (cur :: ·)
      else if b ∈ D.breaks then none
      else run .plain (cur ++ [b]) s
  | .plain, cur, b :: s =>
      if b = D.quote then none
      else if b = D.separator then (run .start [] s).map (cur :: ·)
      else if b ∈ D.breaks then none
      else run .plain (cur ++ [b]) s
  | .quoted, cur, b :: s => if b = D.quote then run .closing cur s else run .quoted (cur ++ [b]) s
  | .closing, cur, b :: s =>
      if b = D.quote then run .quoted (cur ++ [D.quote]) s
      else if b = D.separator then (run .start [] s).map (cur :: ·)
      else none

def parse (s : List α) : Option (List (List α)) := run D .start [] s

variable {D} {t v cur rest s : List α} {vs : List (List α)}

def Ends (D : Dialect α) (s : List α) : Prop := s = [] ∨ ∃ rest, s = D.separator :: rest

def finish (D : Dialect α) (cur : List α) : List α → Option (List (List α))
  | [] => some [cur]
  | _ :: rest => (parse D rest).map (cur :: ·)

theorem run_plain (h : ∀ b ∈ t, TextData D b) (hs : Ends D s) : run D .plain cur (t ++ s) = finish D (cur ++ t) s := by
  induction t generalizing cur with
  | nil =>
      rw [List.nil_append, List.append_nil]
      rcases hs with rfl | ⟨rest, rfl⟩
      · rfl
      · rw [run, if_neg D.separator_ne, if_pos rfl]
        rfl
  | cons b t ih =>
      obtain ⟨hsep, hquote, hbreak⟩ := h b List.mem_cons_self
      rw [List.cons_append, run, if_neg hquote, if_neg hsep, if_neg hbreak, ih fun c hc => h c (List.mem_cons_of_mem b hc)]
      rw [List.append_assoc, List.singleton_append]

theorem run_escaped (h : Escaped D t v) (hs : Ends D s) : run D .quoted cur (t ++ D.quote :: s) = finish D (cur ++ v) s := by
  induction h generalizing cur with
  | nil =>
      rw [List.nil_append, List.append_nil, run, if_pos rfl]
      rcases hs with rfl | ⟨rest, rfl⟩
      · rfl
      · rw [run, if_neg D.separator_ne, if_pos rfl]
        rfl
  | @char b t v hb _ ih =>
      rw [List.cons_append, run, if_neg hb, ih, List.append_assoc, List.singleton_append]
  | @quote t v _ ih =>
      rw [List.cons_append, List.cons_append, run, if_pos rfl, run, if_pos rfl, ih, List.append_assoc, List.singleton_append]

theorem run_field (h : Field D t v) (hs : Ends D s) : run D .start [] (t ++ s) = finish D v s := by
  cases h with
  | @plain _ h =>
      cases t with
      | nil =>
          rcases hs with rfl | ⟨rest, rfl⟩
          · rfl
          · rw [List.nil_append, run, if_neg D.separator_ne, if_pos rfl]
            rfl
      | cons b t =>
          obtain ⟨hsep, hquote, hbreak⟩ := h b List.mem_cons_self
          rw [List.cons_append, run, if_neg hquote, if_neg hsep, if_neg hbreak,
            run_plain (fun c hc => h c (List.mem_cons_of_mem b hc)) hs]
          rfl
  | @escaped t _ h =>
      rw [List.cons_append, List.append_assoc, List.singleton_append, run, if_pos rfl, run_escaped h hs]
      rfl

theorem parse_of_record (h : Record D s vs) : parse D s = some vs := by
  induction h with
  | one h =>
      have hrun := run_field h (.inl rfl)
      rwa [List.append_nil] at hrun
  | @cons t v rest vs h _ ih =>
      have hrun := run_field h (.inr ⟨rest, rfl⟩)
      rw [parse, hrun, finish, ih]
      rfl

omit [DecidableEq α] in
theorem record_intercalate {l : List (List α × List α)} (hne : l ≠ []) (h : ∀ p ∈ l, Field D p.1 p.2) :
    Record D (List.intercalate [D.separator] (l.map Prod.fst)) (l.map Prod.snd) := by
  induction l with
  | nil => exact absurd rfl hne
  | cons p l ih =>
      cases l with
      | nil =>
          have hp := h p List.mem_cons_self
          simpa [List.intercalate] using Record.one hp
      | cons q l =>
          have hp := h p List.mem_cons_self
          have hl := ih (List.cons_ne_nil q l) fun x hx => h x (List.mem_cons_of_mem p hx)
          simpa [List.intercalate] using Record.cons hp hl

end Lib.Csv
