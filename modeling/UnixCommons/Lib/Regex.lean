import Mathlib.Data.List.TakeWhile
import Mathlib.Logic.Function.Basic

/-!
# 正規表現

文字の集合とその繰り返し、連接、`?`、番号の付いた括弧からなる正規表現。照合は先に試したものが勝つ読み方であり、繰り返しと `?` は長い方から試し、
続きが失敗すれば短い方へ戻る。
-/

namespace Lib

variable {α β : Type}

inductive Regex (α : Type)
  | one (p : α → Bool)
  | many (p : α → Bool)
  | seq (r₁ r₂ : Regex α)
  | opt (r : Regex α)
  | group (i : Nat) (r : Regex α)

def Regex.some (p : α → Bool) : Regex α := .seq (.one p) (.many p)

def Regex.all : List (Regex α) → Regex α → Regex α
  | [], r => r
  | r :: rs, last => .seq r (Regex.all rs last)

/-- 括弧ごとの文字列。照合に加わらなかった括弧は `none` である。 -/
abbrev Groups (α : Type) := Nat → Option (List α)

def runMany (p : α → Bool) : List α → (List α → Option β) → Option β
  | [], k => k []
  | a :: s, k => if p a then (runMany p s k).or (k (a :: s)) else k (a :: s)

/-- `s` の先頭と照合し、残りと括弧で `k` を続ける。 -/
def Regex.run : Regex α → List α → Groups α → (List α → Groups α → Option β) → Option β
  | .one _, [], _, _ => none
  | .one p, a :: s, g, k => if p a then k s g else none
  | .many p, s, g, k => runMany p s fun s' => k s' g
  | .seq r₁ r₂, s, g, k => r₁.run s g fun s' g' => r₂.run s' g' k
  | .opt r, s, g, k => (r.run s g k).or (k s g)
  | .group i r, s, g, k =>
      r.run s g fun s' g' => k s' (Function.update g' i (Option.some (s.take (s.length - s'.length))))

def Regex.fullMatch (r : Regex α) (s : List α) : Option (Groups α) :=
  r.run s (fun _ => none) fun s' g => if s'.isEmpty then Option.some g else none

variable {p : α → Bool} {s : List α} {g : Groups α} {k : List α → Groups α → Option β}

theorem runMany_cons {a : α} {k : List α → Option β} :
    runMany p (a :: s) k = if p a then (runMany p s k).or (k (a :: s)) else k (a :: s) := rfl

theorem runMany_greedy {k : List α → Option β} (h : (k (s.dropWhile p)).isSome) : runMany p s k = k (s.dropWhile p) := by
  induction s with
  | nil => rfl
  | cons a s ih =>
      rw [runMany_cons]
      by_cases ha : p a = true
      · rw [List.dropWhile_cons_of_pos ha] at h ⊢
        rw [if_pos ha, ih h, Option.or_of_isSome h]
      · rw [List.dropWhile_cons_of_neg ha, if_neg ha]

theorem runMany_none {k : List α → Option β} (h : ∀ pre post, s = pre ++ post → (∀ a ∈ pre, p a = true) → k post = none) :
    runMany p s k = none := by
  induction s with
  | nil => exact h [] [] rfl (by simp)
  | cons a s ih =>
      have hk : k (a :: s) = none := h [] (a :: s) rfl (by simp)
      rw [runMany_cons]
      by_cases ha : p a = true
      · rw [if_pos ha, hk, Option.or_none]
        apply ih
        intro pre post he hpre
        refine h (a :: pre) post (by rw [he, List.cons_append]) ?_
        intro b hb
        rcases List.mem_cons.mp hb with rfl | hb
        · exact ha
        · exact hpre b hb
      · rw [if_neg ha, hk]

theorem run_many_greedy (h : (k (s.dropWhile p) g).isSome) : (Regex.many p).run s g k = k
    (s.dropWhile p) g := runMany_greedy h

theorem run_opt_some {r : Regex α} (h : (r.run s g k).isSome) : (Regex.opt r).run s g k = r.run s g k := by
  rw [Regex.run, Option.or_of_isSome h]

theorem run_opt_none {r : Regex α} (h : r.run s g k = none) : (Regex.opt r).run s g k = k s g := by
  rw [Regex.run, h, Option.none_or]

theorem take_sub_dropWhile (p : α → Bool) (s : List α) : s.take (s.length - (s.dropWhile p).length) = s.takeWhile p := by
  have hlen : s.length - (s.dropWhile p).length = (s.takeWhile p).length := by
    have := congrArg List.length (List.takeWhile_append_dropWhile (p := p) (l := s))
    rw [List.length_append] at this
    omega
  have htake : (s.takeWhile p ++ s.dropWhile p).take (s.takeWhile p).length = s.takeWhile p := List.take_left
  rw [hlen]
  rwa [List.takeWhile_append_dropWhile] at htake

end Lib
