import UnixCommons.String.Lemmas.Concat
import UnixCommons.String.Lemmas.Utf8Text

/-! # 整数と UTF-8 の文字列の定理 -/

/-!
## 整数の文字列の定理

`str_to_int` は、型に収まる数を表す文字列だけを読み、途中で溢れない。
-/

namespace UnixCommons.String.IntText

open Lib

/-- 読み取りは、途中で溢れずに、型に収まる数を表す文字列の時に限り成功し、その数を返す。 -/
def ReadsExactly (B : BinaryType) : Prop :=
  ∀ s v, ∃ result, strToInt B s v = .ok result ∧ ∀ w, result = (true, w) ↔ Denotes B.isSigned s w ∧ B.min ≤ w ∧ w ≤ B.max

/-- `x` の文字列が `str` から書かれ、その長さが返され、その文字列は `x` に読み戻される。 -/
def WritesBack (B : BinaryType) (x : Int) (memory : Memory) (str size : Nat) : Prop :=
  (intToStr B x memory str size).2 = (intText x).length ∧ (intText x).length < size ∧
    Wrote memory (intToStr B x memory str size).1 str (intText x) ∧ ∀ v, strToInt B (intText x) v = .ok (true, x)

theorem readsExactly (B : BinaryType) : ReadsExactly B :=
  fun s v => ⟨_, strToInt_eq B s v, strToInt_denotes B s v⟩

theorem int_text_conversion (B : BinaryType) :
    ReadsExactly B ∧
      ∀ x memory str size, B.min ≤ x → x ≤ B.max → B.digits10 + 3 ≤ size →
        if B.isSigned = true ∧ x = B.min then intToStr B x memory str size = (memory, 0)
        else WritesBack B x memory str size := by
  refine ⟨readsExactly B, ?_⟩
  intro x memory str size hlow hhigh hsize
  split_ifs with hmin
  · obtain ⟨hs, rfl⟩ := hmin
    exact intToStr_min hs memory str size
  · have hconv : Convertible B x := ⟨hlow, hhigh, fun hs hx => hmin ⟨hs, hx⟩⟩
    obtain ⟨hlen, hwrote⟩ := intToStr_wrote hconv hsize memory str
    have hfits := length_intText_le hconv
    refine ⟨hlen, by omega, hwrote, fun v => ?_⟩
    rw [strToInt_eq]
    exact congrArg Except.ok ((strToInt_denotes B (intText x) v x).mpr ⟨denotes_intText B hlow, hlow, hhigh⟩)

/-- 負の `int` と、真の `bool`。 -/
theorem int_text_conversion_sample :
    WritesBack .int (-1048576) (fun _ => 0xFF) 4 16 ∧ WritesBack .bool 1 (fun _ => 0xFF) 0 3 := by
  have hint := (int_text_conversion .int).2 (-1048576) (fun _ => 0xFF) 4 16 (by decide) (by decide) (by decide)
  have hbool := (int_text_conversion .bool).2 1 (fun _ => 0xFF) 0 3 (by decide) (by decide) (by decide)
  rw [if_neg (by decide)] at hint hbool
  exact ⟨hint, hbool⟩

/-- `int` の最小の値は書かれない。 -/
theorem int_to_str_skips_min :
    BinaryType.int.min = -2147483648 ∧ intToStr .int (-2147483648) (fun _ => 0xFF) 0 16 = (fun _ => 0xFF, 0) ∧
      ¬ WritesBack .int (-2147483648) (fun _ => 0xFF) 0 16 := by
  have hmin : BinaryType.int.min = -2147483648 := by decide
  have hrun : intToStr .int (-2147483648) (fun _ => 0xFF) 0 16 = (fun _ => 0xFF, 0) := by
    rw [← hmin]
    exact intToStr_min rfl _ 0 16
  refine ⟨hmin, hrun, ?_⟩
  rintro ⟨hlen, -⟩
  rw [hrun] at hlen
  exact absurd hlen (by simp [intText])

end UnixCommons.String.IntText

/-!
## 緩衝域への連結の定理

整数の `append` は終わりの桁を残さないので、連結が文字列の初めの部分を残すのは、どの整数の終わりの桁を除いても、それが変わらない時だけである。
-/

namespace UnixCommons.String.Concat

open Lib UTF8Handler IntText AsciiStringManip

/-- 連結は、文字列を繋いだものの、緩衝域に収まる最も長い初めの部分と NUL を残し、緩衝域の外に書かない。 -/
def Concatenates (memory : Memory) (buffer size : Nat) (args : List Arg) : Prop :=
  ∃ memory', concat memory buffer size args = .ok memory' ∧ Leaves memory memory' buffer size ((texts args).take (size - 1))

theorem concatenates_iff (args : List Arg) (memory : Memory) (buffer size : Nat) (hsize : 1 ≤ size)
    (hfits : Fits size args) :
    Concatenates memory buffer size args ↔ (kept args).take (size - 1) = (texts args).take (size - 1) := by
  obtain ⟨memory₁, hrun, hleaves⟩ := concat_spec hsize hfits memory buffer
  rw [← leaves_texts_iff hleaves, Concatenates]
  constructor
  · rintro ⟨memory', hrun', h⟩
    rw [hrun] at hrun'
    rwa [Except.ok.inj hrun']
  · intro h
    exact ⟨memory₁, hrun, h⟩

theorem concat_prefix_iff (args : List Arg) (memory : Memory) (buffer size : Nat) (hsize : 1 ≤ size)
    (hfits : Fits size args) :
    (Concatenates memory buffer size args ↔ (kept args).take (size - 1) = (texts args).take (size - 1)) ∧
      ((texts args).length < size → (Concatenates memory buffer size args ↔ ∀ arg ∈ args, ¬ arg.IsInt)) := by
  have hiff := concatenates_iff args memory buffer size hsize hfits
  refine ⟨hiff, fun hlt => ?_⟩
  have hle := length_kept_le args
  rw [hiff, List.take_of_length_le (by omega), List.take_of_length_le (by omega)]
  exact kept_eq_texts_iff

theorem concat_prefix_iff_abc :
    Concatenates (fun _ => 0xFF) 0 4 [.cstr ⟨['a', 'b'].map ascii, by decide⟩, .sub (['c', 'd'].map ascii)] :=
  (concat_prefix_iff [.cstr ⟨['a', 'b'].map ascii, by decide⟩, .sub (['c', 'd'].map ascii)] (fun _ => 0xFF) 0 4 (by decide)
    ⟨by decide, fun _ _ => ⟨by decide, fun _ _ => trivial⟩⟩).1.mpr (by decide)

/-- `int` の 5 の後の緩衝域は、空の文字列である。 -/
theorem concat_drops_digit :
    Fits 16 [.int .int 5 (by decide)] ∧ ¬ Concatenates (fun _ => 0xFF) 0 16 [.int .int 5 (by decide)] := by
  have hfits : Fits 16 [.int .int 5 (by decide)] := ⟨by decide, fun _ _ => trivial⟩
  refine ⟨hfits, ?_⟩
  rw [concatenates_iff _ _ _ _ (by decide) hfits]
  decide

end UnixCommons.String.Concat

/-!
## UTF-8 の文字列の定理

`utf8_to_wchar` の結果が `int` の添字と `unsigned` の大きさの配列に収まる限り、二つの変換は互いに逆である。
-/

namespace UnixCommons.String.Utf8Text

open Lib UTF8Handler Utf8 XmlEncode
open Generics (arraySize)

/-- NUL を含まないスカラー値の並びは、正しい UTF-8 になり、元に戻る。 -/
def FromWide (w : List Nat) : Prop :=
  WellFormed (wcharToUtf8 w) ∧ wcharToUtf8Pointer (some (w ++ [0])) = .ok (wcharToUtf8 w) ∧
    (w.mapM wcharToUtf8Char).map List.flatten = some (wcharToUtf8 w) ∧ utf8ToWchar (wcharToUtf8 w) = .ok (w ++ [0])

/-- どのバイトの並びでも、外に触れず、要素は一つ多いだけまでであり、正しい UTF-8 は元に戻る。 -/
def FromUtf8 (s : Bytes) : Prop :=
  (∀ e, utf8ToWchar s = .error e → e.IsFormat) ∧ (∀ dst, utf8ToWchar s = .ok dst → dst.length ≤ s.length + 1) ∧
    (WellFormed s → ∃ w, utf8ToWchar s = .ok (w ++ [0]) ∧ wcharToUtf8 w = s ∧
    (0 ∉ s → wcharToUtf8Pointer (some (w ++ [0])) = .ok s))

theorem fromWide_iff {w : List Nat} (h : Scalars w) : FromWide w ↔ Fits (wcharToUtf8 w) := by
  have hscalar : ∀ c ∈ w, IsScalar c := fun c hc => (h c hc).1
  have hzero : 0 ∉ w := fun h0 => absurd (h 0 h0).2 (Nat.lt_irrefl 0)
  have htext := wcharToUtf8_scalars hscalar
  obtain ⟨hleading, hvalue⟩ := leading_flatMap_encode hscalar
  have hflat : (leading (w.flatMap encode)).flatten = w.flatMap encode := by
    rw [hleading]
    rfl
  constructor
  · rintro ⟨-, -, -, hrun⟩
    by_contra hfits
    obtain ⟨e, -, herr⟩ := utf8ToWchar_of_not_fits hfits
    rw [herr] at hrun
    cases hrun
  · intro hfits
    rw [htext] at hfits
    unfold FromWide
    rw [htext]
    refine ⟨wellFormed_flatMap_encode hscalar, ?_, mapM_wcharToUtf8Char hscalar, ?_⟩
    · rw [← htext, wcharToUtf8, subStringLoop_eq, wcharToUtf8Pointer]
      exact pointerLoop_eq hzero []
    · rcases utf8ToWchar_of_fits hfits with ⟨-, hrun⟩ | ⟨hne, -⟩
      · rw [hrun, hvalue]
      · exact absurd hflat hne

theorem fromUtf8_iff (s : Bytes) : FromUtf8 s ↔ Fits s := by
  constructor
  · rintro ⟨hformat, -, -⟩
    by_contra hfits
    obtain ⟨e, hne, herr⟩ := utf8ToWchar_of_not_fits hfits
    exact hne (hformat e herr)
  · intro hfits
    rcases utf8ToWchar_of_fits hfits with ⟨-, hrun⟩ | ⟨hne, e, he, hrun⟩
    · refine ⟨?_, ?_, ?_⟩
      · intro e herr
        rw [hrun] at herr
        cases herr
      · intro dst hdst
        rw [hrun] at hdst
        obtain rfl := Except.ok.inj hdst
        have := length_leading_le s
        simpa using this
      · intro hw
        obtain ⟨cs, hcs, rfl⟩ := hw.exists_scalars
        obtain ⟨-, hvalue⟩ := leading_flatMap_encode hcs
        have htext := wcharToUtf8_scalars hcs
        refine ⟨cs, by rw [hrun, hvalue], htext, ?_⟩
        intro h0
        have hzero : 0 ∉ cs := fun hm => absurd (scalars_of_nonzero hcs h0 0 hm).2 (Nat.lt_irrefl 0)
        rw [← htext, wcharToUtf8, subStringLoop_eq, wcharToUtf8Pointer]
        exact pointerLoop_eq hzero []
    · refine ⟨?_, ?_, ?_⟩
      · intro e' herr
        rw [hrun] at herr
        obtain rfl := Except.error.inj herr
        exact he
      · intro dst hdst
        rw [hrun] at hdst
        cases hdst
      · intro hw
        exact absurd (flatten_leading_of_completes (completes_of_wellFormed hw)) hne

theorem utf8_wchar_inverse_iff (w : List Nat) (s : Bytes) :
    (Scalars w → (FromWide w ↔ Fits (wcharToUtf8 w))) ∧ (FromUtf8 s ↔ Fits s) :=
  ⟨fromWide_iff, fromUtf8_iff s⟩

theorem utf8_wchar_inverse_iff_two : FromWide [0x41, 0x20AC] := by
  have hscalar : ∀ c ∈ [0x41, 0x20AC], IsScalar c := by decide
  refine ((utf8_wchar_inverse_iff [0x41, 0x20AC] []).1 (by unfold Scalars; decide)).mpr ?_
  rw [wcharToUtf8_scalars hscalar, Fits, (leading_flatMap_encode hscalar).1]
  decide

/-- `2 ^ 32 - 1` バイトの ASCII の文字列では、配列の大きさが 0 になり、最初の要素が外に書かれる。 -/
theorem utf8_to_wchar_overruns :
    ∃ s : Bytes, s.length = 2 ^ 32 - 1 ∧ WellFormed s ∧ utf8ToWchar s = .error .outOfBounds ∧ ¬ FromUtf8 s := by
  obtain ⟨n, hn⟩ : ∃ n, n + 1 + 1 = 2 ^ 32 := ⟨2 ^ 32 - 2, by norm_num⟩
  have hrun : utf8ToWchar (List.replicate (n + 1) 0x41) = .error .outOfBounds := by
    have hcapacity : arraySize ((List.replicate (n + 1) (0x41 : UInt8)).length + 1) = 0 := by
      rw [List.length_replicate, hn]
      rfl
    have hstep := @toWcharLoop_complete [0x41] 0 []
        (isComplete_of_isSequence (isSequence_one.mpr (by decide))) (List.replicate n 0x41)
    have hsplit : List.replicate (n + 1) (0x41 : UInt8) = [0x41] ++ List.replicate n 0x41 := List.replicate_succ
    rw [utf8ToWchar, hcapacity, hsplit, hstep]
    rfl
  refine ⟨List.replicate (n + 1) 0x41,
    by rw [List.length_replicate]; omega, wellFormed_replicate (by decide) (n + 1), hrun, ?_⟩
  intro h
  have hformat := h.1 _ hrun
  simp [Fault.IsFormat] at hformat

/-- `dst` は、`maxOctets` バイトまでの、文字の境で終わる、最も長い先頭の部分である。 -/
def LongestWhole (src dst : Bytes) (maxOctets : Nat) : Prop :=
  dst <+: src ∧ dst.length ≤ maxOctets ∧ WellFormed dst ∧ ∀ p, p <+: src → p.length ≤ maxOctets →
    WellFormed p → p.length ≤ dst.length

theorem utf8_substr_longest (src : Bytes) (maxOctets : Nat) :
    (WellFormed src → ∃ dst, utf8Substr src maxOctets = .ok (some dst) ∧ LongestWhole src dst maxOctets) ∧
      ∀ dst, utf8Substr src maxOctets = .ok (some dst) → dst <+: src ∧ dst.length ≤ maxOctets ∧ Completes dst := by
  refine ⟨?_, ?_⟩
  · intro hw
    obtain ⟨k, hrun, hle, hsize, hwk, hlongest⟩ := substrLoop_wellFormed hw maxOctets 0
    have hlen : (src.take k).length = k := by rw [List.length_take, Nat.min_eq_left hsize]
    refine ⟨src.take k, ?_, List.take_prefix k src, by rwa [hlen], hwk, ?_⟩
    · rw [utf8Substr, hrun, ok_bind, Nat.zero_add]
      rfl
    · intro p hp hmax hwp
      rw [hlen]
      rw [List.prefix_iff_eq_take.mp hp] at hwp
      exact hlongest p.length hp.length_le hmax hwp
  · intro dst hdst
    rw [utf8Substr] at hdst
    rcases substrLoop_spec src maxOctets 0 with hrun | ⟨k, hrun, hle, hsize, hcomplete⟩
    · rw [hrun] at hdst
      cases hdst
    · rw [hrun, ok_bind, Nat.zero_add] at hdst
      obtain rfl : src.take k = dst := Option.some.inj (Except.ok.inj hdst)
      refine ⟨List.take_prefix k src, ?_, hcomplete⟩
      rw [List.length_take]
      omega

theorem utf8_substr_longest_two : ∃ dst, utf8Substr [0x41, 0xE2, 0x82, 0xAC] 3 = .ok (some dst) ∧
    LongestWhole [0x41, 0xE2, 0x82, 0xAC] dst 3 :=
  (utf8_substr_longest [0x41, 0xE2, 0x82, 0xAC] 3).1
    (.cons (s := [0x41]) (isSequence_one.mpr (by decide))
    (.cons (s := [0xE2, 0x82, 0xAC]) (isSequence_three.mpr (by decide)) .nil))

end UnixCommons.String.Utf8Text
