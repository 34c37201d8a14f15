import Mathlib.Tactic.Common
import UnixCommons.Lib.Machine
import UnixCommons.Stream.FileStreamBuf

/-!
# ファイルの流れの緩衝域の定理

書く側は、満ちた緩衝域に NUL が来ない限り、置いた文字を全て渡す。
-/

namespace UnixCommons.Stream.File

open Lib
open Lib.Cursor (overwrite length_overwrite getElem?_overwrite)
open Generics (arraySize arraySize_eq arraySize_lt resetArray length_resetArray)

/-! ## 書く側 -/

namespace OutStreamBuf

variable {s s' : OutStreamBuf} {c : UInt8} {bytes : Bytes} {n : Nat} {puts : List Put}

/-- `IO::write` に渡したか、これから渡す文字。 -/
def content (s : OutStreamBuf) : Bytes := s.written ++ s.buffer

theorem destroy_eq (s : OutStreamBuf) : s.destroy = s.content := by
  unfold destroy content
  split
  · rfl
  · rename_i h
    rw [Decidable.not_not.mp h, List.append_nil]

/-- 渡した文字の数は緩衝域の大きさの倍数であり、緩衝域は、何も置かれていない時だけ空である。 -/
structure Aligned (s : OutStreamBuf) : Prop where
  written : s.bufferSize ∣ s.written.length
  nonempty : s.buffer = [] → s.written = []

theorem Aligned.length_content (h : s.Aligned) (hsize : s.bufferSize < 2 ^ 32) :
    s.buffer.length = s.bufferSize ↔ s.content ≠ [] ∧ s.bufferSize ∣ s.content.length := by
  have hfits := s.fits
  rw [arraySize_eq hsize] at hfits
  have hpos := s.positive
  rw [content, List.length_append, Nat.dvd_add_right h.written]
  constructor
  · intro hfull
    refine ⟨fun hnil => ?_, hfull ▸ Nat.dvd_refl _⟩
    have hbuffer := (List.append_eq_nil_iff.mp hnil).2
    rw [hbuffer, List.length_nil] at hfull
    omega
  · rintro ⟨hne, hdvd⟩
    rcases Nat.eq_zero_or_pos s.buffer.length with hzero | hbuffer
    · have hnil := List.length_eq_zero_iff.mp hzero
      rw [hnil, h.nonempty hnil] at hne
      exact absurd rfl hne
    · exact Nat.le_antisymm hfits (Nat.le_of_dvd hbuffer hdvd)

theorem sputc_ne_eof {result : Int} (h : s.sputc c = some (s', result)) : result ≠ eof := by
  unfold sputc at h
  split at h
  · split at h
    · cases h
      unfold toIntType eof
      omega
    · cases h
  · unfold overflow at h
    split at h
    · cases h
    · dsimp only at h
      split at h
      · cases h
        decide
      · cases h
        decide

def putChar (s : OutStreamBuf) (c : UInt8) : Option OutStreamBuf := (s.sputc c).map (·.1)

theorem sputn_eq (s : OutStreamBuf) (bytes : Bytes) : s.sputn bytes = bytes.foldlM putChar s := by
  induction bytes generalizing s with
  | nil => rfl
  | cons c bytes ih =>
      rw [sputn, List.foldlM_cons, putChar]
      cases hput : s.sputc c with
      | none => rfl
      | some r => exact (if_neg (sputc_ne_eof hput)).trans (ih r.1)

theorem put_eq (s : OutStreamBuf) (op : Put) : s.put op = op.bytes.foldlM putChar s := by
  cases op with
  | sputc c => simp [put, Put.bytes, putChar]
  | sputn bytes => exact s.sputn_eq bytes

theorem foldlM_put (s : OutStreamBuf) (puts : List Put) :
    puts.foldlM put s = (puts.flatMap Put.bytes).foldlM putChar s := by
  induction puts generalizing s with
  | nil => rfl
  | cons op puts ih =>
      rw [List.foldlM_cons, put_eq, List.flatMap_cons, List.foldlM_append]
      congr 1
      funext t
      exact ih t

/-! ### 全てが確保された緩衝域 -/

theorem sputc_spec (hsize : s.bufferSize < 2 ^ 32) (c : UInt8) :
    ∃ s' result, s.sputc c = some (s', result) ∧ s'.bufferSize = s.bufferSize ∧
      s'.content = (if s.buffer.length = s.bufferSize ∧ c = 0 then s.content else s.content ++ [c]) ∧
      (s.Aligned → ¬ (s.buffer.length = s.bufferSize ∧ c = 0) → s'.Aligned) := by
  have harray := arraySize_eq hsize
  have hfits := s.fits
  have hpos := s.positive
  rw [harray] at hfits
  by_cases hlt : s.buffer.length < s.bufferSize
  · have hfull : ¬ (s.buffer.length = s.bufferSize ∧ c = 0) := fun h => Nat.ne_of_lt hlt h.1
    have hinside : s.buffer.length < arraySize s.bufferSize := by rwa [harray]
    refine ⟨_, _, (if_pos hlt).trans (dif_pos hinside), rfl, ?_, fun h _ => ⟨h.written, ?_⟩⟩
    · rw [if_neg hfull, content, content, List.append_assoc]
    · intro hnil
      exact absurd hnil (by simp)
  · have heq : s.buffer.length = s.bufferSize := Nat.le_antisymm hfits (Nat.le_of_not_lt hlt)
    have hne : s.buffer ≠ [] := List.ne_nil_of_length_pos (heq ▸ hpos)
    have hnot : notEof (toIntType c) = toIntType c := by
      rw [notEof, if_neg]
      unfold toIntType eof
      omega
    rw [sputc, if_neg hlt, overflow, dif_neg hne]
    dsimp only
    by_cases hc : c = 0
    · rw [if_neg (by rw [hnot, hc]; decide)]
      refine ⟨_, _, rfl, rfl, ?_, fun _ h => absurd ⟨heq, hc⟩ h⟩
      rw [if_pos ⟨heq, hc⟩, content, content, List.append_nil]
    · have hchar : UInt8.ofNat (toIntType c).toNat = c := by simp [toIntType]
      have hnonzero : notEof (toIntType c) ≠ 0 := by
        rw [hnot]
        exact fun h => hc (UInt8.toNat_inj.mp (Int.ofNat.inj h))
      rw [if_pos hnonzero]
      refine ⟨_, _, rfl, rfl, ?_, fun h _ => ⟨?_, ?_⟩⟩
      · rw [if_neg fun h => hc h.2, content, content]
        simp only [hchar]
      · rw [List.length_append, heq]
        exact (Nat.dvd_add_right h.written).mpr (Nat.dvd_refl _)
      · intro hnil
        cases hnil

def feed (s : OutStreamBuf) (c : UInt8) : OutStreamBuf := (s.putChar c).getD s

theorem putChar_spec (hsize : s.bufferSize < 2 ^ 32) (c : UInt8) :
    s.putChar c = some (s.feed c) ∧ (s.feed c).bufferSize = s.bufferSize ∧
    (s.feed c).content = (if s.buffer.length = s.bufferSize ∧ c = 0 then s.content else s.content ++ [c]) ∧
    (s.Aligned → ¬ (s.buffer.length = s.bufferSize ∧ c = 0) → (s.feed c).Aligned) := by
  obtain ⟨s', result, hput, hspec⟩ := sputc_spec hsize c
  have hchar : s.putChar c = some s' := by
    rw [putChar, hput]
    rfl
  have hfeed : s.feed c = s' := by
    rw [feed, hchar]
    rfl
  rw [hfeed]
  exact ⟨hchar, hspec⟩

theorem foldlM_putChar (hsize : s.bufferSize < 2 ^ 32) (bytes : Bytes) :
    bytes.foldlM putChar s = some (bytes.foldl feed s) ∧ (bytes.foldl feed s).bufferSize = s.bufferSize := by
  induction bytes generalizing s with
  | nil => exact ⟨rfl, rfl⟩
  | cons c bytes ih =>
      obtain ⟨hput, hsame, -⟩ := putChar_spec hsize c
      obtain ⟨hrest, hrest'⟩ := @ih (s.feed c) (by rwa [hsame])
      rw [List.foldlM_cons, hput, List.foldl_cons]
      exact ⟨hrest, hrest'.trans hsame⟩

theorem length_content_foldl (hsize : s.bufferSize < 2 ^ 32) (bytes : Bytes) :
    (bytes.foldl feed s).content.length ≤ s.content.length + bytes.length := by
  induction bytes generalizing s with
  | nil => exact Nat.le_refl _
  | cons c bytes ih =>
      obtain ⟨-, hsame, hcontent, -⟩ := putChar_spec hsize c
      have hfeed : (s.feed c).content.length ≤ s.content.length + 1 := by
        rw [hcontent]
        split
        · exact Nat.le_succ _
        · rw [List.length_append, List.length_singleton]
      have hrest := @ih (s.feed c) (by rwa [hsame])
      rw [List.foldl_cons, List.length_cons]
      omega

def NoNulWhenFull (bufferSize : Nat) (bytes : Bytes) : Prop := ∀ i, 0 < i → bufferSize ∣ i → bytes[i]? ≠ some 0

theorem noNulWhenFull_append : NoNulWhenFull n (bytes ++ [c]) ↔ NoNulWhenFull n bytes ∧
    ¬ (0 < bytes.length ∧ n ∣ bytes.length ∧ c = 0) := by
  constructor
  · intro h
    refine ⟨fun i hi hdvd hget => ?_, ?_⟩
    · refine h i hi hdvd ?_
      rw [List.getElem?_append_left (List.getElem?_eq_some_iff.mp hget).1, hget]
    · rintro ⟨hpos, hdvd, rfl⟩
      exact h bytes.length hpos hdvd List.getElem?_concat_length
  · rintro ⟨hbytes, hlast⟩ i hi hdvd hget
    rcases Nat.lt_or_ge i bytes.length with hlt | hge
    · rw [List.getElem?_append_left hlt] at hget
      exact hbytes i hi hdvd hget
    · have hi' : i = bytes.length := by
        have hlt := (List.getElem?_eq_some_iff.mp hget).1
        rw [List.length_append, List.length_singleton] at hlt
        omega
      subst hi'
      rw [List.getElem?_concat_length] at hget
      exact hlast ⟨hi, hdvd, Option.some.inj hget⟩

theorem content_foldl_iff (h : 0 < n) (hn : n < 2 ^ 32) (bytes : Bytes) :
    ((bytes.foldl feed (new n h)).content = bytes ↔ NoNulWhenFull n bytes) ∧
      ((bytes.foldl feed (new n h)).content = bytes → (bytes.foldl feed (new n h)).Aligned) := by
  induction bytes using List.reverseRecOn with
  | nil => exact ⟨iff_of_true rfl fun i _ _ hget => by simp at hget, fun _ => ⟨Nat.dvd_zero n, fun _ => rfl⟩⟩
  | append_singleton bytes c ih =>
      have hnew : (new n h).bufferSize < 2 ^ 32 := hn
      have hlength := length_content_foldl hnew bytes
      have hsize : (bytes.foldl feed (new n h)).bufferSize = n := (foldlM_putChar hnew bytes).2
      rw [List.foldl_append, List.foldl_cons, List.foldl_nil]
      generalize bytes.foldl feed (new n h) = s at ih hlength hsize ⊢
      have hsmall : s.bufferSize < 2 ^ 32 := by rwa [hsize]
      obtain ⟨-, -, hcontent, haligned⟩ := putChar_spec hsmall c
      have hzero : (new n h).content.length = 0 := rfl
      -- 落とした文字は、後から補われない。
      have hstep : (s.feed c).content = bytes ++ [c] ↔ s.content = bytes ∧ ¬ (s.buffer.length = s.bufferSize ∧ c = 0) := by
        rw [hcontent]
        split
        · rename_i hdrop
          refine iff_of_false (fun heq => ?_) fun hkeep => hkeep.2 hdrop
          rw [heq, List.length_append, List.length_singleton] at hlength
          omega
        · rename_i hkeep
          rw [List.append_cancel_right_eq, and_iff_left hkeep]
      have hfull : s.content = bytes → ((s.buffer.length = s.bufferSize ∧ c = 0) ↔
          (0 < bytes.length ∧ n ∣ bytes.length ∧ c = 0)) := by
        intro heq
        rw [(ih.2 heq).length_content hsmall, heq, hsize, List.length_pos_iff, and_assoc]
      rw [hstep, noNulWhenFull_append]
      refine ⟨⟨fun hkeep => ⟨ih.1.mp hkeep.1, ?_⟩, fun hok => ?_⟩, fun hkeep => haligned (ih.2 hkeep.1) hkeep.2⟩
      · rw [← hfull hkeep.1]
        exact hkeep.2
      · have heq := ih.1.mpr hok.1
        exact ⟨heq, by rw [hfull heq]; exact hok.2⟩

/-! ### 一部だけが確保された緩衝域 -/

theorem putChar_large (hsize : 2 ^ 32 ≤ s.bufferSize) (c : UInt8) :
    (s.buffer.length < arraySize s.bufferSize → ∃ s', s.putChar c = some s' ∧
        s'.bufferSize = s.bufferSize ∧ s'.buffer = s.buffer ++ [c] ∧ s'.written = s.written) ∧
      (arraySize s.bufferSize ≤ s.buffer.length → s.putChar c = none) := by
  have hlt : s.buffer.length < s.bufferSize :=
    Nat.lt_of_le_of_lt s.fits (Nat.lt_of_lt_of_le (arraySize_lt _) hsize)
  refine ⟨fun hinside => ?_, fun houtside => ?_⟩
  · rw [putChar, sputc, if_pos hlt, dif_pos hinside]
    exact ⟨_, rfl, rfl, rfl, rfl⟩
  · rw [putChar, sputc, if_pos hlt, dif_neg (Nat.not_lt.mpr houtside)]
    rfl

theorem foldlM_large (hsize : 2 ^ 32 ≤ s.bufferSize) (bytes : Bytes) :
    (s.buffer.length + bytes.length ≤ arraySize s.bufferSize →
        ∃ s', bytes.foldlM putChar s = some s' ∧ s'.content = s.content ++ bytes) ∧
      (arraySize s.bufferSize < s.buffer.length + bytes.length → bytes.foldlM putChar s = none) := by
  induction bytes generalizing s with
  | nil =>
      refine ⟨fun _ => ⟨s, rfl, (List.append_nil _).symm⟩, fun hover => ?_⟩
      have hfits := s.fits
      rw [List.length_nil] at hover
      omega
  | cons c bytes ih =>
      obtain ⟨hput, hfault⟩ := putChar_large hsize c
      rw [List.length_cons, List.foldlM_cons]
      rcases Nat.lt_or_ge s.buffer.length (arraySize s.bufferSize) with hlt | hge
      · obtain ⟨s', hs', hsame, hbuffer, hwritten⟩ := hput hlt
        obtain ⟨hfit, hover⟩ := @ih s' (by rwa [hsame])
        rw [hsame, hbuffer, List.length_append, List.length_singleton] at hfit hover
        have hcontent : s'.content = s.content ++ [c] := by
          rw [content, content, hbuffer, hwritten, List.append_assoc]
        refine ⟨fun hle => ?_, fun hlt => ?_⟩
        · obtain ⟨t, ht, hrest⟩ := hfit (by omega)
          refine ⟨t, by rw [hs']; exact ht, ?_⟩
          rw [hrest, hcontent, List.append_assoc, List.singleton_append]
        · rw [hs']
          exact hover (by omega)
      · refine ⟨fun hle => by omega, fun _ => ?_⟩
        rw [hfault hge]
        rfl

def HasRoom (bufferSize k : Nat) : Prop := bufferSize < 2 ^ 32 ∨ k ≤ arraySize bufferSize

theorem lifetime_iff (h : 0 < n) (puts : List Put) :
    lifetime n h puts = some (puts.flatMap Put.bytes) ↔
      NoNulWhenFull n (puts.flatMap Put.bytes) ∧ HasRoom n (puts.flatMap Put.bytes).length := by
  rw [lifetime, foldlM_put]
  generalize puts.flatMap Put.bytes = bytes
  rcases Nat.lt_or_ge n (2 ^ 32) with hsmall | hlarge
  · have hnew : (new n h).bufferSize < 2 ^ 32 := hsmall
    rw [(foldlM_putChar hnew bytes).1, Option.map_some, destroy_eq, Option.some.injEq,
      (content_foldl_iff h hsmall bytes).1]
    exact (and_iff_left (.inl hsmall)).symm
  · have hnew : 2 ^ 32 ≤ (new n h).bufferSize := hlarge
    have hzero : (new n h).buffer.length + bytes.length = bytes.length := Nat.zero_add _
    obtain ⟨hfit, hover⟩ := foldlM_large hnew bytes
    rw [hzero] at hfit hover
    constructor
    · intro hlife
      rcases Nat.lt_or_ge (arraySize n) bytes.length with hlt | hle
      · rw [hover hlt] at hlife
        cases hlife
      · refine ⟨fun i hi hdvd hget => ?_, .inr hle⟩
        -- 緩衝域が満ちることはない。
        have hin := (List.getElem?_eq_some_iff.mp hget).1
        have hni := Nat.le_of_dvd hi hdvd
        have hcut := arraySize_lt n
        omega
    · rintro ⟨-, hlt | hle⟩
      · omega
      · obtain ⟨s', hs', hcontent⟩ := hfit hle
        rw [hs', Option.map_some, destroy_eq, hcontent]
        rfl

end OutStreamBuf

/-! ## 読む側 -/

theorem toIntType_injective {c d : UInt8} (h : toIntType c = toIntType d) : c = d := UInt8.toNat_inj.mp (Int.ofNat.inj h)

theorem toIntType_ne_eof (c : UInt8) : toIntType c ≠ eof := by
  unfold toIntType eof
  omega

namespace Session

variable {s : Session} {op : Op} {bytes : Bytes}

/-- 保たれた文字の範囲の始まり。 -/
def low (s : Session) : Nat := if s.ended then s.sb.putBackSize else s.sb.eback

/-- 緩衝域の文字は、読んだ文字の列の終わりの部分であり、戻れるだけの文字が残っている。 -/
structure Sound (s : Session) : Prop where
  size : s.sb.buffer.length = s.sb.bufferSize
  room : s.sb.putBackSize < s.sb.bufferSize
  eback_le : s.sb.eback ≤ s.sb.putBackSize
  le_egptr : s.sb.putBackSize ≤ s.sb.egptr
  egptr_le : s.sb.egptr ≤ s.sb.bufferSize
  low_le : s.low ≤ s.sb.gptr
  gptr_le : s.sb.gptr ≤ s.sb.egptr
  eback_le_gptr : s.sb.eback ≤ s.sb.gptr
  short : s.sb.egptr - s.sb.eback ≤ s.delivered.length
  kept : ∀ k, 0 < k → k ≤ s.sb.egptr - s.low → s.sb.buffer[s.sb.egptr - k]? = s.delivered[s.delivered.length - k]?
  whole : s.sb.eback = 0 ∨ s.sb.egptr - s.sb.eback = s.delivered.length
  pos_le : s.pos ≤ s.front
  front_le : s.front ≤ s.delivered.length
  refilled : s.delivered.length ≤ s.front + (s.sb.egptr - s.sb.putBackSize)

theorem eback_le_low (h : s.Sound) : s.sb.eback ≤ s.low := by
  have := h.eback_le
  unfold low
  split
  · exact this
  · exact Nat.le_refl _

theorem Sound.getD (h : s.Sound) {p : Nat} (hlow : s.low ≤ p) (hp : p < s.sb.egptr) :
    toIntType (s.sb.buffer.getD p 0) = charAt s.delivered (s.delivered.length - (s.sb.egptr - p)) := by
  have hle := eback_le_low h
  have hsize := h.size
  have hegptr := h.egptr_le
  have hkept := h.kept (s.sb.egptr - p) (by omega) (by omega)
  rw [Nat.sub_sub_self (Nat.le_of_lt hp), List.getElem?_eq_getElem (by omega)] at hkept
  rw [charAt, ← hkept, List.getD_eq_getElem?_getD, List.getElem?_eq_getElem (by omega)]
  rfl

theorem Sound.current (h : s.Sound) (hlt : s.sb.gptr < s.sb.egptr) :
    s.sb.current = charAt s.delivered s.pos := h.getD h.low_le hlt

theorem sound_init {sb : InStreamBuf} {bufferSize putBackSize : Nat} {memory : Nat → UInt8}
    (hsize : bufferSize < 2 ^ 32) (hnew : InStreamBuf.new bufferSize putBackSize memory = some sb)
    (reads : List Bytes) : (init sb reads).Sound := by
  have hbuffer : (resetArray memory bufferSize).length = bufferSize :=
    (length_resetArray memory bufferSize).trans (arraySize_eq hsize)
  unfold InStreamBuf.new at hnew
  split at hnew
  · cases hnew
  · rename_i hlt
    cases hnew
    generalize resetArray memory bufferSize = buffer at hbuffer ⊢
    have hlow : (init ⟨bufferSize, putBackSize, buffer, putBackSize, putBackSize, putBackSize⟩
        reads).low = putBackSize := rfl
    refine ⟨hbuffer, by dsimp [init]; omega, Nat.le_refl _, Nat.le_refl _, by dsimp [init]; omega, Nat.le_refl _,
      Nat.le_refl _, Nat.le_refl _, ?_, ?_, .inr ?_, ?_, Nat.le_refl _, Nat.zero_le _⟩
    · simp [init]
    · intro k hpos hk
      rw [hlow] at hk
      simp [init] at hk
      omega
    · simp [init]
    · simp [pos, init]

theorem Sound.moved (h : s.Sound) {gptr : Nat} (hlow : s.low ≤ gptr) (hle : gptr ≤ s.sb.egptr) :
    (s.moved { s.sb with gptr }).Sound := by
  have heback := eback_le_low h
  have hfront := h.front_le
  refine ⟨h.size, h.room, h.eback_le, h.le_egptr, h.egptr_le, hlow, hle, heback.trans hlow, h.short,
    h.kept, h.whole, Nat.le_max_right _ _, ?_, ?_⟩
  · exact Nat.max_le.mpr ⟨hfront, Nat.sub_le _ _⟩
  · exact h.refilled.trans (Nat.add_le_add_right (Nat.le_max_left _ _) _)

end Session

namespace InStreamBuf

def putBackCount (sb : InStreamBuf) : Nat := min (sb.gptr - sb.eback) sb.putBackSize

def carried (sb : InStreamBuf) : Bytes :=
  if sb.putBackCount ≠ 0 then
    overwrite sb.buffer (sb.putBackSize - sb.putBackCount)
      ((sb.buffer.drop (sb.gptr - sb.putBackCount)).take sb.putBackCount)
  else sb.buffer

theorem refill_eq (sb : InStreamBuf) (read : Bytes) : sb.refill read =
    if read.length = 0 then ({ sb with buffer := overwrite sb.carried sb.putBackSize read }, eof)
    else
      ({ sb with
          buffer := overwrite sb.carried sb.putBackSize read
          eback := sb.putBackSize - sb.putBackCount
          gptr := sb.putBackSize
          egptr := sb.putBackSize + read.length },
        toIntType ((overwrite sb.carried sb.putBackSize read).getD sb.putBackSize 0)) := rfl

variable {sb : InStreamBuf}

theorem length_carried_part (h : sb.gptr ≤ sb.buffer.length) :
    ((sb.buffer.drop (sb.gptr - sb.putBackCount)).take sb.putBackCount).length = sb.putBackCount := by
  have hle : sb.putBackCount ≤ sb.gptr - sb.eback := Nat.min_le_left _ _
  rw [List.length_take, List.length_drop]
  omega

theorem length_carried (h : sb.gptr ≤ sb.buffer.length)
    (hroom : sb.putBackSize ≤ sb.buffer.length) : sb.carried.length = sb.buffer.length := by
  have hle : sb.putBackCount ≤ sb.putBackSize := Nat.min_le_right _ _
  unfold carried
  split
  · refine length_overwrite ?_
    rw [length_carried_part h]
    omega
  · rfl

theorem getElem?_carried (h : sb.gptr ≤ sb.buffer.length) (hge : sb.putBackSize ≤ sb.gptr)
    (i : Nat) : sb.carried[i]? =
      if sb.putBackSize - sb.putBackCount ≤ i ∧ i < sb.putBackSize
      then sb.buffer[sb.gptr - sb.putBackSize + i]? else sb.buffer[i]? := by
  have hle : sb.putBackCount ≤ sb.putBackSize := Nat.min_le_right _ _
  have hle' : sb.putBackCount ≤ sb.gptr - sb.eback := Nat.min_le_left _ _
  have hlen := length_carried_part h
  unfold carried
  split
  · rw [getElem?_overwrite (by omega), hlen, Nat.sub_add_cancel hle]
    split
    · rw [List.getElem?_take_of_lt (by omega), List.getElem?_drop]
      congr 1
      omega
    · rfl
  · rw [if_neg (by omega)]

theorem getElem?_underflow (sb : InStreamBuf) (read : Bytes) (h : sb.gptr ≤ sb.buffer.length)
    (hge : sb.putBackSize ≤ sb.gptr)
    (hread : sb.putBackSize + read.length ≤ sb.buffer.length) (i : Nat) :
    (overwrite sb.carried sb.putBackSize read)[i]? =
      if sb.putBackSize ≤ i ∧ i < sb.putBackSize + read.length then read[i - sb.putBackSize]?
      else if sb.putBackSize - sb.putBackCount ≤ i ∧ i < sb.putBackSize
      then sb.buffer[sb.gptr - sb.putBackSize + i]? else sb.buffer[i]? := by
  rw [getElem?_overwrite (by rw [length_carried h (hge.trans h)]; exact hread), getElem?_carried h hge]

theorem length_underflow (sb : InStreamBuf) (read : Bytes) (h : sb.gptr ≤ sb.buffer.length)
    (hge : sb.putBackSize ≤ sb.gptr) (hread : sb.putBackSize + read.length ≤ sb.buffer.length) :
    (overwrite sb.carried sb.putBackSize read).length = sb.buffer.length := by
  have hlen := length_carried h (hge.trans h)
  rw [length_overwrite (by omega), hlen]

end InStreamBuf

namespace Session

variable {s : Session}

def afterUnderflow (s : Session) : Session := s.recordRead.moved (s.sb.refill s.nextRead).1

theorem Sound.afterUnderflow_empty (h : s.Sound) (hend : s.sb.gptr = s.sb.egptr) (hread : s.nextRead = []) :
    s.afterUnderflow.Sound ∧ (s.sb.refill s.nextRead).2 = eof ∧ s.afterUnderflow.pos = s.pos ∧
      s.afterUnderflow.delivered = s.delivered ∧ s.afterUnderflow.ended = true := by
  have hsize := h.size
  have hle := h.le_egptr
  have hle' := h.egptr_le
  have hroom : s.sb.putBackSize + s.nextRead.length ≤ s.sb.buffer.length := by
    rw [hread, List.length_nil]
    omega
  have hbuffer := InStreamBuf.getElem?_underflow s.sb s.nextRead (by omega) (by omega) hroom
  have hlength := InStreamBuf.length_underflow s.sb s.nextRead (by omega) (by omega) hroom
  have heq : s.afterUnderflow =
      ⟨{ s.sb with buffer := overwrite s.sb.carried s.sb.putBackSize s.nextRead }, s.reads.tail,
      s.delivered, true, max s.front s.pos⟩ := by
    rw [afterUnderflow, InStreamBuf.refill_eq, if_pos (by rw [hread]; rfl)]
    simp only [Session.moved, recordRead, pos, hread, List.append_nil, ite_self, List.isEmpty_nil, Bool.or_true]
  have hpos : max s.front s.pos = s.front := Nat.max_eq_left h.pos_le
  rw [hpos] at heq
  rw [heq]
  refine ⟨⟨hlength.trans hsize, h.room, h.eback_le, hle, hle', ?_, h.gptr_le, h.eback_le_gptr,
    h.short, ?_, h.whole, h.pos_le, h.front_le, h.refilled⟩, ?_, rfl, rfl, rfl⟩
  · dsimp only [low]
    rw [if_pos rfl]
    omega
  · intro k hk hle''
    dsimp only [low] at hle'' ⊢
    rw [if_pos rfl] at hle''
    have hlow : s.low ≤ s.sb.putBackSize := by
      have := h.eback_le
      unfold low
      split
      · exact Nat.le_refl _
      · exact this
    rw [hbuffer, if_neg (by rw [hread, List.length_nil]; omega), if_neg (by omega)]
    exact h.kept k hk (by omega)
  · rw [InStreamBuf.refill_eq, if_pos (by rw [hread]; rfl)]

theorem Sound.afterUnderflow_read (h : s.Sound) (hend : s.sb.gptr = s.sb.egptr)
    (hread : s.nextRead ≠ []) (hfirst : s.ended = false)
    (hsize' : s.nextRead.length ≤ s.sb.readSize) :
    s.afterUnderflow.Sound ∧ (s.sb.refill s.nextRead).2 = charAt s.afterUnderflow.delivered s.pos ∧
      s.afterUnderflow.pos = s.pos ∧
      s.afterUnderflow.sb.gptr < s.afterUnderflow.sb.egptr ∧ s.afterUnderflow.delivered =
      s.delivered ++ s.nextRead ∧ s.afterUnderflow.ended = false := by
  have hsize := h.size
  have hle := h.le_egptr
  have hle' := h.egptr_le
  have hback := h.eback_le
  have hshort := h.short
  have hfront := h.front_le
  have hpos := List.length_pos_of_ne_nil hread
  have hroom : s.sb.putBackSize + s.nextRead.length ≤ s.sb.buffer.length := by
    have := h.room
    unfold InStreamBuf.readSize at hsize'
    omega
  have hcount : s.sb.putBackCount = min (s.sb.gptr - s.sb.eback) s.sb.putBackSize := rfl
  have hbuffer := InStreamBuf.getElem?_underflow s.sb s.nextRead (by omega) (by omega) hroom
  have hlength := InStreamBuf.length_underflow s.sb s.nextRead (by omega) (by omega) hroom
  have hat : s.pos = s.delivered.length := by
    unfold pos
    omega
  have heq : s.afterUnderflow =
      ⟨⟨s.sb.bufferSize, s.sb.putBackSize, overwrite s.sb.carried s.sb.putBackSize s.nextRead,
      s.sb.putBackSize - s.sb.putBackCount,
        s.sb.putBackSize, s.sb.putBackSize + s.nextRead.length⟩, s.reads.tail, s.delivered ++
        s.nextRead, false, s.front⟩ := by
    have hempty : s.nextRead.isEmpty = false := by
      cases hr : s.nextRead with
      | nil => exact absurd hr hread
      | cons => rfl
    have hmax : max s.front ((s.delivered ++ s.nextRead).length -
        (s.sb.putBackSize + s.nextRead.length - s.sb.putBackSize)) = s.front := by
      have := h.pos_le
      rw [List.length_append]
      omega
    rw [afterUnderflow, InStreamBuf.refill_eq, if_neg (by omega)]
    simp only [Session.moved, recordRead, pos, hfirst, hempty, Bool.or_false, Bool.false_eq_true, if_false, hmax]
  have hkept : ∀ k, 0 < k → k ≤ s.sb.putBackSize + s.nextRead.length - (s.sb.putBackSize - s.sb.putBackCount) →
      (overwrite s.sb.carried s.sb.putBackSize s.nextRead)[s.sb.putBackSize + s.nextRead.length - k]? =
        (s.delivered ++ s.nextRead)[(s.delivered ++ s.nextRead).length - k]? := by
    intro k hk hkle
    rw [hbuffer, List.length_append]
    rcases Nat.lt_or_ge s.nextRead.length k with hgt | hin
    · -- 前の緩衝域から写した文字。
      have hold := h.kept (k - s.nextRead.length) (by omega) (by
        unfold low
        rw [hfirst, if_neg (by decide)]
        omega)
      rw [if_neg (by omega), if_pos (by omega), List.getElem?_append_left (by omega)]
      have hsource : s.sb.gptr - s.sb.putBackSize + (s.sb.putBackSize + s.nextRead.length - k) =
          s.sb.egptr - (k - s.nextRead.length) := by omega
      have htarget : s.delivered.length + s.nextRead.length - k = s.delivered.length - (k - s.nextRead.length) := by omega
      rw [hsource, htarget, hold]
    · rw [if_pos (by omega), List.getElem?_append_right (by omega)]
      congr 1
      omega
  have hsound : s.afterUnderflow.Sound := by
    rw [heq]
    refine ⟨hlength.trans hsize, h.room, Nat.sub_le _ _, Nat.le_add_right _ _, ?_, Nat.sub_le _ _,
      Nat.le_add_right _ _, Nat.sub_le _ _, ?_, hkept, ?_, ?_, ?_, ?_⟩
    · dsimp only
      omega
    · dsimp only
      rw [List.length_append]
      omega
    · dsimp only
      rw [List.length_append]
      rcases h.whole with hzero | hall
      · omega
      · omega
    · have := h.pos_le
      dsimp only [pos]
      rw [List.length_append]
      omega
    · dsimp only
      rw [List.length_append]
      omega
    · have := h.pos_le
      dsimp only
      rw [List.length_append]
      omega
  have hgptr : s.afterUnderflow.sb.gptr < s.afterUnderflow.sb.egptr := by
    rw [heq]
    dsimp only
    omega
  have hpos' : s.afterUnderflow.pos = s.pos := by
    rw [heq, hat]
    dsimp only [pos]
    rw [List.length_append]
    omega
  refine ⟨hsound, ?_, hpos', hgptr, ?_, ?_⟩
  · have hcurrent := hsound.current hgptr
    rw [hpos'] at hcurrent
    rw [← hcurrent, heq, InStreamBuf.refill_eq, if_neg (by omega)]
    rfl
  · rw [heq]
  · rw [heq]

variable {op : Op}

theorem pos_moved (s : Session) (gptr : Nat) :
    (s.moved { s.sb with gptr }).pos = s.delivered.length - (s.sb.egptr - gptr) := rfl

theorem charAt_length (bytes : Bytes) : charAt bytes bytes.length = eof := by
  rw [charAt, List.getElem?_eq_none (Nat.le_refl _)]
  rfl

theorem charAt_ne_eof {bytes : Bytes} {i : Nat} (h : i < bytes.length) : charAt bytes i ≠ eof := by
  rw [charAt, List.getElem?_eq_getElem h]
  exact toIntType_ne_eof _

theorem Sound.pos_lt (h : s.Sound) (hlt : s.sb.gptr < s.sb.egptr) : s.pos < s.delivered.length := by
  have hshort := h.short
  have hback := h.eback_le_gptr
  unfold pos
  omega

theorem Sound.pos_eq (h : s.Sound) (hge : ¬ s.sb.gptr < s.sb.egptr) : s.pos = s.delivered.length := by
  have hle := h.gptr_le
  unfold pos
  omega

theorem Sound.afterUnderflow (h : s.Sound) (hge : ¬ s.sb.gptr < s.sb.egptr)
    (hsize : s.nextRead.length ≤ s.sb.readSize) (hok : s.ended = true → s.nextRead = []) :
    s.afterUnderflow.Sound ∧ (s.sb.refill s.nextRead).2 = charAt s.afterUnderflow.delivered s.pos ∧
      s.afterUnderflow.pos = s.pos ∧
      (((s.sb.refill s.nextRead).2 = eof ∧ s.afterUnderflow.ended = true ∧ s.afterUnderflow.delivered.length = s.pos) ∨
        ((s.sb.refill s.nextRead).2 ≠ eof ∧ s.afterUnderflow.sb.gptr < s.afterUnderflow.sb.egptr)) := by
  have hend : s.sb.gptr = s.sb.egptr := Nat.le_antisymm h.gptr_le (Nat.le_of_not_lt hge)
  have hpos := h.pos_eq hge
  by_cases hread : s.nextRead = []
  · obtain ⟨hsound, hresult, hpos', hdelivered, hended⟩ := h.afterUnderflow_empty hend hread
    refine ⟨hsound, ?_, hpos', .inl ⟨hresult, hended, by rw [hdelivered, hpos]⟩⟩
    rw [hresult, hdelivered, hpos, charAt_length]
  · have hfirst : s.ended = false := by
      by_contra hne
      exact hread (hok (eq_true_of_ne_false hne))
    obtain ⟨hsound, hresult, hpos', hgptr, -, -⟩ := h.afterUnderflow_read hend hread hfirst hsize
    refine ⟨hsound, hresult, hpos', .inr ⟨?_, hgptr⟩⟩
    rw [hresult, ← hpos']
    exact charAt_ne_eof (hsound.pos_lt hgptr)

theorem Sound.room_read (h : s.Sound) (hsize : s.nextRead.length ≤ s.sb.readSize) :
    s.sb.putBackSize + s.nextRead.length ≤ s.sb.buffer.length := by
  have hbuffer := h.size
  have hroom := h.room
  unfold InStreamBuf.readSize at hsize
  omega

theorem step_sgetc (hge : ¬ s.sb.gptr < s.sb.egptr)
    (hroom : s.sb.putBackSize + s.nextRead.length ≤ s.sb.buffer.length) :
    s.step .sgetc = some (s.afterUnderflow, (s.sb.refill s.nextRead).2) := by
  simp only [step, InStreamBuf.sgetc, if_neg hge, InStreamBuf.underflow, if_pos hroom]
  rfl

theorem step_sbumpc (hge : ¬ s.sb.gptr < s.sb.egptr)
    (hroom : s.sb.putBackSize + s.nextRead.length ≤ s.sb.buffer.length)
    (hpos : s.afterUnderflow.pos = s.pos) (hle : s.pos ≤ s.front) :
    s.step .sbumpc =
      some (if (s.sb.refill s.nextRead).2 = eof then (s.afterUnderflow, eof)
        else (s.afterUnderflow.moved { s.afterUnderflow.sb with gptr := s.afterUnderflow.sb.gptr + 1 },
          s.afterUnderflow.sb.current)) := by
  simp only [step, InStreamBuf.sbumpc, if_neg hge, InStreamBuf.underflow, if_pos hroom, Option.map_some]
  congr 1
  split
  · rfl
  · refine Prod.ext ?_ rfl
    have hfront : max s.front s.pos = s.front := Nat.max_eq_left hle
    have hmax : s.afterUnderflow.front = s.front := by
      rw [← hfront, ← hpos]
      rfl
    simp only [Session.moved]
    rw [hmax]
    rfl

theorem Sound.back (h : s.Sound) (hlt : s.sb.eback < s.sb.gptr)
    (hok : s.ended = true → s.sb.putBackSize < s.sb.gptr ∨ s.sb.gptr = s.sb.eback) :
    (s.moved { s.sb with gptr := s.sb.gptr - 1 }).Sound ∧ (s.moved { s.sb with gptr := s.sb.gptr - 1 }).pos + 1 = s.pos ∧
      toIntType (s.sb.buffer.getD (s.sb.gptr - 1) 0) = charAt s.delivered
      (s.moved { s.sb with gptr := s.sb.gptr - 1 }).pos := by
  have hle := h.gptr_le
  have hshort := h.short
  have hlow : s.low ≤ s.sb.gptr - 1 := by
    unfold low
    split
    · rename_i hended
      have := hok hended
      omega
    · omega
  refine ⟨h.moved hlow (by omega), ?_, ?_⟩
  · rw [pos_moved]
    unfold pos
    omega
  · rw [pos_moved]
    exact h.getD hlow (by omega)

theorem Sound.stuck (h : s.Sound) (hge : ¬ s.sb.eback < s.sb.gptr) : s.pos = 0 ∨ s.sb.putBackSize ≤ s.front - s.pos := by
  have hback := h.eback_le_gptr
  have hle := h.gptr_le
  have hshort := h.short
  have hrefilled := h.refilled
  have hbuffer := h.le_egptr
  unfold pos
  rcases h.whole with hzero | hall
  · omega
  · omega

theorem Sound.step (h : s.Sound) (hsize : s.nextRead.length ≤ s.sb.readSize) (hok : s.Admits op) :
    ∃ s' result, s.step op = some (s', result) ∧ s'.Sound ∧ s.Correct op s' result := by
  have hroom := h.room_read hsize
  cases op with
  | sgetc =>
      by_cases hlt : s.sb.gptr < s.sb.egptr
      · have hstep : s.step .sgetc = some (s.moved s.sb, s.sb.current) := by
          simp only [Session.step, InStreamBuf.sgetc, if_pos hlt, Option.map_some]
        refine ⟨_, _, hstep, h.moved h.low_le h.gptr_le, rfl, h.current hlt, fun heof => ?_⟩
        exact absurd ((h.current hlt).symm.trans heof) (charAt_ne_eof (h.pos_lt hlt))
      · obtain ⟨hsound, hresult, hpos, hend⟩ := h.afterUnderflow hlt hsize fun he => (hok he).resolve_left hlt
        refine ⟨_, _, step_sgetc hlt hroom, hsound, hpos, hresult, fun heof => ?_⟩
        rcases hend with ⟨-, hended, -⟩ | ⟨hne, -⟩
        · exact hended
        · exact absurd heof hne
  | sbumpc =>
      by_cases hlt : s.sb.gptr < s.sb.egptr
      · have hstep : s.step .sbumpc = some (s.moved { s.sb with gptr := s.sb.gptr + 1 }, s.sb.current) := by
          simp only [Session.step, InStreamBuf.sbumpc, if_pos hlt, Option.map_some]
        have hposlt := h.pos_lt hlt
        refine ⟨_, _, hstep, h.moved (Nat.le_succ_of_le h.low_le) hlt, ?_, h.current hlt, fun heof => ?_⟩
        · have hshort := h.short
          have hback := h.eback_le_gptr
          change s.delivered.length - (s.sb.egptr - (s.sb.gptr + 1)) = min (s.pos + 1) s.delivered.length
          unfold pos at hposlt ⊢
          omega
        · exact absurd ((h.current hlt).symm.trans heof) (charAt_ne_eof hposlt)
      · obtain ⟨hsound, hresult, hpos, hend⟩ := h.afterUnderflow hlt hsize fun he => (hok he).resolve_left hlt
        have hstep := step_sbumpc hlt hroom hpos h.pos_le
        rcases hend with ⟨heof, hended, hlen⟩ | ⟨hne, hgptr⟩
        · rw [if_pos heof] at hstep
          refine ⟨_, _, hstep, hsound, ?_, heof.symm.trans hresult, fun _ => hended⟩
          rw [hpos, hlen]
          omega
        · rw [if_neg hne] at hstep
          have hcurrent := hsound.current hgptr
          have hposlt := hsound.pos_lt hgptr
          rw [hpos] at hcurrent hposlt
          refine ⟨_, _, hstep, hsound.moved (Nat.le_succ_of_le hsound.low_le) hgptr, ?_, hcurrent, fun heof => ?_⟩
          · have hshort := hsound.short
            have hback := hsound.eback_le_gptr
            rw [← hpos] at hposlt ⊢
            change s.afterUnderflow.delivered.length - (s.afterUnderflow.sb.egptr - (s.afterUnderflow.sb.gptr + 1)) =
              min (s.afterUnderflow.pos + 1) s.afterUnderflow.delivered.length
            unfold pos at hposlt ⊢
            omega
          · exact absurd (hcurrent.symm.trans heof) (charAt_ne_eof hposlt)
  | sungetc =>
      by_cases hlt : s.sb.eback < s.sb.gptr
      · have hstep : s.step .sungetc = some (s.moved { s.sb with gptr := s.sb.gptr - 1 },
            toIntType (s.sb.buffer.getD (s.sb.gptr - 1) 0)) := by
          simp only [Session.step, InStreamBuf.sungetc, if_pos hlt]
          rfl
        obtain ⟨hsound, hpos, hchar⟩ := h.back hlt hok
        exact ⟨_, _, hstep, hsound, .inl ⟨hpos, hchar⟩⟩
      · have hstep : s.step .sungetc = some (s.moved s.sb, eof) := by
          simp only [Session.step, InStreamBuf.sungetc, if_neg hlt]
        exact ⟨_, _, hstep, h.moved h.low_le h.gptr_le, .inr ⟨rfl, rfl, h.stuck hlt⟩⟩
  | sputbackc c =>
      by_cases hback : s.sb.eback < s.sb.gptr ∧ s.sb.buffer.getD (s.sb.gptr - 1) 0 = c
      · have hstep : s.step (.sputbackc c) = some (s.moved { s.sb with gptr := s.sb.gptr - 1 },
            toIntType (s.sb.buffer.getD (s.sb.gptr - 1) 0)) := by
          simp only [Session.step, InStreamBuf.sputbackc, if_pos hback]
          rfl
        obtain ⟨hsound, hpos, hchar⟩ := h.back hback.1 hok
        exact ⟨_, _, hstep, hsound, .inl ⟨hpos, hchar, congrArg toIntType hback.2⟩⟩
      · have hstep : s.step (.sputbackc c) = some (s.moved s.sb, eof) := by
          simp only [Session.step, InStreamBuf.sputbackc, if_neg hback]
        refine ⟨_, _, hstep, h.moved h.low_le h.gptr_le, .inr ⟨rfl, rfl, ?_⟩⟩
        by_cases hlt : s.sb.eback < s.sb.gptr
        · obtain ⟨-, hpos, hchar⟩ := h.back hlt hok
          refine .inr (.inr fun hget => hback ⟨hlt, ?_⟩)
          have hprev : (s.moved { s.sb with gptr := s.sb.gptr - 1 }).pos = s.pos - 1 := by omega
          rw [hprev, charAt, hget] at hchar
          exact toIntType_injective hchar
        · exact (h.stuck hlt).imp_right .inl

/-- `IO::read` は、求められた数までを読む。 -/
def Bounded (s : Session) : Prop := ∀ read ∈ s.reads, read.length ≤ s.sb.readSize

theorem Bounded.nextRead (h : s.Bounded) : s.nextRead.length ≤ s.sb.readSize := by
  unfold Session.nextRead
  cases hreads : s.reads with
  | nil => exact Nat.zero_le _
  | cons read reads => exact h read (hreads ▸ List.mem_cons_self)

theorem underflow_readSize {sb sb' : InStreamBuf} {read : Bytes} {result : Int}
    (h : sb.underflow read = some (sb', result)) : sb'.readSize = sb.readSize := by
  unfold InStreamBuf.underflow at h
  split at h
  · rw [Option.some.injEq, InStreamBuf.refill_eq] at h
    split at h <;> cases h <;> rfl
  · cases h

theorem step_sb {s' : Session} {result : Int} (hstep : s.step op = some (s', result)) :
    s'.sb.readSize = s.sb.readSize ∧ (s'.reads = s.reads ∨ s'.reads = s.reads.tail) := by
  have hreads : ∀ sb, ((if s.sb.gptr < s.sb.egptr then s else s.recordRead).moved sb).reads = s.reads ∨
      ((if s.sb.gptr < s.sb.egptr then s else s.recordRead).moved sb).reads = s.reads.tail := by
    intro sb
    split
    · exact .inl rfl
    · exact .inr rfl
  cases op with
  | sgetc =>
      obtain ⟨⟨sb, r⟩, hget, heq⟩ := Option.map_eq_some_iff.mp hstep
      cases heq
      refine ⟨?_, hreads sb⟩
      unfold InStreamBuf.sgetc at hget
      split at hget
      · cases hget
        rfl
      · exact underflow_readSize hget
  | sbumpc =>
      obtain ⟨⟨sb, r⟩, hget, heq⟩ := Option.map_eq_some_iff.mp hstep
      cases heq
      refine ⟨?_, hreads sb⟩
      unfold InStreamBuf.sbumpc at hget
      split at hget
      · cases hget
        rfl
      · obtain ⟨⟨sb', r'⟩, hunder, heq⟩ := Option.map_eq_some_iff.mp hget
        have hsize := underflow_readSize hunder
        dsimp only at heq
        split at heq <;> cases heq <;> exact hsize
  | sungetc =>
      have hs' : s.moved s.sb.sungetc.1 = s' := congrArg Prod.fst (Option.some.inj hstep)
      rw [← hs']
      refine ⟨?_, .inl rfl⟩
      simp only [Session.moved, InStreamBuf.sungetc]
      split <;> rfl
  | sputbackc c =>
      have hs' : s.moved (s.sb.sputbackc c).1 = s' := congrArg Prod.fst (Option.some.inj hstep)
      rw [← hs']
      refine ⟨?_, .inl rfl⟩
      simp only [Session.moved, InStreamBuf.sputbackc]
      split <;> rfl

theorem Bounded.step (h : s.Bounded) {s' : Session} {result : Int}
    (hstep : s.step op = some (s', result)) : s'.Bounded := by
  obtain ⟨hsize, hreads⟩ := step_sb hstep
  intro read hmem
  rw [hsize]
  rcases hreads with heq | heq
  · exact h read (heq ▸ hmem)
  · exact h read (List.mem_of_mem_tail (heq ▸ hmem))

def next (s : Session) (op : Op) : Option Session := (s.step op).map (·.1)

theorem sound_of_execute {s₀ : Session} {ops : List Op} (hsound : s₀.Sound) (hbounded : s₀.Bounded)
    (hok : Along next Admits s₀ ops) (h : execute next s₀ ops = some s) : s.Sound ∧ s.Bounded := by
  refine execute_invariant (I := fun s => s.Sound ∧ s.Bounded) (fun s op t hs hop hstep => ?_) ⟨hsound, hbounded⟩ hok h
  obtain ⟨s', result, hs', hsound', -⟩ := hs.1.step hs.2.nextRead hop
  rw [next, hs'] at hstep
  cases hstep
  exact ⟨hsound', hs.2.step hs'⟩

end Session

/-- 書く側は、一度に入る文字が配列に収まり、満ちた緩衝域に NUL が来ない時、しかもその時に限って、置いた文字を全て渡す。
読む側は、大きさが切り詰められず、空の読み込みの後に、最後に読んだ文字の前へ戻らない限り、どの操作でも正しい。 -/
theorem file_stream_buffers_iff {bufferSize : Nat} (h : 0 < bufferSize) (puts : List OutStreamBuf.Put)
    {inSize putBackSize : Nat} {memory : Nat → UInt8} {sb : InStreamBuf} {reads : List Bytes} {ops : List Op}
    {s : Session} (hsize : inSize < 2 ^ 32) (hnew : InStreamBuf.new inSize putBackSize memory = some sb)
    (hreads : ∀ read ∈ reads, read.length ≤ sb.readSize)
    (hok : Along Session.next Session.Admits (.init sb reads) ops)
    (hrun : execute Session.next (.init sb reads) ops = some s) :
    (OutStreamBuf.lifetime bufferSize h puts = some (puts.flatMap OutStreamBuf.Put.bytes) ↔
        OutStreamBuf.NoNulWhenFull bufferSize (puts.flatMap OutStreamBuf.Put.bytes) ∧
          OutStreamBuf.HasRoom bufferSize (puts.flatMap OutStreamBuf.Put.bytes).length) ∧
      ∀ op, s.Admits op → s.Right op := by
  obtain ⟨hsound, hbounded⟩ := Session.sound_of_execute (Session.sound_init hsize hnew reads) hreads hok hrun
  refine ⟨OutStreamBuf.lifetime_iff h puts, fun op hop => ?_⟩
  obtain ⟨s', result, hstep, -, hcorrect⟩ := hsound.step hbounded.nextRead hop
  exact ⟨s', result, hstep, hcorrect⟩

theorem file_stream_buffers_iff_sample :
    (OutStreamBuf.lifetime 2 (by decide) [.sputc 0, .sputn [98, 99]] = some [0, 98, 99] ↔
        OutStreamBuf.NoNulWhenFull 2 [0, 98, 99] ∧ OutStreamBuf.HasRoom 2 3) ∧
      ∀ op, Session.Admits ⟨⟨3, 2, [97, 98, 98], 1, 2, 3⟩, [], [97, 98], true, 2⟩ op →
        Session.Right ⟨⟨3, 2, [97, 98, 98], 1, 2, 3⟩, [], [97, 98], true, 2⟩ op := by
  have hnew : InStreamBuf.new 3 2 (fun _ => 0) = some ⟨3, 2, [0, 0, 0], 2, 2, 2⟩ := rfl
  have hrun : execute Session.next (.init ⟨3, 2, [0, 0, 0], 2, 2, 2⟩ [[97], [98]]) [.sbumpc, .sbumpc, .sbumpc, .sungetc] =
      some ⟨⟨3, 2, [97, 98, 98], 1, 2, 3⟩, [], [97, 98], true, 2⟩ := by decide
  exact file_stream_buffers_iff (by decide) [.sputc 0, .sputn [98, 99]] (by decide) hnew (by decide)
    (by decide) hrun

/-- 一文字の緩衝域に `a` と NUL を置くと、NUL が落ちる。終わりまで読んだ後に二つ戻ると、`a` でなく `b` が返る。 -/
theorem file_stream_buffers_differ :
    (¬ ∀ (bufferSize : Nat) (h : 0 < bufferSize) (puts : List OutStreamBuf.Put),
        OutStreamBuf.lifetime bufferSize h puts = some (puts.flatMap OutStreamBuf.Put.bytes)) ∧
      ¬ ∀ (sb : InStreamBuf) (reads : List Bytes) (ops : List Op) (s : Session),
        InStreamBuf.new 3 2 (fun _ => 0) = some sb → (∀ read ∈ reads, read.length ≤ sb.readSize) →
        execute Session.next (.init sb reads) ops = some s → ∀ op, s.Right op := by
  refine ⟨fun h => ?_, fun h => ?_⟩
  · exact absurd (h 1 (by decide) [.sputn [97, 0]]) (by decide)
  · have hrun : execute Session.next (.init ⟨3, 2, [0, 0, 0], 2, 2, 2⟩ [[97], [98]])
        [.sbumpc, .sbumpc, .sbumpc, .sungetc] =
        some ⟨⟨3, 2, [97, 98, 98], 1, 2, 3⟩, [], [97, 98], true, 2⟩ := by decide
    obtain ⟨s', result, hstep, hcorrect⟩ := h _ _ _ _ rfl (by decide) hrun .sungetc
    cases hstep
    unfold Session.Correct at hcorrect
    revert hcorrect
    decide

end UnixCommons.Stream.File
