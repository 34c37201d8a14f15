import UnixCommons.Lib.Machine
import UnixCommons.Generics.DescriptorListener

/-!
# 記述子の読み込みの定理

どの読み込みの列でも、渡した文字は、読んだ文字と同じ順の同じ文字である。
-/

namespace UnixCommons.Generics.Listener

open Lib
open Generics (arraySize arraySize_eq arraySize_lt resetArray length_resetArray)
open Lib.Cursor (between overwrite between_append length_between length_overwrite take_overwrite)

/-! ## 行を渡すループ -/

section

variable {buffer : Bytes} {fuel lineStart chunk res n : Nat}

theorem not_mem_newline_of_memchr (h : memchr buffer chunk res = none) :
    newline ∉ between buffer chunk (chunk + res) := by
  have hnone := List.findIdx?_eq_none_iff.mp (Option.map_eq_none_iff.mp h)
  intro hmem
  exact absurd (hnone newline hmem) (by decide)

theorem memchr_spec {lineEnd : Nat} (hend : chunk + res ≤ buffer.length) (h : memchr buffer chunk res = some lineEnd) :
    chunk ≤ lineEnd ∧ lineEnd < chunk + res ∧ newline ∉ between buffer chunk lineEnd ∧
      between buffer lineEnd (lineEnd + 1) = [newline] := by
  obtain ⟨k, hk, rfl⟩ := Option.map_eq_some_iff.mp h
  obtain ⟨hlt, hget, hbefore⟩ := List.findIdx?_eq_some_iff_getElem.mp hk
  have hlen : (between buffer chunk (chunk + res)).length = chunk + res - chunk := length_between hend
  have hkres : k < res := by omega
  have htaken : (between buffer chunk (chunk + res)).take k = between buffer chunk (chunk + k) := by
    rw [between, between, List.take_take, Nat.add_sub_cancel_left, Nat.add_sub_cancel_left,
      Nat.min_eq_left (Nat.le_of_lt hkres)]
  refine ⟨Nat.le_add_right _ _, by omega, ?_, ?_⟩
  · rw [← htaken]
    intro hmem
    obtain ⟨j, hj, hjget⟩ := List.mem_take_iff_getElem.mp hmem
    exact hbefore j (by omega) (decide_eq_true hjget)
  · have hkbuffer : chunk + k < buffer.length := by omega
    have hnewline : buffer[chunk + k] = newline := by
      rw [← of_decide_eq_true hget]
      simp [between]
    rw [between, List.drop_eq_getElem_cons hkbuffer, hnewline, Nat.add_sub_cancel_left]
    rfl

/-- 渡した行と残りを合わせると、元の文字になる。 -/
theorem linesLoop_spec (hfuel : res ≤ fuel) (hstart : lineStart ≤ chunk)
    (hend : chunk + res ≤ buffer.length) (hpending : newline ∉ between buffer lineStart chunk) :
    ∃ lines lineStart' chunk' res', linesLoop buffer fuel lineStart chunk res = (lines, lineStart',
      chunk', res') ∧ lines.flatten ++ between buffer lineStart' (chunk' + res') = between
      buffer lineStart (chunk + res) ∧ (∀ line ∈ lines, IsLine line) ∧
        newline ∉ between buffer lineStart' (chunk' + res') ∧ chunk' + res' = chunk + res ∧
          ((lines = [] ∧ lineStart' = lineStart ∧ chunk' = chunk) ∨ (chunk < chunk' ∧ lineStart' = chunk')) := by
  induction fuel generalizing lineStart chunk res with
  | zero =>
      obtain rfl := Nat.le_zero.mp hfuel
      exact ⟨[], lineStart, chunk, 0, rfl, rfl, fun _ h => absurd h List.not_mem_nil, hpending, rfl,
        .inl ⟨rfl, rfl, rfl⟩⟩
  | succ fuel ih =>
      rw [linesLoop]
      cases hmem : memchr buffer chunk res with
      | none =>
          refine ⟨[], lineStart, chunk, res, rfl, rfl, fun _ h => absurd h List.not_mem_nil, ?_,
            rfl, .inl ⟨rfl, rfl, rfl⟩⟩
          rw [← between_append hstart (Nat.le_add_right chunk res), List.mem_append]
          exact not_or.mpr ⟨hpending, not_mem_newline_of_memchr hmem⟩
      | some lineEnd =>
          obtain ⟨hle, hlt, hbefore, hline⟩ := memchr_spec hend hmem
          have hrest : lineEnd + 1 + (res - (lineEnd - chunk + 1)) = chunk + res := by omega
          have hnil : between buffer (lineEnd + 1) (lineEnd + 1) = [] := by rw [between, Nat.sub_self, List.take_zero]
          have hres : res - (lineEnd - chunk + 1) ≤ fuel := by omega
          obtain ⟨lines, lineStart', chunk', res', hloop, hflat, hlines, hnew, hsum, hcase⟩ :=
            ih hres (Nat.le_refl (lineEnd + 1)) (by omega) (by rw [hnil]; exact List.not_mem_nil)
          rw [hrest] at hflat hsum
          refine ⟨_, lineStart', chunk', res', by dsimp only; rw [hloop], ?_, ?_, hnew, hsum, .inr ?_⟩
          · rw [List.flatten_cons, List.append_assoc, hflat]
            exact between_append (by omega) (by omega)
          · intro line hmemline
            rcases List.mem_cons.mp hmemline with rfl | hmemline
            · refine ⟨between buffer lineStart lineEnd, ?_, ?_⟩
              · rw [← hline]
                exact (between_append (by omega) (Nat.le_succ lineEnd)).symm
              · rw [← between_append hstart hle, List.mem_append]
                exact not_or.mpr ⟨hpending, hbefore⟩
            · exact hlines line hmemline
          · rcases hcase with ⟨-, rfl, rfl⟩ | ⟨hgt, rfl⟩
            · exact ⟨by omega, rfl⟩
            · exact ⟨by omega, rfl⟩

end

/-! ## 読んだ文字を置く -/

section

variable {context : DescriptorActionContext} {n : Nat} {fullLinesOnly : Bool} {bytes : Bytes}

def DescriptorActionContext.pending (context : DescriptorActionContext) : Bytes :=
  context.buffer.take context.usedBuffer

structure DescriptorActionContext.Waits (context : DescriptorActionContext) (n : Nat)
    (fullLinesOnly : Bool) : Prop where
  size : context.buffer.length = n
  used : context.usedBuffer < n
  noNewline : fullLinesOnly = true → newline ∉ context.pending
  empty : fullLinesOnly = false → context.usedBuffer = 0

theorem waits_init (hsize : n < 2 ^ 32) (hn : 0 < n) (descriptor : Int) (memory : Nat → UInt8) :
    (DescriptorActionContext.init descriptor memory n).Waits n fullLinesOnly :=
  ⟨(length_resetArray memory n).trans (arraySize_eq hsize), hn, fun _ => List.not_mem_nil, fun _ => rfl⟩

/-- `read` に渡す大きさは、配列の残りに収まる。 -/
theorem DescriptorActionContext.Waits.inside (h : context.Waits n fullLinesOnly)
    (hfits : bytes.length ≤ if ¬ fullLinesOnly then n else n - context.usedBuffer) :
    ¬ context.buffer.length < context.writePos fullLinesOnly + bytes.length := by
  have hsize := h.size
  have hused := h.used
  unfold DescriptorActionContext.writePos
  split at hfits
  · rename_i hmode
    rw [if_pos hmode]
    omega
  · rename_i hmode
    rw [if_neg hmode]
    omega

theorem consume_lines_spec (h : context.Waits n true) (hfits : bytes.length ≤ n - context.usedBuffer) :
    ∃ context' strs, context.consume n true bytes = (context', strs) ∧ context'.Waits n true ∧
      context'.descriptor = context.descriptor ∧
      context'.readEvent = context.readEvent ∧ strs.flatten ++ context'.pending = context.pending ++ bytes ∧
        ∀ str ∈ strs, IsLine str ∨ IsBlock n str := by
  have hused := h.used
  have hroom : context.usedBuffer + bytes.length ≤ context.buffer.length := by
    rw [h.size]
    omega
  have hlen : (overwrite context.buffer context.usedBuffer bytes).length = n := (length_overwrite hroom).trans h.size
  have hall : between (overwrite context.buffer context.usedBuffer bytes) 0
      (context.usedBuffer + bytes.length) = context.pending ++ bytes :=
    take_overwrite hroom
  have hold : newline ∉ between (overwrite context.buffer context.usedBuffer bytes) 0 context.usedBuffer := by
    have hpre : context.pending = between (overwrite context.buffer context.usedBuffer bytes) 0 context.usedBuffer := by
      have hsplit := @between_append _ (overwrite context.buffer context.usedBuffer bytes) _ _ _
          (Nat.zero_le context.usedBuffer)
        (Nat.le_add_right _ bytes.length)
      rw [hall] at hsplit
      refine (List.append_inj hsplit.symm ?_).1
      rw [DescriptorActionContext.pending, List.length_take_of_le (by omega), length_between (by omega)]
      rfl
    rw [← hpre]
    exact h.noNewline rfl
  unfold DescriptorActionContext.consume
  rw [if_pos rfl]
  dsimp only
  generalize overwrite context.buffer context.usedBuffer bytes = buffer at hlen hall hold ⊢
  obtain ⟨lines, lineStart, chunk, res, hloop, hflat, hlines, hrest, hsum, hcase⟩ :=
    linesLoop_spec (Nat.le_refl bytes.length) (Nat.zero_le context.usedBuffer) (by omega) hold
  rw [hall] at hflat
  rw [hloop]
  dsimp only
  split
  · rename_i hfull
    -- 満ちるのは、改行が一つも来なかった時だけである。
    obtain ⟨rfl, rfl, rfl⟩ : lines = [] ∧ lineStart = 0 ∧ chunk = context.usedBuffer := by
      rcases hcase with hcase | ⟨hgt, -⟩
      · exact hcase
      · omega
    rw [hfull] at hflat hrest
    rw [Nat.zero_add]
    refine ⟨_, _, rfl,
      ⟨hlen, by dsimp only; omega, fun _ => List.not_mem_nil, fun hfalse => nomatch hfalse⟩, rfl, rfl, ?_, ?_⟩
    · rw [← hflat]
      simp [DescriptorActionContext.pending]
    · intro str hstr
      obtain rfl := List.mem_singleton.mp hstr
      exact .inr ⟨length_between (Nat.le_of_eq hlen.symm), hrest⟩
  · rename_i hnotfull
    split
    · rename_i hmoved
      have hstart : lineStart = chunk := by
        rcases hcase with ⟨-, -, heq⟩ | ⟨-, heq⟩
        · exact absurd heq hmoved
        · exact heq
      rw [hstart] at hflat hrest
      have hrestlen : (between buffer chunk (chunk + res)).length = res := by
        rw [length_between (by omega), Nat.add_sub_cancel_left]
      have hpending : (overwrite buffer 0
          (between buffer chunk (chunk + res))).take res =
            between buffer chunk (chunk + res) := by
        have htake := @take_overwrite _ buffer (between buffer chunk (chunk + res)) 0 (by omega)
        rwa [Nat.zero_add, hrestlen] at htake
      refine ⟨_, _, rfl, ⟨?_, by dsimp only; omega, fun _ => ?_, fun hfalse => nomatch hfalse⟩, rfl,
        rfl, ?_, fun str hstr => .inl (hlines str hstr)⟩
      · dsimp only
        rw [length_overwrite (by omega), hlen]
      · rw [DescriptorActionContext.pending, hpending]
        exact hrest
      · rw [DescriptorActionContext.pending, hpending]
        exact hflat
    · rename_i hstay
      obtain ⟨rfl, rfl, -⟩ : lines = [] ∧ lineStart = 0 ∧ chunk = context.usedBuffer := by
        rcases hcase with hcase | ⟨hgt, -⟩
        · exact hcase
        · omega
      obtain rfl := Decidable.not_not.mp hstay
      obtain rfl : res = bytes.length := by omega
      exact ⟨_, _, rfl, ⟨hlen, by dsimp only; omega, fun _ => hrest, fun hfalse => nomatch hfalse⟩,
        rfl, rfl, hflat, fun _ h => absurd h List.not_mem_nil⟩

theorem consume_spec (h : context.Waits n fullLinesOnly)
    (hfits : bytes.length ≤ if ¬ fullLinesOnly then n else n - context.usedBuffer) :
    ∃ context' strs, context.consume n fullLinesOnly bytes = (context', strs) ∧ context'.Waits n fullLinesOnly ∧
      context'.descriptor = context.descriptor ∧ context'.readEvent = context.readEvent ∧
        strs.flatten ++ context'.pending = context.pending ++ bytes ∧
        (fullLinesOnly = true → ∀ str ∈ strs, IsLine str ∨ IsBlock n str) := by
  cases fullLinesOnly with
  | true =>
      obtain ⟨context', strs, heq, hwaits, hdescriptor, hevent, hflat, hstrs⟩ := consume_lines_spec h hfits
      exact ⟨context', strs, heq, hwaits, hdescriptor, hevent, hflat, fun _ => hstrs⟩
  | false =>
      have hempty := h.empty rfl
      have hroom : 0 + bytes.length ≤ context.buffer.length := by
        rw [h.size, Nat.zero_add]
        exact hfits
      have hbytes : between (overwrite context.buffer 0 bytes) 0 bytes.length = bytes := by
        have htake := take_overwrite hroom
        rwa [Nat.zero_add] at htake
      refine ⟨_, _, rfl, ⟨(length_overwrite hroom).trans h.size, h.used, fun hfalse =>
        (nomatch hfalse), fun _ => hempty⟩, rfl, rfl, ?_, fun hfalse => (nomatch hfalse)⟩
      rw [hbytes]
      simp [DescriptorActionContext.pending, hempty]

end

/-! ## 記述子毎の記録 -/

section

variable {events events' : List Event} {context context' : DescriptorActionContext} {n i j : Nat}
    {fullLinesOnly : Bool} {strs : List Bytes} {fd : Int}

theorem eventsOf_append (i : Nat) (trace trace' : List Event) :
    eventsOf i (trace ++ trace') = eventsOf i trace ++ eventsOf i trace' :=
  List.filter_append ..

theorem eventsOf_self (h : ∀ e ∈ events, e.index = some i) : eventsOf i events = events :=
  List.filter_eq_self.mpr fun e he => decide_eq_true (h e he)

theorem eventsOf_other (h : ∀ e ∈ events, e.index = some i ∨ e.index = none) (hij : j ≠ i) :
    eventsOf j events = [] := by
  refine List.filter_eq_nil_iff.mpr fun e he hej => ?_
  have hindex := of_decide_eq_true hej
  rcases h e he with heq | heq
  · exact hij (Option.some.inj (hindex.symm.trans heq))
  · cases hindex.symm.trans heq

theorem stream_append (events events' : List Event) : stream (events ++ events') = stream events ++
    stream events' := List.flatMap_append

theorem pieces_append (events events' : List Event) : pieces (events ++ events') = pieces events ++
    pieces events' := List.filterMap_append

theorem stream_map_dataReady (fd : Int) (i : Nat) (strs : List Bytes) : stream (strs.map (.dataReady fd i)) = [] := by
  induction strs with
  | nil => rfl
  | cons str strs ih => exact ih

theorem pieces_map_dataReady (fd : Int) (i : Nat) (strs : List Bytes) : pieces (strs.map (.dataReady fd i)) = strs := by
  induction strs with
  | nil => rfl
  | cons str strs ih => exact congrArg (str :: ·) ih

structure Opened (n : Nat) (fullLinesOnly : Bool) (context : DescriptorActionContext) (events : List Event) : Prop where
  waits : context.Waits n fullLinesOnly
  delivered : (pieces events).flatten ++ context.pending = stream events
  shape : fullLinesOnly = true → ∀ str ∈ pieces events, IsLine str ∨ IsBlock n str
  noClosed : ∀ e ∈ events, ¬ e.IsClosed

def Shut (n : Nat) (fullLinesOnly : Bool) (events : List Event) : Prop :=
  ∃ before fd i error, events = before ++ [.closed fd i error] ∧ (∀ e ∈ before, ¬ e.IsClosed) ∧
    (pieces before).flatten = stream before ∧
    (fullLinesOnly = true → ∀ str ∈ (pieces before).dropLast, IsLine str ∨ IsBlock n str)

structure History (n : Nat) (fullLinesOnly : Bool) (context : DescriptorActionContext)
    (events : List Event) : Prop where
  used : context.usedBuffer < n
  asked : ∀ fd j asked result, .read fd j asked result ∈ events → 0 < asked
  opened : context.readEvent = true → Opened n fullLinesOnly context events
  shut : context.readEvent = false → Shut n fullLinesOnly events

theorem Opened.noClosed_append (h : Opened n fullLinesOnly context events) {event : Event}
    (hevent : ¬ event.IsClosed) : ∀ e ∈ events ++ [event], ¬ e.IsClosed :=
  List.forall_mem_append.mpr ⟨h.noClosed, List.forall_mem_singleton.mpr hevent⟩

theorem Opened.read (h : Opened n fullLinesOnly context events) {asked : Nat} {result : ReadResult}
    (hnone : (Event.read fd i asked result).received = []) : Opened n fullLinesOnly context
    (events ++ [.read fd i asked result]) := by
  refine ⟨h.waits, ?_, ?_, ?_⟩
  · rw [pieces_append, stream_append, ← h.delivered]
    simp [pieces, stream, Event.delivered, hnone]
  · intro hfull str hstr
    rw [pieces_append] at hstr
    refine h.shape hfull str ?_
    simpa [pieces, Event.delivered] using hstr
  · exact h.noClosed_append fun ⟨_, _, _, heq⟩ => nomatch heq

theorem Opened.data (h : Opened n fullLinesOnly context events) {asked : Nat} {bytes : Bytes}
    (hwaits : context'.Waits n fullLinesOnly)
    (hflat : strs.flatten ++ context'.pending = context.pending ++ bytes)
    (hstrs : fullLinesOnly = true → ∀ str ∈ strs, IsLine str ∨ IsBlock n str) :
    Opened n fullLinesOnly context' (events ++ (.read fd i asked (.data bytes) :: strs.map (.dataReady fd i))) := by
  have hpieces : pieces (events ++ (.read fd i asked (.data bytes) :: strs.map (.dataReady fd i))) =
      pieces events ++ strs := by
    rw [pieces_append]
    exact congrArg _ (pieces_map_dataReady fd i strs)
  have hstream : stream (events ++ (.read fd i asked (.data bytes) :: strs.map (.dataReady fd i))) =
      stream events ++ bytes := by
    rw [stream_append]
    refine congrArg _ ((congrArg (bytes ++ ·) (stream_map_dataReady fd i strs)).trans (List.append_nil _))
  refine ⟨hwaits, ?_, ?_, ?_⟩
  · rw [hpieces, hstream, List.flatten_append, List.append_assoc, hflat, ← List.append_assoc, h.delivered]
  · intro hfull str hstr
    rw [hpieces] at hstr
    rcases List.mem_append.mp hstr with hstr | hstr
    · exact h.shape hfull str hstr
    · exact hstrs hfull str hstr
  · intro e he
    rcases List.mem_append.mp he with he | he
    · exact h.noClosed e he
    · rintro ⟨_, _, _, rfl⟩
      simp at he

theorem Opened.close (h : Opened n fullLinesOnly context events) (error : Int) :
    Shut n fullLinesOnly
      (events ++ ((if context.usedBuffer ≠ 0 then [.dataReady fd i context.pending] else []) ++
      [.closed fd i error])) := by
  refine ⟨_, fd, i, error, (List.append_assoc ..).symm, ?_⟩
  split
  · have hpieces : pieces (events ++ [.dataReady fd i context.pending]) = pieces events ++
        [context.pending] := pieces_append ..
    have hstream : stream (events ++ [.dataReady fd i context.pending]) = stream events :=
      (stream_append ..).trans (List.append_nil _)
    refine ⟨?_, ?_, ?_⟩
    · exact h.noClosed_append fun ⟨_, _, _, heq⟩ => nomatch heq
    · rw [hpieces, hstream, List.flatten_append, List.flatten_singleton, h.delivered]
    · rw [hpieces, List.dropLast_concat]
      exact h.shape
  · rename_i hzero
    rw [List.append_nil]
    refine ⟨h.noClosed, ?_, fun hfull str hstr => h.shape hfull str (List.dropLast_subset _ hstr)⟩
    have hnil : context.pending = [] := by
      rw [DescriptorActionContext.pending, Decidable.not_not.mp hzero]
      rfl
    rw [← h.delivered, hnil, List.append_nil]

theorem Shut.split (h : Shut n fullLinesOnly events) {before after : List Event} {error : Int}
    (heq : events = before ++ .closed fd i error :: after) :
    (pieces before).flatten = stream before ∧ after = [] := by
  obtain ⟨before', fd', i', error', rfl, hno, hflat, -⟩ := h
  rcases List.append_eq_append_iff.mp heq with ⟨middle, rfl, hend⟩ | ⟨middle, rfl, hend⟩
  · cases middle with
    | nil => exact ⟨by rw [List.append_nil]; exact hflat, (List.cons.inj hend).2.symm⟩
    | cons e middle => simp at hend
  · cases middle with
    | nil =>
        rw [List.append_nil] at hflat
        exact ⟨hflat, (List.cons.inj hend).2⟩
    | cons e middle =>
        obtain ⟨rfl, -⟩ := List.cons.inj hend
        exact absurd ⟨fd, i, error, rfl⟩ (hno _ (List.mem_append_right _ (List.mem_cons_self ..)))

end

/-! ## 出来事の輪 -/

namespace DescriptorListener

variable {s s' : DescriptorListener} {descriptors : List (Int × (Nat → UInt8))} {n i : Nat}
    {fullLinesOnly : Bool} {context : DescriptorActionContext}

structure Sound (n : Nat) (fullLinesOnly : Bool) (s : DescriptorListener) : Prop where
  positive : 0 < n
  length : s.buffersLength = n
  mode : s.fullLinesOnly = fullLinesOnly
  histories : ∀ i context, s.readContexts[i]? = some context → History n fullLinesOnly context (eventsOf i s.trace)
  running : ∀ i, s.running = some i → ∀ context, s.readContexts[i]? = some context → context.readEvent = true
  inside : s.outside = false

theorem sound_new (hnew : new descriptors n fullLinesOnly = some s) (hcount : descriptors.length < 2 ^ 32)
    (hsize : n < 2 ^ 32 ∨ descriptors = []) : s.Sound n fullLinesOnly := by
  unfold new at hnew
  split at hnew
  · cases hnew
  · rename_i hpos
    obtain rfl := Option.some.inj hnew
    have hn := Nat.pos_of_ne_zero hpos
    have hinside : ¬ arraySize descriptors.length < descriptors.length := by
      rw [arraySize_eq hcount]
      exact Nat.lt_irrefl _
    refine ⟨hn, rfl, rfl, fun i context hget => ?_, fun _ hrunning => (nomatch hrunning), decide_eq_false hinside⟩
    obtain ⟨d, hd, rfl⟩ := List.mem_map.mp (List.mem_of_getElem? hget)
    have hsmall : n < 2 ^ 32 := by
      rcases hsize with hlt | rfl
      · exact hlt
      · cases hd
    refine ⟨hn, fun _ _ _ _ h => absurd h List.not_mem_nil, fun _ => ?_, fun hfalse => nomatch hfalse⟩
    exact ⟨waits_init hsmall hn d.1 d.2, rfl, fun _ _ h => absurd h List.not_mem_nil, fun _ h =>
      absurd h List.not_mem_nil⟩

theorem Sound.update (h : s.Sound n fullLinesOnly) {events : List Event}
    {context' : DescriptorActionContext} (hget : s.readContexts[i]? = some context)
    (hevents : ∀ e ∈ events, e.index = some i ∨ e.index = none)
    (hnew : History n fullLinesOnly context' (eventsOf i s.trace ++ eventsOf i events))
    (j : Nat) (c : DescriptorActionContext) (hc : (s.readContexts.set i context')[j]? = some c) :
    History n fullLinesOnly c (eventsOf j (s.trace ++ events)) := by
  rw [eventsOf_append]
  by_cases hij : i = j
  · subst hij
    rw [List.getElem?_set_self (List.getElem?_eq_some_iff.mp hget).1] at hc
    obtain rfl := Option.some.inj hc
    exact hnew
  · rw [List.getElem?_set_ne hij] at hc
    rw [eventsOf_other hevents (Ne.symm hij), List.append_nil]
    exact h.histories j c hc

theorem Sound.logged (h : s.Sound n fullLinesOnly) {asked : Nat} {result : ReadResult}
    (hget : s.readContexts[i]? = some context)
    (hevent : context.readEvent = true) (hasked : 0 < asked)
    (hnone : (Event.read context.descriptor i asked result).received = [])
    (j : Nat) (c : DescriptorActionContext) (hc : s.readContexts[j]? = some c) :
    History n fullLinesOnly c (eventsOf j (s.trace ++ [.read context.descriptor i asked result])) := by
  have hhistory := h.histories i context hget
  obtain ⟨hlt, heq⟩ := List.getElem?_eq_some_iff.mp hget
  have hset : s.readContexts.set i context = s.readContexts := by rw [← heq, List.set_getElem_self]
  have hself : eventsOf i [.read context.descriptor i asked result] = [.read context.descriptor i asked result] :=
    eventsOf_self fun e he => by rw [List.mem_singleton.mp he]; rfl
  refine h.update hget (fun e he => .inl (by rw [List.mem_singleton.mp he]; rfl)) ?_ j c (by rwa [hset])
  rw [hself]
  refine ⟨hhistory.used, fun fd k asked' result' hmem => ?_, fun _ => (hhistory.opened hevent).read
    hnone, fun hfalse => by rw [hevent] at hfalse; cases hfalse⟩
  rcases List.mem_append.mp hmem with hmem | hmem
  · exact hhistory.asked fd k asked' result' hmem
  · cases List.mem_singleton.mp hmem
    exact hasked

theorem Sound.data (h : s.Sound n fullLinesOnly) {bytes : Bytes}
    (hget : s.readContexts[i]? = some context) (hevent : context.readEvent = true)
    (hrunning : s.running = some i) (hpossible : (ReadResult.data bytes).Possible (s.asked context)) :
    (s.handleRead i context (.data bytes)).Sound n fullLinesOnly := by
  have hhistory := h.histories i context hget
  have hopened := hhistory.opened hevent
  obtain ⟨hpos, hle⟩ := hpossible
  have hasked : 0 < s.asked context := Nat.lt_of_lt_of_le hpos hle
  unfold asked at hle
  rw [h.length, h.mode] at hle
  obtain ⟨context', strs, hconsume, hwaits, hdescriptor, hevent', hflat, hstrs⟩ := consume_spec hopened.waits hle
  have hindex : ∀ e ∈ Event.read context.descriptor i (s.asked context) (.data bytes) :: strs.map
      (.dataReady context.descriptor i), e.index = some i := by
    intro e he
    rcases List.mem_cons.mp he with rfl | he
    · rfl
    · obtain ⟨str, -, rfl⟩ := List.mem_map.mp he
      rfl
  have hresult : s.handleRead i context (.data bytes) =
      { s with
        readContexts := s.readContexts.set i context'
        trace := s.trace ++ (.read context.descriptor i (s.asked context) (.data bytes) :: strs.map
          (.dataReady context.descriptor i)) } := by
    have hinside : (s.outside || decide (context.buffer.length < context.writePos fullLinesOnly +
        bytes.length)) = s.outside := by
      rw [decide_eq_false (hopened.waits.inside hle), Bool.or_false]
    unfold handleRead
    dsimp only
    rw [h.length, h.mode, hinside, hconsume, ← hdescriptor, List.append_assoc]
    rfl
  rw [hresult]
  refine ⟨h.positive, h.length, h.mode, h.update hget (fun e he => .inl (hindex e he)) ?_,
    fun j hj c hc => ?_, h.inside⟩
  · rw [eventsOf_self hindex]
    refine ⟨hwaits.used, fun fd k asked' result' hmem => ?_, fun _ => hopened.data hwaits hflat hstrs, fun hfalse => ?_⟩
    · rcases List.mem_append.mp hmem with hmem | hmem
      · exact hhistory.asked fd k asked' result' hmem
      · rcases List.mem_cons.mp hmem with heq | hmem
        · cases heq
          exact hasked
        · obtain ⟨_, -, heq⟩ := List.mem_map.mp hmem
          cases heq
    · rw [hevent', hevent] at hfalse
      cases hfalse
  · obtain rfl := Option.some.inj (hrunning.symm.trans hj)
    dsimp only at hc
    rw [List.getElem?_set_self (List.getElem?_eq_some_iff.mp hget).1] at hc
    obtain rfl := Option.some.inj hc
    exact hevent'.trans hevent

theorem Sound.close (h : s.Sound n fullLinesOnly) (hget : s.readContexts[i]? = some context)
    (hevent : context.readEvent = true) (error : Int) :
    (s.close i context error).Sound n fullLinesOnly := by
  have hhistory := h.histories i context hget
  have hopened := hhistory.opened hevent
  let rest := if context.usedBuffer ≠ 0 then [Event.dataReady context.descriptor i context.pending] else []
  let ending := if s.closedDescriptors + 1 = s.readContexts.length then [Event.allClosed] else []
  have hrest : ∀ e ∈ rest ++ [.closed context.descriptor i error], e.index = some i := by
    intro e he
    rcases List.mem_append.mp he with he | he
    · dsimp only [rest] at he
      split at he
      · rw [List.mem_singleton.mp he]
        rfl
      · cases he
    · rw [List.mem_singleton.mp he]
      rfl
  have hending : ∀ e ∈ ending, e = .allClosed := by
    intro e he
    dsimp only [ending] at he
    split at he
    · exact List.mem_singleton.mp he
    · cases he
  have hself : eventsOf i ((rest ++ [.closed context.descriptor i error]) ++ ending) =
      rest ++ [.closed context.descriptor i error] := by
    have hnil : eventsOf i ending = [] := List.filter_eq_nil_iff.mpr fun e he hei => by
      rw [hending e he] at hei
      cases of_decide_eq_true hei
    rw [eventsOf_append, eventsOf_self hrest, hnil, List.append_nil]
  have hevents : ∀ e ∈ (rest ++ [.closed context.descriptor i error]) ++ ending, e.index = some i ∨ e.index = none := by
    intro e he
    rcases List.mem_append.mp he with he | he
    · exact .inl (hrest e he)
    · exact .inr (by rw [hending e he]; rfl)
  have htrace : (s.close i context error).trace = s.trace ++
      ((rest ++ [.closed context.descriptor i error]) ++ ending) := by
    simp only [DescriptorListener.close, rest, ending, List.append_assoc, DescriptorActionContext.pending]
  refine ⟨h.positive, h.length, h.mode, ?_, fun j hj => (nomatch hj), h.inside⟩
  rw [htrace]
  refine h.update hget hevents ?_
  rw [hself]
  refine ⟨hhistory.used, fun fd k asked result hmem => ?_, fun hfalse => (nomatch hfalse), fun _ => hopened.close error⟩
  rcases List.mem_append.mp hmem with hmem | hmem
  · exact hhistory.asked fd k asked result hmem
  · rcases List.mem_append.mp hmem with hmem | hmem
    · dsimp only [rest] at hmem
      split at hmem
      · cases List.mem_singleton.mp hmem
      · cases hmem
    · cases List.mem_singleton.mp hmem

theorem step_cases {action : Action} (hstep : s.step action = some s') :
    (∃ i context, action = .ready i ∧ s.readContexts[i]? = some context ∧ context.readEvent = true ∧
    s' = { s with running := some i }) ∨
      ∃ i context result, action = .read result ∧ s.running = some i ∧ s.readContexts[i]? =
      some context ∧ result.Possible (s.asked context) ∧
        s' = s.handleRead i context result := by
  cases action with
  | ready i =>
      unfold DescriptorListener.step at hstep
      dsimp only at hstep
      split at hstep
      · rename_i context hrunning hget
        split at hstep
        · rename_i hevent
          exact .inl ⟨i, context, rfl, hget, hevent, (Option.some.inj hstep).symm⟩
        · cases hstep
      · cases hstep
  | read result =>
      unfold DescriptorListener.step at hstep
      dsimp only at hstep
      split at hstep
      · rename_i i hrunning
        split at hstep
        · rename_i context hget
          split at hstep
          · rename_i hpossible
            exact .inr ⟨i, context, result, rfl, hrunning, hget, hpossible, (Option.some.inj hstep).symm⟩
          · cases hstep
        · cases hstep
      · cases hstep

theorem Sound.step {action : Action} (h : s.Sound n fullLinesOnly)
    (hstep : s.step action = some s') : s'.Sound n fullLinesOnly := by
  obtain ⟨i, context, rfl, hget, hevent, rfl⟩ | ⟨i, context, result, rfl, hrunning, hget, hpossible,
    rfl⟩ := step_cases hstep
  · refine ⟨h.positive, h.length, h.mode, h.histories, fun j hj c hc => ?_, h.inside⟩
    obtain rfl := Option.some.inj hj
    obtain rfl := Option.some.inj (hget.symm.trans hc)
    exact hevent
  · have hevent := h.running i hrunning context hget
    have hasked : 0 < s.asked context := by
      have hused := ((h.histories i context hget).opened hevent).waits.used
      have hpos := h.positive
      unfold asked
      rw [h.length]
      split
      · exact hpos
      · omega
    have hlogged : (Event.read context.descriptor i (s.asked context) result).received = [] →
        Sound n fullLinesOnly { s with trace := s.trace ++ [.read context.descriptor i (s.asked context) result] } :=
      fun hnone => ⟨h.positive, h.length, h.mode, h.logged hget hevent hasked hnone, h.running, h.inside⟩
    cases result with
    | data bytes => exact h.data hget hevent hrunning hpossible
    | eintr => exact hlogged rfl
    | eagain =>
        have hsound := hlogged rfl
        exact ⟨hsound.positive, hsound.length, hsound.mode, hsound.histories, fun j hj => (nomatch hj), hsound.inside⟩
    | eof => exact (hlogged rfl).close hget hevent 0
    | error errno => exact (hlogged rfl).close hget hevent errno

theorem consume_descriptor (context : DescriptorActionContext) (n : Nat) (fullLinesOnly : Bool) (bytes : Bytes) :
    (context.consume n fullLinesOnly bytes).1.descriptor = context.descriptor := by
  unfold DescriptorActionContext.consume
  dsimp only
  split
  · split
    · rfl
    · split <;> rfl
  · rfl

theorem map_descriptor_set (hget : s.readContexts[i]? = some context)
    {context' : DescriptorActionContext} (h : context'.descriptor = context.descriptor) :
    (s.readContexts.set i context').map (·.descriptor) = s.readContexts.map (·.descriptor) := by
  obtain ⟨hlt, rfl⟩ := List.getElem?_eq_some_iff.mp hget
  rw [List.map_set, h]
  refine List.ext_getElem? fun j => ?_
  by_cases hij : i = j
  · subst hij
    rw [List.getElem?_set_self (by rwa [List.length_map]), List.getElem?_map, hget]
    rfl
  · rw [List.getElem?_set_ne hij]

theorem step_descriptors {action : Action} (hstep : s.step action = some s') :
    s'.readContexts.map (·.descriptor) = s.readContexts.map (·.descriptor) := by
  obtain ⟨i, context, rfl, -, -, rfl⟩ | ⟨i, context, result, rfl, -, hget, -, rfl⟩ := step_cases hstep
  · rfl
  · cases result with
    | data bytes => exact map_descriptor_set hget (consume_descriptor ..)
    | eintr | eagain => rfl
    | eof | error => exact @map_descriptor_set s i context hget _ rfl

end DescriptorListener

/-! ## 定理 -/

/-- 一つの記述子の記録について、渡した文字が読んだ文字と同じであること。 -/
structure Delivers (n : Nat) (fullLinesOnly : Bool) (context : DescriptorActionContext)
    (events : List Event) : Prop where
  closed : ∀ before fd index error after, events = before ++ .closed fd index error :: after →
    (pieces before).flatten = stream before ∧ after = []
  opened : context.readEvent = true → (pieces events).flatten ++ context.buffer.take context.usedBuffer = stream events
  lines : fullLinesOnly = true → ∀ str ∈ (pieces events).dropLast, IsLine str ∨ IsBlock n str
  asked : ∀ fd index asked result, .read fd index asked result ∈ events → 0 < asked
  used : context.usedBuffer < n

theorem History.delivers {n : Nat} {fullLinesOnly : Bool} {context : DescriptorActionContext} {events : List Event}
    (h : History n fullLinesOnly context events) : Delivers n fullLinesOnly context events := by
  cases hevent : context.readEvent with
  | true =>
      have hopened := h.opened hevent
      refine ⟨?_, fun _ => hopened.delivered, fun hfull str hstr => hopened.shape hfull str
        (List.dropLast_subset _ hstr), h.asked, h.used⟩
      rintro before fd index error after rfl
      exact absurd ⟨fd, index, error, rfl⟩ (hopened.noClosed _ (List.mem_append_right _ (List.mem_cons_self ..)))
  | false =>
      have hshut := h.shut hevent
      refine ⟨fun before fd index error after heq => hshut.split heq, fun htrue => ?_,
        fun hfull str hstr => ?_, h.asked, h.used⟩
      · rw [hevent] at htrue
        cases htrue
      · obtain ⟨before, fd, index, error, rfl, -, -, hlines⟩ := hshut
        have hpieces : pieces (before ++ [.closed fd index error]) = pieces before :=
          (pieces_append ..).trans (List.append_nil _)
        rw [hpieces] at hstr
        exact hlines hfull str hstr

/-- 配列の外に書かず、どの記述子についても、渡した文字が読んだ文字と同じである。 -/
structure DeliversAll (descriptors : List (Int × (Nat → UInt8))) (n : Nat) (fullLinesOnly : Bool)
    (s : DescriptorListener) : Prop where
  inside : s.outside = false
  descriptors : s.readContexts.map (·.descriptor) = descriptors.map Prod.fst
  delivers : ∀ i context, s.readContexts[i]? = some context → Delivers n fullLinesOnly context (eventsOf i s.trace)

section

variable {descriptors : List (Int × (Nat → UInt8))} {n : Nat} {fullLinesOnly : Bool} {s s' : DescriptorListener}

theorem deliversAll_of_execute (hnew : DescriptorListener.new descriptors n fullLinesOnly = some s)
    (hcount : descriptors.length < 2 ^ 32) (hsize : n < 2 ^ 32 ∨ descriptors = [])
    {actions : List DescriptorListener.Action} (hrun : execute DescriptorListener.step s actions = some s') :
    DeliversAll descriptors n fullLinesOnly s' := by
  have hsound := execute_always (fun _ _ _ h hstep => DescriptorListener.Sound.step h hstep)
    (DescriptorListener.sound_new hnew hcount hsize) hrun
  refine ⟨hsound.inside, ?_, fun i context hget => (hsound.histories i context hget).delivers⟩
  refine execute_always (I := fun t => t.readContexts.map (·.descriptor) = descriptors.map Prod.fst)
    (fun _ _ _ h hstep => (DescriptorListener.step_descriptors hstep).trans h) ?_ hrun
  unfold DescriptorListener.new at hnew
  split at hnew
  · cases hnew
  · obtain rfl := Option.some.inj hnew
    exact List.map_map

theorem outside_of_large {d : Int × (Nat → UInt8)} {rest : List (Int × (Nat → UInt8))}
    (hlarge : 2 ^ 32 ≤ n) (hnew : DescriptorListener.new (d :: rest) n fullLinesOnly = some s) :
    ∃ actions s', execute DescriptorListener.step s actions = some s' ∧ s'.outside = true := by
  have hcut := arraySize_lt n
  have hlength : (resetArray d.2 n).length = arraySize n := length_resetArray d.2 n
  unfold DescriptorListener.new at hnew
  split at hnew
  · cases hnew
  · obtain rfl := Option.some.inj hnew
    let bytes : Bytes := List.replicate (arraySize n + 1) 0
    have hbytes : bytes.length = arraySize n + 1 := List.length_replicate
    let context := DescriptorActionContext.init d.1 d.2 n
    let opened : DescriptorListener := ⟨n, fullLinesOnly, (d :: rest).map fun d => .init d.1 d.2 n, 0, some 0, [],
      decide (arraySize (d :: rest).length < (d :: rest).length)⟩
    have hasked : opened.asked context = n := by
      unfold DescriptorListener.asked
      split <;> rfl
    have hpossible : (ReadResult.data bytes).Possible (opened.asked context) := by
      rw [hasked]
      exact ⟨by omega, by omega⟩
    have hwrite : context.writePos fullLinesOnly = 0 := by
      unfold DescriptorActionContext.writePos
      split <;> rfl
    have hover : context.buffer.length < context.writePos fullLinesOnly + bytes.length := by
      rw [hwrite, hbytes]
      change (resetArray d.2 n).length < 0 + (arraySize n + 1)
      omega
    have hread : opened.step (.read (.data bytes)) = some (opened.handleRead 0 context (.data bytes)) :=
      if_pos hpossible
    refine ⟨[.ready 0, .read (.data bytes)], opened.handleRead 0 context (.data bytes), ?_, ?_⟩
    · have hready : DescriptorListener.step ⟨n, fullLinesOnly, (d :: rest).map fun d => .init d.1 d.2 n, 0, none, [],
          decide (arraySize (d :: rest).length < (d :: rest).length)⟩ (.ready 0) = some opened := rfl
      simp only [execute, hready, hread]
    · change (opened.outside || decide (context.buffer.length < context.writePos fullLinesOnly + bytes.length)) = true
      rw [decide_eq_true hover, Bool.or_true]

/-- 大きさが `unsigned` に収まる時、しかもその時に限って、どの読み込みと呼び出しの列でも、どの記述子についても、渡した文字は
読んだ文字と同じである。 -/
theorem descriptor_listener_delivers_iff (hnew : DescriptorListener.new descriptors n fullLinesOnly = some s) :
    (∀ actions s', execute DescriptorListener.step s actions = some s' → DeliversAll descriptors n fullLinesOnly s') ↔
      descriptors.length < 2 ^ 32 ∧ (n < 2 ^ 32 ∨ descriptors = []) := by
  constructor
  · intro hall
    constructor
    · by_contra hcount
      have hstart := (hall [] s rfl).inside
      unfold DescriptorListener.new at hnew
      split at hnew
      · cases hnew
      · obtain rfl := Option.some.inj hnew
        have hlt := arraySize_lt descriptors.length
        exact of_decide_eq_false hstart (by omega)
    · by_contra hsize
      obtain ⟨hlarge, hne⟩ := not_or.mp hsize
      obtain ⟨d, rest, rfl⟩ := List.exists_cons_of_ne_nil hne
      obtain ⟨actions, s', hrun, hout⟩ := outside_of_large (Nat.le_of_not_lt hlarge) hnew
      rw [(hall actions s' hrun).inside] at hout
      cases hout
  · rintro ⟨hcount, hsize⟩ actions s' hrun
    exact deliversAll_of_execute hnew hcount hsize hrun

end

theorem descriptor_listener_delivers_iff_sample :
    ∃ s', execute DescriptorListener.step ⟨3, true, [⟨7, [0, 0, 0], 0, true⟩], 0, none, [], false⟩
        [.ready 0, .read (.data [97, 10, 98]), .read .eagain, .ready 0, .read .eintr, .read (.data [99, 100]),
          .read (.data [101]), .read .eof] = some s' ∧
      pieces (eventsOf 0 s'.trace) = [[97, 10], [98, 99, 100], [101]] ∧
        DeliversAll [(7, fun _ => 0)] 3 true s' := by
  have hnew : DescriptorListener.new [(7, fun _ => 0)] 3 true =
      some ⟨3, true, [⟨7, [0, 0, 0], 0, true⟩], 0, none, [], false⟩ := rfl
  have hsome : ∃ s', execute DescriptorListener.step ⟨3, true, [⟨7, [0, 0, 0], 0, true⟩], 0, none, [], false⟩
      [.ready 0, .read (.data [97, 10, 98]), .read .eagain, .ready 0, .read .eintr, .read (.data [99, 100]),
        .read (.data [101]), .read .eof] = some s' ∧
        pieces (eventsOf 0 s'.trace) = [[97, 10], [98, 99, 100], [101]] := ⟨_, rfl, by decide⟩
  obtain ⟨s', hrun, hpieces⟩ := hsome
  exact ⟨s', hrun, hpieces, (descriptor_listener_delivers_iff hnew).mpr (by decide) _ s' hrun⟩

/-- 大きさ `2 ^ 32` では、配列が確保されず、初めの一文字が配列の外に書かれる。 -/
theorem descriptor_listener_writes_outside :
    ¬ ∀ (n : Nat) (s : DescriptorListener), 1 ≤ n → DescriptorListener.new [(7, fun _ => 0)] n true = some s →
      ∀ actions s', execute DescriptorListener.step s actions = some s' → DeliversAll [(7, fun _ => 0)] n true s' := by
  intro hall
  have hnew : ∃ s, DescriptorListener.new [(7, fun _ => 0)] (2 ^ 32) true = some s := ⟨_, if_neg (by decide)⟩
  obtain ⟨s, hnew⟩ := hnew
  obtain ⟨actions, s', hrun, hout⟩ := outside_of_large (Nat.le_refl _) hnew
  rw [(hall (2 ^ 32) s (by decide) hnew actions s' hrun).inside] at hout
  cases hout

end UnixCommons.Generics.Listener
