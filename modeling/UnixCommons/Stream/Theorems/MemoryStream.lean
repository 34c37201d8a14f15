import Mathlib.Tactic.Common
import UnixCommons.Lib.Machine
import UnixCommons.Lib.Spec
import UnixCommons.Stream.MemoryStream

/-!
# 記憶域の流れの定理

書く側は、位置を持つ配列と同じである。
-/

namespace UnixCommons.Stream.Memory

open Lib

variable {α : Type}

/-! ## 行き先 -/

theorem addOffset_reaches_iff (off : Int64) {n length : Nat} (hn : n ≤ length) (hlength : length < 2 ^ 63) :
    (0 ≤ addOffset off.toInt n ∧ addOffset off.toInt n ≤ length ↔ 0 ≤ off.toInt + n ∧ off.toInt + n ≤ length) ∧
      (0 ≤ off.toInt + n → off.toInt + n ≤ length → addOffset off.toInt n = off.toInt + n) := by
  have hlow := off.le_toInt
  have hhigh := off.toInt_lt
  unfold addOffset
  rw [Int.bmod_def]
  split
  · omega
  · omega

theorem addOffset_comm (a b : Int) : addOffset a b = addOffset b a := by rw [addOffset, addOffset, Int.add_comm]

/-! ## 書く側 -/

section

variable {b : OutputMemoryBuffer α} {a : ArrayCursor α} {c : α}

structure Holds (b : OutputMemoryBuffer α) (a : ArrayCursor α) : Prop where
  pos : b.pptr = a.pos
  largest : b.largest = a.items.length
  inside : a.items.length ≤ b.region.length
  stored : b.region.take a.items.length = a.items.map some

theorem Holds.pos_le (h : Holds b a) : a.pos ≤ a.items.length := by
  rw [← h.pos, ← h.largest]
  exact Nat.le_max_right _ _

theorem holds_new (initialSize : Nat) : Holds (.new α initialSize) ⟨[], 0⟩ := ⟨rfl, rfl, Nat.zero_le _, rfl⟩

theorem Holds.store (h : Holds b a) (hlt : b.pptr < b.region.length) :
    Holds { b with region := b.region.set b.pptr (some c), pptr := b.pptr + 1 } (a.write c) := by
  have hle := h.pos_le
  have hpos := h.pos
  have hlargest := h.largest
  have hlength : (a.write c).items.length = max a.items.length (a.pos + 1) := by
    unfold ArrayCursor.write
    dsimp only
    split
    · rw [List.length_set]
      omega
    · rw [List.length_append, List.length_singleton]
      omega
  unfold OutputMemoryBuffer.largest at hlargest
  refine ⟨congrArg (· + 1) hpos, ?_, ?_, ?_⟩
  · rw [hlength, OutputMemoryBuffer.largest]
    dsimp only
    omega
  · have := h.inside
    rw [hlength, List.length_set]
    omega
  · rw [hlength, hpos]
    unfold ArrayCursor.write
    dsimp only
    split
    · rename_i hin
      rw [Nat.max_eq_left hin, List.take_set, h.stored, List.map_set]
    · have heq : a.pos = a.items.length := Nat.le_antisymm hle (by omega)
      rw [heq, Nat.max_eq_right (Nat.le_succ _), List.map_append, ← h.stored, List.take_set,
        List.take_succ_eq_append_getElem (by omega),
        List.set_append_right _ _ (by rw [List.length_take]; omega), List.length_take,
        Nat.min_eq_left h.inside, Nat.sub_self]
      rfl

theorem newSizeLoop_spec {fuel newSize oldSize : Nat} (hpos : 0 < newSize) (hold : oldSize < 2 ^ 31)
    (hfuel : oldSize < newSize * 2 ^ fuel) :
    ∃ size, OutputMemoryBuffer.newSizeLoop (fuel + 1) newSize oldSize = some size ∧ oldSize < size := by
  induction fuel generalizing newSize with
  | zero =>
      rw [Nat.pow_zero, Nat.mul_one] at hfuel
      exact ⟨newSize, by rw [OutputMemoryBuffer.newSizeLoop, if_neg (by omega)], hfuel⟩
  | succ fuel ih =>
      by_cases hle : newSize ≤ oldSize
      · have hmod : newSize * 2 % 2 ^ 64 = newSize * 2 := Nat.mod_eq_of_lt (by omega)
        rw [OutputMemoryBuffer.newSizeLoop, if_pos hle, hmod]
        dsimp only
        rw [if_neg (by omega)]
        exact ih (by omega) (by rwa [Nat.mul_assoc, ← Nat.pow_succ'])
      · exact ⟨newSize, by rw [OutputMemoryBuffer.newSizeLoop, if_neg hle], by omega⟩

theorem Holds.extend (h : Holds b a) (hsize : b.region.length < 2 ^ 31) (hpos : b.pptr < 2 ^ 31) :
    ∃ b', b.extend = .ok (some b') ∧ Holds b' a ∧ b'.pptr = b.pptr ∧ b.region.length < b'.region.length := by
  obtain ⟨size, hnew, hlt⟩ := newSizeLoop_spec (show 0 < 4096 by decide) hsize
    (show b.region.length < 4096 * 2 ^ 63 by omega)
  have hrun : b.extend = .ok (some { b with region := b.region ++ List.replicate (size - b.region.length) none }) := by
    rw [OutputMemoryBuffer.extend, hnew]
    dsimp only
    rw [OutputMemoryBuffer.pbump, if_pos hpos]
    rfl
  refine ⟨_, hrun, ⟨h.pos, h.largest, ?_, ?_⟩, rfl, ?_⟩
  · rw [List.length_append]
    exact Nat.le_add_right_of_le h.inside
  · rw [List.take_append_of_le_length h.inside]
    exact h.stored
  · rw [List.length_append, List.length_replicate]
    omega

theorem Holds.sputc (h : Holds b a) (hlength : a.items.length < 2 ^ 31) : ∃ b', b.sputc c = .ok
    (b', some c) ∧ Holds b' (a.write c) := by
  have hle := h.pos_le
  have hpos := h.pos
  by_cases hlt : b.pptr < b.region.length
  · exact ⟨_, if_pos hlt, h.store hlt⟩
  · have hinside := h.inside
    obtain ⟨b', hrun, hholds, hpptr, hregion⟩ := h.extend (by omega) (by omega)
    refine ⟨_, ?_, hholds.store (by omega)⟩
    rw [OutputMemoryBuffer.sputc, if_neg hlt, OutputMemoryBuffer.overflow, hrun]
    rfl

theorem length_write_le (a : ArrayCursor α) (c : α) : (a.write c).items.length ≤ a.items.length + 1 := by
  unfold ArrayCursor.write
  dsimp only
  split
  · rw [List.length_set]
    exact Nat.le_succ _
  · exact Nat.le_of_eq (List.length_append.trans rfl)

theorem Holds.sputn (cs : List α) (h : Holds b a) (hlength : a.items.length + cs.length < 2 ^ 31) :
    ∃ b', b.sputn cs = .ok (b', cs.length) ∧ Holds b' (cs.foldl ArrayCursor.write a) ∧
      (cs.foldl ArrayCursor.write a).items.length ≤ a.items.length + cs.length := by
  induction cs generalizing b a with
  | nil => exact ⟨b, rfl, h, Nat.le_refl _⟩
  | cons c cs ih =>
      rw [List.length_cons] at hlength
      have hwrite := length_write_le a c
      obtain ⟨b', hput, hholds⟩ := @Holds.sputc _ _ _ c h (by omega)
      obtain ⟨b'', hrest, hholds', hle⟩ := ih hholds (by omega)
      refine ⟨b'', ?_, hholds', ?_⟩
      · rw [OutputMemoryBuffer.sputn, hput, ok_bind]
        dsimp only
        rw [hrest]
        rfl
      · rw [List.foldl_cons, List.length_cons]
        omega

theorem Holds.consider (h : Holds b a) : Holds b.consider a ∧ b.consider.maxOffset = a.items.length := by
  have hlargest := h.largest
  unfold OutputMemoryBuffer.largest at hlargest
  unfold OutputMemoryBuffer.consider
  split
  · rename_i hlt
    refine ⟨⟨h.pos, ?_, h.inside, h.stored⟩, ?_⟩
    · rw [OutputMemoryBuffer.largest]
      dsimp only
      omega
    · dsimp only
      omega
  · exact ⟨h, by omega⟩

theorem Holds.seekpos (h : Holds b a) (hlength : a.items.length < 2 ^ 31) (pos : Int) :
    ∃ b' pos', b.seekpos pos .output = .ok (b', pos') ∧ pos' = (if a.Reaches pos then pos else -1) ∧
      Holds b' (if a.Reaches pos then { a with pos := pos.toNat } else a) := by
  obtain ⟨hholds, hmax⟩ := h.consider
  rw [OutputMemoryBuffer.seekpos, if_neg (by simp)]
  dsimp only
  rw [hmax]
  by_cases hreach : a.Reaches pos
  · obtain ⟨hlow, hhigh⟩ := hreach
    rw [if_neg (by omega), if_pos ⟨hlow, hhigh⟩, if_pos ⟨hlow, hhigh⟩, OutputMemoryBuffer.pbump, if_pos (by omega)]
    refine ⟨_, _, rfl, rfl, rfl, ?_, hholds.inside, hholds.stored⟩
    rw [OutputMemoryBuffer.largest]
    dsimp only
    rw [hmax]
    omega
  · rw [if_neg hreach, if_neg hreach]
    unfold ArrayCursor.Reaches at hreach
    rw [if_pos (by omega)]
    exact ⟨_, _, rfl, rfl, hholds⟩

theorem Holds.seek (h : Holds b a) (hlength : a.items.length < 2 ^ 31) (op : Seek) :
    ∃ b', b.step (.seek op) = .ok (b', .position (a.seek .output op).2) ∧ Holds b' (a.seek .output op).1 := by
  have hpos := h.pos
  have hle := h.pos_le
  obtain ⟨hholds, hmax⟩ := h.consider
  -- 行き先が、溢れても溢れなくても同じ範囲にあれば、同じ所に動く。
  have hmoved : ∀ (s : OutputMemoryBuffer α) (pos target : Int), Holds s a →
      (a.Reaches pos ↔ a.Reaches target) → (a.Reaches target → pos = target) →
      ∃ b', s.seekpos pos .output = .ok (b', if a.Reaches target then target else -1) ∧
        Holds b' (if a.Reaches target then { a with pos := target.toNat } else a) := by
    intro s pos target hs hreach heq
    obtain ⟨b', pos', hrun, rfl, hb'⟩ := hs.seekpos hlength pos
    refine ⟨b', ?_, ?_⟩
    · rw [hrun]
      by_cases ht : a.Reaches target
      · rw [if_pos (hreach.mpr ht), if_pos ht, heq ht]
      · rw [if_neg (mt hreach.mp ht), if_neg ht]
    · by_cases ht : a.Reaches target
      · rw [if_pos (hreach.mpr ht), heq ht] at hb'
        rwa [if_pos ht]
      · rw [if_neg (mt hreach.mp ht)] at hb'
        rwa [if_neg ht]
  have hstep : ∀ {x : Except Fault (OutputMemoryBuffer α × Int)} {target : Int},
      (∃ b', x = .ok (b', if a.Reaches target then target else -1) ∧
      Holds b' (if a.Reaches target then { a with pos := target.toNat } else a)) →
      a.target .output op = some target →
      ∃ b', (x >>= fun r => .ok (r.1, Result.position r.2) : Except Fault (OutputMemoryBuffer α × Result α)) =
        .ok (b', .position (a.seek .output op).2) ∧ Holds b' (a.seek .output op).1 := by
    rintro x target ⟨b', rfl, hb'⟩ htarget
    have hseek : a.seek .output op = (if a.Reaches target then { a with pos := target.toNat }
        else a, if a.Reaches target then target else -1) := by
      rw [ArrayCursor.seek, htarget]
      dsimp only
      split <;> rfl
    rw [hseek]
    exact ⟨b', rfl, hb'⟩
  have hstay : ∀ {s : OutputMemoryBuffer α}, Holds s a → a.target .output op = none →
      ∃ b', (.ok (s, Result.position (-1)) : Except Fault (OutputMemoryBuffer α × Result α)) =
        .ok (b', .position (a.seek .output op).2) ∧ Holds b' (a.seek .output op).1 := by
    intro s hs htarget
    rw [ArrayCursor.seek, htarget]
    exact ⟨s, rfl, hs⟩
  cases op with
  | seekpos pos which =>
      rw [OutputMemoryBuffer.step]
      by_cases hwhich : which = .output
      · subst hwhich
        exact hstep (hmoved b pos.toInt pos.toInt h Iff.rfl fun _ => rfl) rfl
      · rw [OutputMemoryBuffer.seekpos, if_pos hwhich]
        exact hstay h (if_neg hwhich)
  | seekoff off way which =>
      rw [OutputMemoryBuffer.step, OutputMemoryBuffer.seekoff]
      by_cases hwhich : which = .output
      · subst hwhich
        rw [if_neg (by simp)]
        dsimp only
        cases way with
        | beg => exact hstep (hmoved _ off.toInt off.toInt hholds Iff.rfl fun _ => rfl) rfl
        | cur =>
            obtain ⟨hiff, heq⟩ := addOffset_reaches_iff off hle (by omega : a.items.length < 2 ^ 63)
            rw [hpos]
            exact hstep (hmoved _ _ (off.toInt + a.pos) hholds hiff fun hr => heq hr.1 hr.2) rfl
        | last =>
            obtain ⟨hiff, heq⟩ := addOffset_reaches_iff off (Nat.le_refl a.items.length) (by omega : a.items.length < 2 ^ 63)
            dsimp only
            rw [hmax, addOffset_comm]
            exact hstep (hmoved _ _ (off.toInt + a.items.length) hholds hiff fun hr => heq hr.1 hr.2) rfl
        | other => exact hstay hholds rfl
      · rw [if_pos hwhich]
        exact hstay h (if_neg hwhich)

def written (ops : List (Op α)) : Nat := (ops.map Op.written).sum

theorem Holds.run (ops : List (Op α)) (h : Holds b a) (hlength : a.items.length + written ops < 2 ^ 31) :
    ∃ b', b.run ops = .ok (b', (a.run ops).2) ∧ Holds b' (a.run ops).1 := by
  induction ops generalizing b a with
  | nil => exact ⟨b, rfl, h⟩
  | cons op ops ih =>
      have hwritten : written (op :: ops) = op.written + written ops := by simp [written]
      rw [hwritten] at hlength
      have hstep : ∃ b', b.step op = .ok (b', (a.step op).2) ∧ Holds b' (a.step op).1 ∧
          (a.step op).1.items.length ≤ a.items.length + op.written := by
        cases op with
        | sputc c =>
            obtain ⟨b', hput, hholds⟩ := @Holds.sputc _ _ _ c h (by omega)
            refine ⟨b', ?_, hholds, length_write_le a c⟩
            rw [OutputMemoryBuffer.step, hput]
            rfl
        | sputn cs =>
            obtain ⟨b', hput, hholds, hle⟩ := h.sputn cs (by rw [Op.written] at hlength; omega)
            refine ⟨b', ?_, hholds, hle⟩
            rw [OutputMemoryBuffer.step, hput]
            rfl
        | seek op =>
            obtain ⟨b', hrun, hholds⟩ := h.seek (by omega) op
            refine ⟨b', hrun, hholds, ?_⟩
            have hitems : (a.seek .output op).1.items = a.items := by
              unfold ArrayCursor.seek
              split
              · split <;> rfl
              · rfl
            exact Nat.le_of_eq (congrArg List.length hitems)
      obtain ⟨b', hrun, hholds, hle⟩ := hstep
      obtain ⟨b'', hrest, hholds'⟩ := ih hholds (by omega)
      refine ⟨b'', ?_, hholds'⟩
      rw [OutputMemoryBuffer.run, hrun, ok_bind]
      dsimp only
      rw [hrest]
      rfl

end

/-! ## 読む側 -/

section

variable {s s' : Pair α} {op : InputOp}

theorem sgetn_eq (b : InputMemoryBuffer α) (n : Nat) :
    b.sgetn n = ({ b with gptr := b.gptr + ((b.data.drop b.gptr).take n).length }, (b.data.drop b.gptr).take n) := by
  induction n generalizing b with
  | zero => simp [InputMemoryBuffer.sgetn]
  | succ n ih =>
      have hget : b.sgetc = b.data[b.gptr]? := by
        unfold InputMemoryBuffer.sgetc
        split <;> rfl
      rw [InputMemoryBuffer.sgetn, hget]
      cases hc : b.data[b.gptr]? with
      | none =>
          have hle := List.getElem?_eq_none_iff.mp hc
          simp [List.drop_eq_nil_of_le hle]
      | some c =>
          obtain ⟨hlt, rfl⟩ := List.getElem?_eq_some_iff.mp hc
          dsimp only
          rw [ih, List.drop_eq_getElem_cons hlt, List.take_succ_cons, List.length_cons, Nat.add_assoc, Nat.add_comm 1]

structure Pair.Same (s : Pair α) : Prop where
  data : s.1.data = s.2.items
  position : s.1.gptr = s.2.pos
  inside : s.2.pos ≤ s.2.items.length

theorem Pair.Same.seek (h : s.Same) (op : Seek) : s.1.seek op = (s.1, (s.2.seek .input op).2) := by
  have hsize := s.1.size_lt
  rw [h.data] at hsize
  have hseekpos : ∀ (pos target : Int), (s.2.Reaches pos ↔ s.2.Reaches target) → (s.2.Reaches target → pos = target) →
      s.2.target .input op = some target → s.1.seekpos pos .input = (s.1, (s.2.seek .input op).2) := by
    intro pos target hreach heq htarget
    rw [InputMemoryBuffer.seekpos, if_neg (by simp), ArrayCursor.seek, htarget, h.data]
    dsimp only
    by_cases ht : s.2.Reaches target
    · have hp := hreach.mpr ht
      unfold ArrayCursor.Reaches at hp
      rw [if_neg (by omega), if_pos ht, heq ht]
    · have hp := mt hreach.mp ht
      unfold ArrayCursor.Reaches at hp
      rw [if_pos (by omega), if_neg ht]
  have hstay : s.2.target .input op = none → (s.1, (-1 : Int)) = (s.1, (s.2.seek .input op).2) := by
    intro htarget
    rw [ArrayCursor.seek, htarget]
  cases op with
  | seekpos pos which =>
      rw [InputMemoryBuffer.seek]
      by_cases hwhich : which = .input
      · subst hwhich
        exact hseekpos _ _ Iff.rfl (fun _ => rfl) rfl
      · rw [InputMemoryBuffer.seekpos, if_pos hwhich]
        exact hstay (if_neg hwhich)
  | seekoff off way which =>
      unfold InputMemoryBuffer.seek InputMemoryBuffer.seekoff
      dsimp only
      by_cases hwhich : which = .input
      · subst hwhich
        rw [if_neg (by simp)]
        cases way with
        | beg => exact hseekpos _ _ Iff.rfl (fun _ => rfl) rfl
        | cur =>
            obtain ⟨hiff, heq⟩ := addOffset_reaches_iff off h.inside hsize
            dsimp only
            rw [h.position]
            exact hseekpos _ (off.toInt + s.2.pos) hiff (fun hr => heq hr.1 hr.2) rfl
        | last =>
            obtain ⟨hiff, heq⟩ := addOffset_reaches_iff off (Nat.le_refl s.2.items.length) hsize
            dsimp only
            rw [h.data, addOffset_comm]
            exact hseekpos _ (off.toInt + s.2.items.length) hiff (fun hr => heq hr.1 hr.2) rfl
        | other => exact hstay rfl
      · rw [if_pos hwhich]
        exact hstay (if_neg hwhich)

theorem Pair.Same.agrees (h : s.Same) : s.Agrees := by
  refine ⟨h.position, ?_, fun n => ?_, fun op => congrArg Prod.snd (h.seek op)⟩
  · rw [← h.position, ← h.data]
    unfold InputMemoryBuffer.sgetc
    split <;> rfl
  · rw [sgetn_eq]
    dsimp only [ArrayCursor.read]
    rw [h.data, h.position]

theorem Pair.Same.step (h : s.Same) (hstep : s.step op = some s') : (s.Stays op → s'.Same) ∧
    (s'.1.gptr = s'.2.pos → s.Stays op) := by
  cases op with
  | sgetc =>
      obtain rfl := Option.some.inj hstep
      exact ⟨fun _ => h, fun _ => trivial⟩
  | sgetn n =>
      obtain rfl := Option.some.inj hstep
      refine ⟨fun _ => ?_, fun _ => trivial⟩
      have hinside := h.inside
      rw [sgetn_eq]
      refine ⟨h.data, ?_, ?_⟩
      · dsimp only [ArrayCursor.read]
        rw [h.data, h.position]
      · dsimp only [ArrayCursor.read]
        rw [List.length_take, List.length_drop]
        omega
  | seek op =>
      obtain rfl := Option.some.inj hstep
      rw [h.seek]
      unfold ArrayCursor.seek
      cases htarget : s.2.target .input op with
      | none =>
          refine ⟨fun _ => h, fun _ target htarget' => ?_⟩
          cases htarget.symm.trans htarget'
      | some target =>
          dsimp only
          by_cases hreach : s.2.Reaches target
          · rw [if_pos hreach]
            constructor
            · intro hstays
              have heq := hstays target htarget hreach
              refine ⟨h.data, ?_, Int.toNat_le.mpr hreach.2⟩
              rw [h.position, heq]
              rfl
            · intro heq target' htarget' _
              obtain rfl := Option.some.inj (htarget.symm.trans htarget')
              dsimp only at heq
              rw [← h.position, heq]
              exact (Int.toNat_of_nonneg hreach.1).symm
          · rw [if_neg hreach]
            refine ⟨fun _ => h, fun _ target' htarget' hreach' => ?_⟩
            obtain rfl := Option.some.inj (htarget.symm.trans htarget')
            exact absurd hreach' hreach

end

/-- 書く側は、どの操作の列でも、位置を持つ配列と同じである。読む側が、列のどこでも配列と同じであるのは、成功するどの移動の行き先も今の位置である時、しかもその時に限る。 -/
theorem memory_streams_iff (initialSize : Nat) {ops : List (Op α)} (hwritten : written ops < 2 ^ 31)
    {data : List α} (h : data.length < 2 ^ 63)
    (inputs : List InputOp) {s : Pair α} (hrun : execute Pair.step (.new data h, ⟨data, 0⟩) inputs = some s) :
    (∃ b, (OutputMemoryBuffer.new α initialSize).run ops = .ok (b, (ArrayCursor.run ⟨[], 0⟩ ops).2) ∧
        b.stored = (ArrayCursor.run ⟨[], 0⟩ ops).1.items.map some ∧ b.pptr = (ArrayCursor.run ⟨[], 0⟩ ops).1.pos) ∧
      ((∀ before u, before <+: inputs → execute Pair.step (.new data h, ⟨data, 0⟩) before = some u →
        u.Agrees) ↔ Along Pair.step Pair.Stays (.new data h, ⟨data, 0⟩) inputs) := by
  constructor
  · obtain ⟨b, hb, hholds⟩ := (holds_new initialSize).run ops (by rwa [List.length_nil, Nat.zero_add])
    refine ⟨b, hb, ?_, hholds.pos⟩
    rw [OutputMemoryBuffer.stored, hholds.largest]
    exact hholds.stored
  · exact execute_iff_along (I := Pair.Same) (fun s op t hs hstep => (hs.step hstep).1) (fun s hs => hs.agrees)
      (fun s op t hs hstep ht => (hs.step hstep).2 ht.position) ⟨rfl, rfl, Nat.zero_le _⟩ hrun

theorem memory_streams_iff_sample :
    (∃ b, (OutputMemoryBuffer.new Nat 1).run [.sputn [1, 2, 3], .seek (.seekpos 1 .output),
    .sputc 9, .seek (.seekoff 0 .last .output)] =
        .ok (b, [.count 3, .position 1, .char (some 9), .position 3]) ∧ b.stored = [some 1, some 9, some 3] ∧ b.pptr = 3) ∧
      ∀ before u, before <+: [InputOp.sgetn 2, .seek (.seekoff 0 .cur .input)] →
        execute Pair.step (.new [5, 6, 7] (by decide), ⟨[5, 6, 7], 0⟩) before = some u → u.Agrees := by
  have hwritten : written [Op.sputn [1, 2, 3], .seek (.seekpos 1 .output), .sputc 9,
      .seek (.seekoff 0 .last .output)] < 2 ^ 31 := by decide
  have hboth := memory_streams_iff 1 hwritten (show [5, 6, 7].length < 2 ^ 63 by decide)
      [.sgetn 2, .seek (.seekoff 0 .cur .input)] rfl
  refine ⟨hboth.1, hboth.2.mpr ⟨trivial, ?_, trivial⟩⟩
  rintro target htarget -
  exact (Option.some.inj htarget).symm

/-- 始まりに戻る移動は、成功しても動かない。 -/
theorem input_seek_ignored :
    ¬ ∀ (data : List Nat) (h : data.length < 2 ^ 63) (inputs : List InputOp) (s : Pair Nat),
      execute Pair.step (.new data h, ⟨data, 0⟩) inputs = some s → s.Agrees := by
  intro h
  have hagrees := h [5, 6, 7] (by decide) [.sgetn 2, .seek (.seekpos 0 .input)] _ rfl
  exact absurd hagrees.position (by decide)

end UnixCommons.Stream.Memory
