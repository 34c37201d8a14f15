import UnixCommons.Generics.Lemmas.FileCache

/-!
# ファイルのキャッシュの定理

どの列でも、使われている緩衝域は更新されない。
-/

namespace UnixCommons.Generics.FileCache

open Lib

variable {σ ε : Type} {checker : σ} {s : State σ} {objectIsChanged : CheckStrategy σ ε} {actions : List (Action ε)}

/-! ## 使われている緩衝域 -/

/-- `update` の間は、呼び出し側の参照がない。鍵が空いていれば、`buffer` と `unreferencedBuffer` の一方だけが指す。`Cache` の参照があれば、緩衝域は
壊されておらず、その参照を `unreferencedBuffer` か呼び出し側が持つ。 -/
structure State.Safe (s : State σ) : Prop where
  quiet : .updating ∈ s.calls → s.holders = 0
  single : s.mutex = none → 0 < s.cacheRefs → s.buffer ≠ s.unreferencedBuffer
  owned : 0 < s.cacheRefs → s.destroyed = false ∧ s.refCount = s.holders + s.unreferencedBuffer.toNat ∧ 0 < s.refCount

theorem State.Inv.safe (hinv : s.Inv) : s.Safe := by
  have hl := hinv.locked
  have hs := hinv.counted
  constructor
  · intro h
    obtain ⟨i, hi⟩ := List.mem_iff_getElem?.mp h
    have hb := hl.updating i hi
    have hheld := hs.held.not
    simp only [hb, Bool.false_eq_true, not_false_eq_true, true_iff] at hheld
    exact Nat.eq_zero_of_not_pos hheld
  · intro _ hpos
    obtain ⟨-, hun⟩ := hs.alive hpos
    cases hb : s.buffer with
    | true => simp [hb] at hun; simp [hun]
    | false => simp [hb] at hun; simp [hun]
  · intro hpos
    obtain ⟨hd, hun⟩ := hs.alive hpos
    refine ⟨hd, hs.refCount, ?_⟩
    rw [hs.refCount]
    cases hb : s.buffer with
    | true => exact Nat.add_pos_left (hs.held.mp hb) _
    | false => simp [hun.mpr hb]

/-- どの検査と更新の結果の、どの順の歩みの後でも、使われている緩衝域は更新されない。 -/
theorem file_cache_safe (hrun : execute (step objectIsChanged) (State.init checker) actions = some s) : s.Safe := by
  have hinv : s.Inv := execute_always (fun _ _ _ hs h => hs.step h) (.init checker) hrun
  exact hinv.safe

/-- 二つの呼び出しが参照を返し、三つ目が、変わった元の更新のために、放されるのを待つ列。 -/
def sharedRun : List (Action (Option Int)) :=
  [.get, .check 0 (some 1), .update 0 true, .share 0, .get, .check 1 (some 1), .share 1, .get,
    .check 2 (some 2), .release 0, .release 1, .wake 2]

theorem file_cache_safe_shared :
    ∃ s, execute (step SimpleFileCheckStrategy.objectIsChanged) (State.init 0) sharedRun = some s ∧
      .updating ∈ s.calls ∧ s.Safe := by
  have hrun : execute (step SimpleFileCheckStrategy.objectIsChanged) (State.init 0) sharedRun = some _ := rfl
  exact ⟨_, hrun, by decide, file_cache_safe hrun⟩

/-! ## 変わったことの知らせ -/

/-- 知らせを受けた `g` が終わり、その後に始まった `g'` が緩衝域を返すならば、知らせから返すまでに、`update` が終えている。記録は新しい順である。 -/
def NoLostChange (log : List Event) : Prop :=
  ∀ g g' ended before between₁ between₂ between₃ after,
    log = after ++ .returned g' ::
    (between₃ ++ .started g' :: (between₂ ++ ended :: (between₁ ++ .changed g :: before))) →
      ended = .returned g ∨ ended = .threw g → .updated ∈ between₃ ++ between₂ ++ between₁

/-- 知らせに応えずに終わる歩みのない列の、どの状態でも、知らせは失われていない。 -/
theorem no_lost_change_run
    (hok : Along (step objectIsChanged) (fun s action => dropped s action = false) (State.init checker) actions)
    (hrun : execute (step objectIsChanged) (State.init checker) actions = some s) : NoLostChange s.log := by
  have hs : s.Answered := execute_invariant (fun _ _ _ hs hok h => hs.step hok h) (.init checker) hok hrun
  intro g g' ended before between₁ between₂ between₃ after hlog hended
  have hupdated : .updated ∈ between₁ := by
    apply hs.ended g ended before between₁ (after ++ .returned g' :: (between₃ ++ .started g' :: between₂)) _ hended
    simp [hlog]
  exact List.mem_append_right _ hupdated

def changedRun : List (Action (Option Int)) :=
  [.get, .check 0 (some 1), .update 0 true, .share 0, .get, .check 1 (some 2), .release 0,
    .releaseCache 0, .wake 1, .update 1 true, .share 1, .get, .check 2 (some 2), .share 2]

theorem no_lost_change_run_changed :
    ∃ s, execute (step SimpleFileCheckStrategy.objectIsChanged) (State.init 0) changedRun = some s ∧
      s.log.head? = some (.returned 2) ∧ NoLostChange s.log := by
  have hok : Along (step SimpleFileCheckStrategy.objectIsChanged)
      (fun s action => dropped s action = false) (State.init 0) changedRun := by decide
  exact ⟨_, rfl, rfl, no_lost_change_run hok rfl⟩

/-- 初めの `update` が例外を投げ、次の `get` が、読まれていない緩衝域を返す列。 -/
def failedRun : List (Action (Option Int)) :=
  [.get, .check 0 (some 1), .update 0 false, .get, .check 1 (some 1), .share 1]

theorem no_lost_change_failed :
    ∃ s, execute (step SimpleFileCheckStrategy.objectIsChanged) (State.init 0) failedRun = some s ∧
      ¬ NoLostChange s.log := by
  refine ⟨_, rfl, fun h => ?_⟩
  have hupdated := h 0 1 (.threw 0) [.started 0] [] [] [] [] rfl (.inr rfl)
  cases hupdated

/-- 待ちを終えた `get` が、その間にまた共有された古い緩衝域を返し、次の `get` も、それを返す列。 -/
def resharedRun : List (Action (Option Int)) :=
  [.get, .check 0 (some 1), .update 0 true, .share 0, .get, .check 1 (some 2), .release 0, .get,
    .check 2 (some 2), .share 2, .wake 1, .share 1, .get, .check 3 (some 2), .share 3]

example : (execute (step SimpleFileCheckStrategy.objectIsChanged) (State.init 0) resharedRun).map
    (fun s => s.log.take 5) =
    some [.returned 3, .started 3, .returned 1, .returned 2, .started 2] := by decide

end UnixCommons.Generics.FileCache
