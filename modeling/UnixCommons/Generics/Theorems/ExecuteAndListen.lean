import Mathlib.Data.List.Nodup
import UnixCommons.Generics.ExecuteAndListen

/-!
# 子のプロセスの記述子の定理

定め直すループは、番号がどう重なっても、write_descriptors の指す物を失わない。
-/

namespace UnixCommons.Generics.Execute

open Lib

variable {table table' : Descriptors File} {holder holder' : DescriptorsHolder}
    {descriptors redirectDescriptors : List Nat}

def files (table : Descriptors File) (fds : List Nat) : List (Option File) := fds.map table.file

structure Owned (table : Descriptors File) (fds : List Nat) : Prop where
  nodup : fds.Nodup
  opened : ∀ fd ∈ fds, table.file fd ≠ none

theorem files_congr {fds : List Nat} (h : ∀ fd ∈ fds, table'.file fd = table.file fd) :
    files table' fds = files table fds := List.map_congr_left h

/-! ## 定め直すループ -/

theorem dup_clash {fds : List Nat} {fd : Nat} (h : Owned table fds) (hopen : table.file fd ≠ none)
    {k : Nat} (hget : fds[k]? = some fd) :
    ∃ table' new, table.dup fd = some (table', new) ∧ Owned table' (fds.set k new) ∧ fd ∉ fds.set k new ∧
      files table' (fds.set k new) = files table fds ∧ (∀ x ∈ fds.set k new, x ∈ fds ∨ table.file x = none) ∧
        ∀ x, table.file x ≠ none → table'.file x = table.file x := by
  obtain ⟨f, hf⟩ := Option.ne_none_iff_exists'.mp hopen
  obtain ⟨table', new, hdup, hfree, hfile⟩ := Descriptors.dup_spec hf
  have hkept : ∀ x, table.file x ≠ none → table'.file x = table.file x := by
    intro x hx
    have hne : x ≠ new := fun heq => hx (heq ▸ hfree)
    rw [hfile, if_neg hne]
  have hnew : new ∉ fds := fun hmem => h.opened new hmem hfree
  obtain ⟨hlt, heq⟩ := List.getElem?_eq_some_iff.mp hget
  have hfiles : files table' (fds.set k new) = files table fds := by
    refine List.ext_getElem? fun j => ?_
    unfold files
    rw [List.getElem?_map, List.getElem?_map]
    by_cases hkj : k = j
    · subst hkj
      rw [List.getElem?_set_self hlt, hget, Option.map_some, Option.map_some, hfile, if_pos rfl, hf]
    · rw [List.getElem?_set_ne hkj]
      cases hj : fds[j]? with
      | none => rfl
      | some x => rw [Option.map_some, Option.map_some, hkept x (h.opened x (List.mem_of_getElem? hj))]
  have hnodup : (fds.set k new).Nodup := h.nodup.set hnew
  refine ⟨table', new, hdup, ⟨hnodup, fun x hx => ?_⟩, fun hmem => ?_, hfiles, fun x hx => ?_, hkept⟩
  · rcases List.mem_or_eq_of_mem_set hx with hx | rfl
    · rw [hkept x (h.opened x hx)]
      exact h.opened x hx
    · rw [hfile, if_pos rfl]
      exact Option.some_ne_none f
  · obtain ⟨j, hj⟩ := List.mem_iff_getElem?.mp hmem
    by_cases hkj : k = j
    · subst hkj
      rw [List.getElem?_set_self hlt] at hj
      exact hopen (Option.some.inj hj ▸ hfree)
    · rw [List.getElem?_set_ne hkj] at hj
      exact hkj ((List.getElem?_inj hlt h.nodup).mp (hget.trans hj.symm))
  · rcases List.mem_or_eq_of_mem_set hx with hx | rfl
    · exact .inl hx
    · exact .inr hfree

theorem redefine_spec {fds : List Nat} {write d : Nat} (h : Owned table (fds ++ [write]))
    (heq : holder.descriptors = fds ++ [write]) :
    ∃ table' holder', redefine table holder d = some (table', holder') ∧
      Owned table' holder'.descriptors ∧ d ∉ holder'.descriptors ∧
      table'.file d = table.file write ∧ files table' holder'.descriptors = files table fds ∧
        (∀ x ∈ holder'.descriptors, x ∈ fds ∨ table.file x = none) ∧
          ∀ x, table.file x ≠ none → x ∉ fds ++ [write] → x ≠ d → table'.file x = table.file x := by
  obtain ⟨hfds, -, hdisjoint⟩ := List.nodup_append.mp h.nodup
  have hwrite : table.file write ≠ none := h.opened write (by simp)
  have hnew : write ∉ fds := fun hmem => hdisjoint write hmem write (List.mem_singleton_self _) rfl
  have hleft : Owned table fds := ⟨hfds, fun fd hfd => h.opened fd (List.mem_append_left _ hfd)⟩
  have hpop : ∃ rest, holder.popBack = some (write, rest) ∧ rest.descriptors = fds := by
    have hlast : holder.descriptors.getLast? = some write := by rw [heq, List.getLast?_concat]
    refine ⟨_, Option.map_eq_some_iff.mpr ⟨write, hlast, rfl⟩, ?_⟩
    dsimp only
    rw [heq, List.dropLast_concat]
  obtain ⟨rest, hpop, rfl⟩ := hpop
  unfold redefine
  rw [hpop]
  dsimp only [Option.bind_eq_bind, Option.bind_some]
  by_cases hd : write = d
  · subst hd
    rw [if_pos rfl]
    exact ⟨_, _, rfl, hleft, hnew, rfl, rfl, fun x hx => .inl hx, fun x _ _ _ => rfl⟩
  · rw [if_neg hd]
    -- 重なりを移した後の表と番号について示せば足りる。
    have hrest : ∀ (moved : Descriptors File) (rest' : DescriptorsHolder),
        Owned moved rest'.descriptors → d ∉ rest'.descriptors →
        files moved rest'.descriptors = files table rest.descriptors →
        (∀ x ∈ rest'.descriptors, x ∈ rest.descriptors ∨ table.file x = none) →
          (∀ x, table.file x ≠ none → moved.file x = table.file x) →
            ∃ table', (do
                let table ← moved.dup2 write d
                let table ← table.close write
                return (table, rest')) = some (table', rest') ∧
              Owned table' rest'.descriptors ∧ table'.file d = table.file write ∧
                files table' rest'.descriptors = files table rest.descriptors ∧
                ∀ x, table.file x ≠ none → x ∉ rest.descriptors ++ [write] → x ≠ d → table'.file x = table.file x := by
      intro moved rest' howned hclash hfiles hfrom hkept
      have hmoved := hkept write hwrite
      obtain ⟨f, hf⟩ := Option.ne_none_iff_exists'.mp hwrite
      rw [hf] at hmoved
      obtain ⟨dupped, hdup, hdupped⟩ := Descriptors.dup2_spec hmoved d
      have hopen : dupped.file write = some f := by rw [hdupped, if_neg hd, hmoved]
      obtain ⟨closed, hclose, hclosed⟩ := Descriptors.close_spec hopen
      have hfile : ∀ x, x ≠ d → x ≠ write → closed.file x = moved.file x := by
        intro x hxd hxw
        rw [hclosed, if_neg hxw, hdupped, if_neg hxd]
      have hsame : ∀ x ∈ rest'.descriptors, closed.file x = moved.file x := by
        intro x hx
        have hxw : x ≠ write := by
          rintro rfl
          rcases hfrom x hx with hmem | hnone
          · exact hnew hmem
          · exact hwrite hnone
        exact hfile x (fun hxd => hclash (hxd ▸ hx)) hxw
      refine ⟨closed,
        by rw [hdup]; dsimp only [Option.bind_eq_bind, Option.bind_some]; rw [hclose]; rfl, ?_, ?_, ?_, ?_⟩
      · exact ⟨howned.nodup, fun x hx => by rw [hsame x hx]; exact howned.opened x hx⟩
      · rw [hclosed, if_neg (Ne.symm hd), hdupped, if_pos rfl, hf]
      · rw [files_congr hsame, hfiles]
      · intro x hx hout hxd
        have hxw : x ≠ write := fun hxw => hout (List.mem_append_right _ (List.mem_singleton.mpr hxw))
        rw [hfile x hxd hxw, hkept x hx]
    cases hfind : rest.find d with
    | none =>
        have hclash : d ∉ rest.descriptors := fun hmem => by
          have hnone := List.findIdx?_eq_none_iff.mp hfind d hmem
          exact absurd hnone (by simp)
        obtain ⟨table', hresult, howned, hfile, hfiles, hkept⟩ :=
          hrest table _ hleft hclash rfl (fun x hx => .inl hx) (fun x _ => rfl)
        exact ⟨table', _, hresult, howned, hclash, hfile, hfiles, fun x hx => .inl hx, hkept⟩
    | some k =>
        obtain ⟨hlt, hget, -⟩ := List.findIdx?_eq_some_iff_getElem.mp hfind
        have hk : rest.descriptors[k]? = some d := List.getElem?_eq_some_iff.mpr ⟨hlt, of_decide_eq_true hget⟩
        obtain ⟨moved, new, hdup, howned, hclash, hfiles, hfrom, hkept⟩ :=
          dup_clash hleft (hleft.opened d (List.mem_of_getElem? hk)) hk
        obtain ⟨table', hresult, howned, hfile, hfiles, hkept⟩ :=
          hrest moved (rest.set k new) howned hclash hfiles hfrom hkept
        dsimp only
        rw [hdup]
        exact ⟨table', _, hresult, howned, hclash, hfile, hfiles, hfrom, hkept⟩

theorem redefineLoop_spec (hnodup : descriptors.Nodup) {i b : Nat} (hi : i ≤ descriptors.length)
    (h : Owned table holder.descriptors) (hlen : holder.descriptors.length = b + i) :
    ∃ table' holder', redefineLoop descriptors i table holder = some (table', holder') ∧
      files table' (descriptors.take i) = (files table holder.descriptors).drop b ∧
        files table' holder'.descriptors = (files table holder.descriptors).take b ∧
          ∀ x, table.file x ≠ none → x ∉ holder.descriptors → x ∉ descriptors.take i →
          table'.file x = table.file x := by
  induction i generalizing table holder with
  | zero =>
      have hfiles : (files table holder.descriptors).length = b := by rw [files, List.length_map, hlen, Nat.add_zero]
      refine ⟨table, holder, rfl, ?_, ?_, fun x _ _ _ => rfl⟩
      · rw [List.drop_of_length_le (Nat.le_of_eq hfiles)]
        rfl
      · rw [List.take_of_length_le (Nat.le_of_eq hfiles)]
  | succ i ih =>
      have hlt : i < descriptors.length := hi
      have hne : holder.descriptors ≠ [] := by
        intro hnil
        rw [hnil, List.length_nil] at hlen
        omega
      obtain ⟨fds, write, heq⟩ : ∃ fds write, holder.descriptors = fds ++ [write] :=
        ⟨_, _, (List.dropLast_concat_getLast hne).symm⟩
      have hfds : fds.length = b + i := by
        rw [heq, List.length_append, List.length_singleton] at hlen
        omega
      obtain ⟨table₁, holder₁, hone, howned, hclash, hfile, hfiles, hfrom, hkept⟩ :=
        redefine_spec (d := descriptors[i]) (heq ▸ h) heq
      have hlen₁ : holder₁.descriptors.length = b + i := by
        have := congrArg List.length hfiles
        rwa [files, files, List.length_map, List.length_map, hfds] at this
      obtain ⟨table', holder', hloop, hpipes, hrest, hframe⟩ := ih (Nat.le_of_lt hlt) howned hlen₁
      have hopen : table₁.file descriptors[i] ≠ none := by
        rw [hfile]
        exact h.opened write (heq ▸ List.mem_append_right _ (List.mem_singleton_self _))
      have hlast : descriptors[i] ∉ descriptors.take i := by
        intro hmem
        obtain ⟨j, hj, hget⟩ := List.mem_take_iff_getElem.mp hmem
        have := (List.Nodup.getElem_inj_iff hnodup).mp hget
        omega
      have hsplit : files table holder.descriptors = files table fds ++ [table.file write] := by
        rw [heq, files, files, List.map_append]
        rfl
      have hfileslen : (files table fds).length = b + i := by rw [files, List.length_map, hfds]
      refine ⟨table', holder', ?_, ?_, ?_, ?_⟩
      · rw [redefineLoop, List.getElem?_eq_getElem hlt]
        dsimp only [Option.bind_eq_bind, Option.bind_some]
        rw [hone]
        exact hloop
      · rw [List.take_succ_eq_append_getElem hlt, files, List.map_append, List.map_singleton, hsplit,
          List.drop_append_of_le_length (by omega), hframe _ hopen hclash hlast, hfile, ← hfiles]
        exact congrArg (· ++ [table.file write]) hpipes
      · rw [hrest, hfiles, hsplit, List.take_append_of_le_length (by omega)]
      · intro x hx hout hnot
        rw [heq] at hout
        rw [List.take_succ_eq_append_getElem hlt, List.mem_append, List.mem_singleton] at hnot
        obtain ⟨hnot, hxd⟩ := not_or.mp hnot
        have hx₁ := hkept x hx hout hxd
        have hout₁ : x ∉ holder₁.descriptors := by
          intro hmem
          rcases hfrom x hmem with hmem | hnone
          · exact hout (List.mem_append_left _ hmem)
          · exact hx hnone
        rw [hframe x (by rwa [hx₁]) hout₁ hnot, hx₁]

/-! ## 親の作る pipe -/

section

variable {piped : Nat × Nat} {file : File}
    {readDescriptors writeDescriptors readDescriptors' writeDescriptors' : DescriptorsHolder}

theorem Owned.perm {fds fds' : List Nat} (h : Owned table fds) (hperm : fds'.Perm fds) : Owned table fds' :=
  ⟨hperm.nodup_iff.mpr h.nodup, fun fd hfd => h.opened fd (hperm.mem_iff.mp hfd)⟩

theorem pushBack_descriptors {fd : Nat} (h : holder.pushBack fd = some holder') :
    holder'.descriptors = holder.descriptors ++ [fd] := by
  unfold DescriptorsHolder.pushBack at h
  split at h
  · cases h
  · obtain rfl := Option.some.inj h
    rfl

theorem pipe_spec (h : pipe table piped file = some table') :
    table.file piped.1 = none ∧ table.file piped.2 = none ∧ piped.1 ≠ piped.2 ∧
      table'.file piped.1 ≠ none ∧ table'.file piped.2 = some file ∧
      ∀ x, table.file x ≠ none → table'.file x = table.file x := by
  unfold pipe at h
  split at h
  · rename_i hfree
    obtain ⟨hread, hwrite, hne⟩ := hfree
    obtain rfl := Option.some.inj h
    have hfile : ∀ x, ((table.set piped.1 (some .readEnd)).set piped.2 (some file)).file x =
        if x = piped.2 then some file else if x = piped.1 then some .readEnd else table.file x := fun _ => rfl
    refine ⟨hread, hwrite, hne, ?_, ?_, fun x hx => ?_⟩
    · rw [hfile, if_neg hne, if_pos rfl]
      exact Option.some_ne_none _
    · rw [hfile, if_pos rfl]
    · have hx₁ : x ≠ piped.1 := fun heq => hx (heq ▸ hread)
      have hx₂ : x ≠ piped.2 := fun heq => hx (heq ▸ hwrite)
      rw [hfile, if_neg hx₂, if_neg hx₁]
  · cases h

theorem Owned.pipe {fds : List Nat} (h : Owned table fds)
    (hpipe : pipe table piped file = some table') : Owned table' (piped.1 :: piped.2 :: fds) := by
  obtain ⟨hread, hwrite, hne, hread', hwrite', hkept⟩ := pipe_spec hpipe
  constructor
  · refine List.nodup_cons.mpr ⟨?_, List.nodup_cons.mpr ⟨fun hmem => h.opened _ hmem hwrite, h.nodup⟩⟩
    intro hmem
    rcases List.mem_cons.mp hmem with heq | hmem
    · exact hne heq
    · exact h.opened _ hmem hread
  · intro fd hfd
    rcases List.mem_cons.mp hfd with rfl | hfd
    · exact hread'
    · rcases List.mem_cons.mp hfd with rfl | hfd
      · rw [hwrite']
        exact Option.some_ne_none _
      · rw [hkept fd (h.opened fd hfd)]
        exact h.opened fd hfd

theorem createPipesLoop_spec {pipes : List (Nat × Nat)} {i : Nat} {others : List Nat}
    (h : createPipesLoop pipes i table readDescriptors writeDescriptors = some
    (table', readDescriptors', writeDescriptors'))
    (howned : Owned table (others ++ (readDescriptors.descriptors ++ writeDescriptors.descriptors))) :
    readDescriptors'.descriptors = readDescriptors.descriptors ++ pipes.map Prod.fst ∧
      writeDescriptors'.descriptors = writeDescriptors.descriptors ++ pipes.map Prod.snd ∧
        Owned table' (others ++ (readDescriptors'.descriptors ++ writeDescriptors'.descriptors)) ∧
          files table' (pipes.map Prod.snd) = (List.range' i pipes.length).map (some ∘ File.pipe) ∧
            (∀ x ∈ pipes.map Prod.fst ++ pipes.map Prod.snd, table.file x = none) ∧ ∀ x,
            table.file x ≠ none → table'.file x = table.file x := by
  induction pipes generalizing i table readDescriptors writeDescriptors with
  | nil =>
      cases h
      exact ⟨(List.append_nil _).symm, (List.append_nil _).symm, howned, rfl, fun _ hx =>
        absurd hx List.not_mem_nil, fun _ _ => rfl⟩
  | cons piped pipes ih =>
      unfold createPipesLoop at h
      obtain ⟨table₁, hpipe, h⟩ := Option.bind_eq_some_iff.mp h
      obtain ⟨read₁, hread, h⟩ := Option.bind_eq_some_iff.mp h
      obtain ⟨write₁, hwrite, h⟩ := Option.bind_eq_some_iff.mp h
      obtain ⟨hfree₁, hfree₂, -, -, hfile, hkept₁⟩ := pipe_spec hpipe
      have hread₁ := pushBack_descriptors hread
      have hwrite₁ := pushBack_descriptors hwrite
      have howned₁ : Owned table₁ (others ++ (read₁.descriptors ++ write₁.descriptors)) := by
        refine (howned.pipe hpipe).perm ?_
        rw [hread₁, hwrite₁]
        grind
      obtain ⟨hread', hwrite', howned', hfiles, hnone, hkept⟩ := ih h howned₁
      refine ⟨?_, ?_, howned', ?_, ?_, ?_⟩
      · rw [hread', hread₁, List.append_assoc]
        rfl
      · rw [hwrite', hwrite₁, List.append_assoc]
        rfl
      · rw [List.length_cons, List.range'_succ, List.map_cons, List.map_cons, files, List.map_cons,
          hkept _ (by rw [hfile]; exact Option.some_ne_none _), hfile]
        exact congrArg _ hfiles
      · intro x hx
        by_contra hopen
        have hx₁ : table₁.file x ≠ none := by rwa [hkept₁ x hopen]
        have hout : x ∉ pipes.map Prod.fst ++ pipes.map Prod.snd := fun hmem => hx₁ (hnone x hmem)
        rw [List.map_cons, List.map_cons] at hx
        have hcases : x = piped.1 ∨ x = piped.2 := by grind
        rcases hcases with rfl | rfl
        · exact hopen hfree₁
        · exact hopen hfree₂
      · intro x hx
        have hx₁ := hkept₁ x hx
        rw [hkept x (by rwa [hx₁]), hx₁]

/-- `write_descriptors` の番号が指すべき物。 -/
def errorFiles (errorPipe : Bool) : List (Option File) := if errorPipe then [some .errorPipe] else []

def pipeFiles (n : Nat) : List (Option File) := (List.range n).map (some ∘ File.pipe)

theorem createPipes_spec {errorPiped : Option (Nat × Nat)} {pipes : List (Nat × Nat)} {n m : Nat}
    (h : createPipes errorPiped pipes table (.new n) (.new m) = some (table', readDescriptors, writeDescriptors)) :
    Owned table' (readDescriptors.descriptors ++ writeDescriptors.descriptors) ∧
      files table' writeDescriptors.descriptors = errorFiles errorPiped.isSome ++ pipeFiles pipes.length ∧
        (∀ x ∈ readDescriptors.descriptors, table.file x = none) ∧ ∀ x, table.file x ≠ none →
        table'.file x = table.file x := by
  have hempty : Owned table [] := ⟨List.nodup_nil, fun _ h => absurd h List.not_mem_nil⟩
  cases errorPiped with
  | none =>
      obtain ⟨hread, hwrite, howned, hfiles, hnone, hkept⟩ := @createPipesLoop_spec _ _ _ _ _ _ _ _ [] h hempty
      refine ⟨howned, ?_, ?_, hkept⟩
      · rw [hwrite, pipeFiles, List.range_eq_range']
        exact hfiles
      · rw [hread]
        exact fun x hx => hnone x (List.mem_append_left _ hx)
  | some piped =>
      unfold createPipes at h
      obtain ⟨table₁, hpipe, h⟩ := Option.bind_eq_some_iff.mp h
      obtain ⟨write₁, hwrite₁, h⟩ := Option.bind_eq_some_iff.mp h
      obtain ⟨⟨table₂, read₂, write₂⟩, hloop, h⟩ := Option.bind_eq_some_iff.mp h
      obtain ⟨read₃, hread₃, h⟩ := Option.bind_eq_some_iff.mp h
      cases h
      obtain ⟨hfree₁, hfree₂, -, -, hfile, hkept₁⟩ := pipe_spec hpipe
      have hwriteone : write₁.descriptors = [piped.2] := pushBack_descriptors hwrite₁
      have howned₁ : Owned table₁ ([piped.1] ++ ((DescriptorsHolder.new n).descriptors ++ write₁.descriptors)) := by
        rw [hwriteone]
        exact hempty.pipe hpipe
      obtain ⟨hread, hwrite, howned, hfiles, hnone, hkept⟩ := createPipesLoop_spec hloop howned₁
      have hreadall := pushBack_descriptors hread₃
      rw [hwriteone] at hwrite
      refine ⟨howned.perm ?_, ?_, ?_, ?_⟩
      · rw [hreadall]
        grind
      · rw [hwrite, pipeFiles, List.range_eq_range', ← hfiles]
        refine congrArg (· :: files table' (pipes.map Prod.snd)) ?_
        rw [hkept _ (by rw [hfile]; exact Option.some_ne_none _), hfile]
      · intro x hx
        by_contra hopen
        rw [hreadall, hread] at hx
        rcases List.mem_append.mp hx with hx | hx
        · have hx₁ := hnone x (List.mem_append_left _ hx)
          rw [hkept₁ x hopen] at hx₁
          exact hopen hx₁
        · exact hopen (List.mem_singleton.mp hx ▸ hfree₁)
      · intro x hx
        have hx₁ := hkept₁ x hx
        rw [hkept x (by rwa [hx₁]), hx₁]

end

/-! ## 定理 -/

theorem right_iff {errorPipe : Bool} (hlen : holder.descriptors.length = (errorFiles errorPipe).length) :
    Right descriptors redirectDescriptors errorPipe table holder ↔
      files table descriptors = pipeFiles descriptors.length ∧
      (∀ fd ∈ redirectDescriptors, table.file fd = some .devNull) ∧
        files table holder.descriptors = errorFiles errorPipe := by
  have hpipes : files table descriptors = pipeFiles descriptors.length ↔ ∀ i fd, descriptors[i]? =
      some fd → table.file fd = some (.pipe i) := by
    unfold files pipeFiles
    constructor
    · intro heq i fd hget
      have hi : (descriptors.map table.file)[i]? =
          ((List.range descriptors.length).map (some ∘ File.pipe))[i]? := by rw [heq]
      rw [List.getElem?_map, hget, List.getElem?_map, List.getElem?_range (List.getElem?_eq_some_iff.mp hget).1] at hi
      exact Option.some.inj hi
    · intro h
      refine List.ext_getElem? fun i => ?_
      rw [List.getElem?_map, List.getElem?_map]
      cases hget : descriptors[i]? with
      | none => rw [List.getElem?_eq_none (by rw [List.length_range]; exact List.getElem?_eq_none_iff.mp hget)]; rfl
      | some fd =>
          rw [List.getElem?_range (List.getElem?_eq_some_iff.mp hget).1]
          exact congrArg some (h i fd hget)
  have herror : files table holder.descriptors = errorFiles errorPipe ↔
      (errorPipe = true → ∃ fd, holder.descriptors.head? = some fd ∧ table.file fd = some .errorPipe) := by
    cases errorPipe with
    | false =>
        refine iff_of_true ?_ (fun hfalse => nomatch hfalse)
        rw [List.length_eq_zero_iff.mp hlen]
        rfl
    | true =>
        obtain ⟨fd, hfd⟩ := List.length_eq_one_iff.mp hlen
        rw [hfd]
        constructor
        · exact fun heq _ => ⟨fd, rfl, (List.cons.inj heq).1⟩
        · intro h
          obtain ⟨fd', hfd', hfile⟩ := h rfl
          obtain rfl := Option.some.inj hfd'
          exact congrArg (· :: []) hfile
  rw [hpipes, herror]
  exact ⟨fun h => ⟨h.pipes, h.redirects, h.error⟩, fun h => ⟨h.1, h.2.1, h.2.2⟩⟩

theorem devNull_not_mem (errorPipe : Bool) (n : Nat) : some File.devNull ∉ errorFiles errorPipe ++ pipeFiles n := by
  intro h
  rcases List.mem_append.mp h with h | h
  · cases errorPipe with
    | false => cases h
    | true => cases List.mem_singleton.mp h
  · obtain ⟨i, -, hi⟩ := List.mem_map.mp h
    cases hi

/-- 子は必ず `execvp` に至る。どの記述子も指すべき物を指すのは、書き換える番号のどれも pipe の書く側でない時、しかもその時に限る。 -/
theorem child_descriptors_iff {errorPiped : Option (Nat × Nat)} {pipes : List (Nat × Nat)} {devnull n m : Nat}
    {readDescriptors writeDescriptors : DescriptorsHolder} (hlength : pipes.length = descriptors.length)
    (hcreate : createPipes errorPiped pipes table (.new n) (.new m) = some (table', readDescriptors, writeDescriptors))
    (hdistinct : descriptors.Nodup) (hdisjoint : ∀ fd ∈ redirectDescriptors, fd ∉ descriptors)
    (hdevnull : redirectDescriptors ≠ [] → table.file devnull = some .devNull) :
    ∃ last holder, child descriptors redirectDescriptors errorPiped.isSome devnull table'
      readDescriptors writeDescriptors = some (last, holder) ∧
      (Right descriptors redirectDescriptors errorPiped.isSome last holder ↔
      ∀ fd ∈ redirectDescriptors, fd ∉ writeDescriptors.descriptors) := by
  obtain ⟨howned, hfiles, hfree, hkept⟩ := createPipes_spec hcreate
  obtain ⟨hreadnodup, hwritenodup, hdisj⟩ := List.nodup_append.mp howned.nodup
  have hnotread : ∀ fd ∈ writeDescriptors.descriptors, fd ∉ readDescriptors.descriptors :=
    fun fd hfd hmem => hdisj fd hmem fd hfd rfl
  obtain ⟨closed, hclose, hclosed⟩ := Descriptors.foldlM_close hreadnodup fun fd hfd =>
    howned.opened fd (List.mem_append_left _ hfd)
  have hredirect : ∃ redirected, redirectDescriptors.foldlM (fun table fd => table.dup2 devnull fd)
      closed = some redirected ∧
      ∀ fd, redirected.file fd = if fd ∈ redirectDescriptors then some .devNull else closed.file fd := by
    by_cases hnil : redirectDescriptors = []
    · subst hnil
      exact ⟨closed, rfl, fun fd => (if_neg List.not_mem_nil).symm⟩
    · have hopen := hdevnull hnil
      have hsome : table.file devnull ≠ none := by
        rw [hopen]
        exact Option.some_ne_none _
      refine Descriptors.foldlM_dup2 ?_
      rw [hclosed, if_neg fun hmem => hsome (hfree devnull hmem), hkept devnull hsome, hopen]
  obtain ⟨redirected, hdup, hredirected⟩ := hredirect
  have hwriteowned : Owned redirected writeDescriptors.descriptors := by
    refine ⟨hwritenodup, fun fd hfd => ?_⟩
    rw [hredirected]
    split
    · exact Option.some_ne_none _
    · rw [hclosed, if_neg (hnotread fd hfd)]
      exact howned.opened fd (List.mem_append_right _ hfd)
  have hcount : writeDescriptors.descriptors.length = (errorFiles errorPiped.isSome).length + descriptors.length := by
    have := congrArg List.length hfiles
    rwa [files, List.length_map, List.length_append, pipeFiles, List.length_map, List.length_range, hlength] at this
  obtain ⟨last, holder, hloop, hpipes, herror, hframe⟩ := redefineLoop_spec hdistinct (Nat.le_refl _) hwriteowned hcount
  rw [List.take_length] at hpipes hframe
  have hholder : holder.descriptors.length = (errorFiles errorPiped.isSome).length := by
    have := congrArg List.length herror
    rw [files, List.length_map, List.length_take, files, List.length_map, hcount] at this
    omega
  refine ⟨last, holder, ?_, ?_⟩
  · have hopened : ∀ fd ∈ holder.descriptors, ∃ file, last.file fd = some file := by
      intro fd hfd
      have hlast : last.file fd ∈ files last holder.descriptors := List.mem_map.mpr ⟨fd, hfd, rfl⟩
      rw [herror] at hlast
      have hmem : last.file fd ∈ files redirected writeDescriptors.descriptors := List.mem_of_mem_take hlast
      obtain ⟨fd', hfd', heq⟩ := List.mem_map.mp hmem
      exact Option.ne_none_iff_exists'.mp (heq ▸ hwriteowned.opened fd' hfd')
    unfold child
    rw [hclose]
    dsimp only [Option.bind_eq_bind, Option.bind_some]
    rw [hdup]
    dsimp only [Option.bind_some]
    rw [hloop]
    dsimp only [Option.bind_some]
    cases herrorPipe : errorPiped.isSome with
    | false => rfl
    | true =>
        rw [herrorPipe] at hholder
        obtain ⟨fd, hfd⟩ := List.length_eq_one_iff.mp hholder
        obtain ⟨file, hfile⟩ := hopened fd (hfd ▸ List.mem_singleton_self fd)
        rw [if_pos rfl, hfd, List.head?_cons]
        dsimp only [Option.bind_some]
        rw [hfile]
        rfl
  · rw [right_iff hholder, hpipes, herror]
    constructor
    · rintro ⟨hright, -, hfirst⟩ fd hfd hmem
      have hall : files redirected writeDescriptors.descriptors = errorFiles errorPiped.isSome ++
          pipeFiles descriptors.length := by
        rw [← List.take_append_drop (errorFiles errorPiped.isSome).length
          (files redirected writeDescriptors.descriptors), hfirst, hright]
      refine devNull_not_mem errorPiped.isSome descriptors.length ?_
      rw [← hall]
      refine List.mem_map.mpr ⟨fd, hmem, ?_⟩
      rw [hredirected, if_pos hfd]
    · intro hclear
      have hall : files redirected writeDescriptors.descriptors = errorFiles errorPiped.isSome ++
          pipeFiles descriptors.length := by
        rw [← hlength, ← hfiles]
        refine files_congr fun fd hfd => ?_
        rw [hredirected, if_neg fun hmem => hclear fd hmem hfd, hclosed, if_neg (hnotread fd hfd)]
      rw [hall]
      refine ⟨List.drop_left, fun fd hfd => ?_, List.take_left⟩
      have hfile : redirected.file fd = some .devNull := by rw [hredirected, if_pos hfd]
      rw [hframe fd (by rw [hfile]; exact Option.some_ne_none _) (hclear fd hfd) (hdisjoint fd hfd), hfile]

theorem child_descriptors_iff_sample :
    ∃ table' read write last holder,
      createPipes (some (5, 2)) [(3, 1), (6, 0)]
      (Descriptors.set ⟨fun _ => none, 0, fun _ _ => rfl⟩ 4 (some .devNull)) (.new 3) (.new 3) =
          some (table', read, write) ∧
        child [0, 2] [7] true 4 table' read write = some (last, holder) ∧
          (Right [0, 2] [7] true last holder ↔ ∀ fd ∈ [7], fd ∉ write.descriptors) := by
  have hcreate : ∃ result, createPipes (some (5, 2)) [(3, 1), (6, 0)]
      (Descriptors.set ⟨fun _ => none, 0, fun _ _ => rfl⟩ 4 (some .devNull))
      (.new 3) (.new 3) = some result := ⟨_, rfl⟩
  obtain ⟨⟨table', read, write⟩, hcreate⟩ := hcreate
  have hlength : [(3, 1), (6, 0)].length = [0, 2].length := rfl
  have hdistinct : [0, 2].Nodup := by decide
  have hdisjoint : ∀ fd ∈ [7], fd ∉ [0, 2] := by decide
  obtain ⟨last, holder, hchild, hiff⟩ :=
    @child_descriptors_iff _ _ _ [7] _ _ 4 _ _ _ _ hlength hcreate hdistinct hdisjoint fun _ => rfl
  exact ⟨table', read, write, last, holder, hcreate, hchild, hiff⟩

/-- pipe の書く側が 1 番である時に 1 番を `/dev/null` に書き換えると、pipe が失われる。 -/
theorem redirect_loses_pipe :
    ¬ ∀ (table table' : Descriptors File) (errorPiped : Option (Nat × Nat))
      (pipes : List (Nat × Nat)) (descriptors redirectDescriptors : List Nat)
        (devnull : Nat) (read write : DescriptorsHolder), pipes.length = descriptors.length →
      createPipes errorPiped pipes table (.new (descriptors.length + 1))
      (.new (descriptors.length + 1)) = some (table', read, write) →
        descriptors.Nodup → (∀ fd ∈ redirectDescriptors, fd ∉ descriptors) → table.file devnull = some .devNull →
          ∀ last holder, child descriptors redirectDescriptors errorPiped.isSome devnull table' read
          write = some (last, holder) →
            Right descriptors redirectDescriptors errorPiped.isSome last holder := by
  intro h
  have hright := h (Descriptors.set ⟨fun _ => none, 0, fun _ _ => rfl⟩ 4 (some .devNull)) _ none
      [(3, 1)] [2] [1] 4 _ _ rfl rfl (by decide) (by decide) rfl
    _ _ rfl
  exact absurd (hright.pipes 0 2 rfl) (by decide)

end UnixCommons.Generics.Execute
