import UnixCommons.Generics.Lemmas.Statistics

/-!
# 統計の定理

どの呼び出しの列の後でも、溜める物は、終わりの `reset` の後に渡された値の統計を知らせる。
-/

namespace UnixCommons.Generics.Statistics

open Lib

variable {α : Type} {m : Measure α}

theorem reports_of_execute (scale : Scale m) {sinks : List (StatSink α)} {actions : List (Action α)}
    {s : State α} (hnew : ∀ sink ∈ sinks, sink.data = .new m)
    (hadmissible : Along (step m) (admissible scale · · = true) (.init sinks) actions)
    (hmeets : Along (step m) (meets scale · · = true) (.init sinks) actions)
    (h : execute (step m) (.init sinks) actions = some s) :
    ∀ entry ∈ s.entries ++ s.dumped, entry.sink.data.Reports scale entry.recent := by
  have htracks : s.Tracks scale :=
    execute_invariant (fun _ _ _ hs hok hstep => hs.step hok.1 hok.2 hstep) (.init scale hnew)
      (hadmissible.and hmeets) h
  intro entry hentry
  rcases List.mem_append.mp hentry with hentry | hentry
  · exact (htracks.entries entry hentry).reports
  · exact (htracks.dumped entry hentry).reports

/-- 時刻でも、どの整数の型でも、条件を満たす列の後で、溜める物は、終わりの `reset` の後に渡された値の統計を知らせる。 -/
theorem statistics_report (t : IntegralType) (times : List (StatSink Time))
    (calls : List (Action Time)) (s : State Time)
    (sinks : List (StatSink Int)) (actions : List (Action Int)) (s' : State Int) :
    ((∀ sink ∈ times, sink.data = .new timeMeasure) →
    Along (step timeMeasure) (admissible timeScale · · = true) (.init times) calls →
      Along (step timeMeasure) (meets timeScale · · = true) (.init times) calls →
      execute (step timeMeasure) (.init times) calls = some s →
      ∀ entry ∈ s.entries ++ s.dumped, entry.sink.data.Reports timeScale entry.recent) ∧
    ((∀ sink ∈ sinks, sink.data = .new t.measure) →
    Along (step t.measure) (admissible t.scale · · = true) (.init sinks) actions →
      Along (step t.measure) (meets t.scale · · = true) (.init sinks) actions →
      execute (step t.measure) (.init sinks) actions = some s' →
      ∀ entry ∈ s'.entries ++ s'.dumped, entry.sink.data.Reports t.scale entry.recent) :=
  ⟨fun hnew hadmissible hmeets h => reports_of_execute timeScale hnew hadmissible hmeets h,
    fun hnew hadmissible hmeets h => reports_of_execute t.scale hnew hadmissible hmeets h⟩

theorem statistics_report_clones :
    ((execute (step timeMeasure) (.init [.item "time" (.sink (.new timeMeasure)) .null])
        [.reset 0, .consider 0 (some ⟨3, 500000⟩), .clone 0, .consider 0 (some ⟨-1, 0⟩)]).map
        (·.entries.map Entry.recent) = some [[⟨3, 500000⟩, ⟨-1, 0⟩], [⟨3, 500000⟩]] ∧
      ∀ s, execute (step timeMeasure) (.init [.item "time" (.sink (.new timeMeasure)) .null])
          [.reset 0, .consider 0 (some ⟨3, 500000⟩), .clone 0, .consider 0 (some ⟨-1, 0⟩)] = some s →
        ∀ entry ∈ s.entries ++ s.dumped, entry.sink.data.Reports timeScale entry.recent) ∧
    ((execute (step (IntegralType.measure ⟨true, 64, by decide⟩))
        (.init [.item "value" (.sink ⟨0, 0, 0, 0⟩) (.countBased 2), .sink ⟨0, 0, 0, 0⟩])
        [.consider 0 (some 7), .consider 0 none, .consider 0 (some (-9)), .consider 1 (some 5),
        .reset 1, .consider 1 (some 6)]).map
        (fun s => (s.entries ++ s.dumped).map Entry.recent) = some [[7, -9], [6], [7, -9]] ∧
      ∀ s, execute (step (IntegralType.measure ⟨true, 64, by decide⟩))
          (.init [.item "value" (.sink ⟨0, 0, 0, 0⟩) (.countBased 2), .sink ⟨0, 0, 0, 0⟩])
          [.consider 0 (some 7), .consider 0 none, .consider 0 (some (-9)), .consider 1 (some 5),
          .reset 1, .consider 1 (some 6)] = some s →
        ∀ entry ∈ s.entries ++ s.dumped,
          entry.sink.data.Reports (IntegralType.scale ⟨true, 64, by decide⟩) entry.recent) :=
  ⟨⟨by decide, fun s => (statistics_report ⟨true, 64, by decide⟩ _ _ s [] [] (.init [])).1
    (by decide) (by decide) (by decide)⟩,
    ⟨by decide, fun s => (statistics_report ⟨true, 64, by decide⟩ [] [] (.init []) _ _ s).2
    (by decide) (by decide) (by decide)⟩⟩

/-- `Item` の `reset` は何も消さず、その後も、渡された値が一つあると知らせる。 -/
theorem item_reset_keeps : ¬ ∀ (sinks : List (StatSink Time)) (actions : List (Action Time))
    (s : State Time), (∀ sink ∈ sinks, sink.data = .new timeMeasure) → Along (step timeMeasure)
    (admissible timeScale · · = true) (.init sinks) actions →
    execute (step timeMeasure) (.init sinks) actions = some s →
    ∀ entry ∈ s.entries ++ s.dumped, entry.sink.data.Reports timeScale entry.recent := by
  intro h
  have hreports := h [.item "time" (.sink (.new timeMeasure)) .null] [.consider 0 (some ⟨3, 0⟩),
      .reset 0] _ (by decide) (by decide) rfl _
    (List.mem_singleton_self _)
  cases hreports.count

end UnixCommons.Generics.Statistics
