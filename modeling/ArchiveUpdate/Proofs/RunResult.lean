import ArchiveUpdate.Proofs.Cancellation
import ArchiveUpdate.Proofs.EngineRuns
import ArchiveUpdate.Proofs.FailedSources

/-!
# What running an engine comes to

Four things bear on the result of a run: the engine's own failure, the outcome that it reports, the
wish to cancel and the failure log.  The first of them that says anything decides
(`result_of_engine`), and whichever it is, the updater is left with the failure log of this run and
with the changes that were collected before it.
-/

set_option autoImplicit false

namespace ArchiveUpdate

namespace Engine

variable {α ρ β : Type} [Archive α] [Reporter ρ]

/-- What is left of a run that an engine is done with can be told from its exchanges: the outcome
is the first that was accepted, and the run is cancelled if an exchange has stopped it. -/
theorem report_of_exchanges {archive : α} {h : Host} {items : List NewItem} {deletions : Deletions}
    {reporter : Option ρ} {s : Session α ρ}
    (hs : Session.start archive h items deletions reporter = .ok s) (engine : Engine β) :
    (engine.run s).2.report.outcome =
      ((engine.exchanges s).filterMap Exchange.outcome?).head? ∧
    ((engine.run s).2.report.cancelled = true ↔ Stopped (engine.exchanges s)) ∧
    ∃ moments, s.Run moments (engine.run s).2 ∧
      moments.map Moment.exchange = engine.exchanges s := by
  obtain ⟨course, hafter, hlog⟩ := engine.run_is_course s
  obtain ⟨moments, hrun, hmoments⟩ := s.run_after course
  rw [← hafter] at hrun
  rw [← hlog] at hmoments
  have hstanding : s.Standing [] := Session.standing_start hs
  have hnow := Session.standing_of_run hstanding hrun
  have hfresh : s.cancelled = false := by
    obtain ⟨-, rfl⟩ := Session.start_eq_ok_iff.1 hs
    rfl
  have hcancelled := Session.cancelled_of_run hstanding hfresh hrun
  rw [hmoments] at hnow hcancelled
  exact ⟨hnow.outcome, hcancelled, moments, hrun, hmoments⟩

end Engine

namespace Updater

variable {α ρ β : Type} [Archive α] [Reporter ρ]

omit [Archive α] [Reporter ρ] in
/-- An outcome that was reported decides, and without one the wish to cancel does. -/
theorem conclude_by_outcome (deletions : Deletions) (items : List NewItem) (report : RunReport) :
    (∀ reason, report.outcome = some (.failed reason) →
      conclude deletions items report = .error (.engineFailure reason)) ∧
    (report.outcome = some .cancelled ∨ report.outcome = none ∧ report.cancelled = true →
      conclude deletions items report = .error .cancelled) ∧
    (report.outcome = some .success ∨ report.outcome = none ∧ ¬report.cancelled = true →
      ∃ summary, conclude deletions items report = .ok summary) := by
  refine ⟨?_, ?_, ?_⟩
  · intro reason houtcome
    simp only [conclude, houtcome]
  · rintro (houtcome | ⟨houtcome, hcancelled⟩)
    · simp only [conclude, houtcome]
    · simp only [conclude, houtcome, hcancelled]
  · rintro (houtcome | ⟨houtcome, hgoing⟩)
    · simp only [conclude, houtcome]
      exact ⟨_, rfl⟩
    · rw [Bool.not_eq_true] at hgoing
      simp only [conclude, houtcome, hgoing]
      exact ⟨_, rfl⟩

/-- What a run leaves behind in the updater. -/
theorem updater_of_start {u : Updater α ρ} {h : Host} {s : Session α ρ}
    (hs : Session.start u.archive h u.items u.runDeletions u.options.reporter = .ok s)
    (engine : Engine (Except UpdateError Unit × β)) :
    (u.compress h engine).updater =
      { u with
        archive := (engine.run s).2.archive
        options := { u.options with reporter := (engine.run s).2.reporter }
        lastFailures := (engine.run s).2.report.failures } := by
  simp only [compress, hs, Session.archive_release, Session.reporter_release,
    Session.failures_release]
  rfl

omit [Reporter ρ] in
/-- The number of items depends on the stored ones by their paths only, if new items overwrite
stored ones, and not at all otherwise. -/
theorem totalItemCount_opening {u : Updater α ρ} {is : List StoredIndex} {options : UpdateOptions ρ}
    {failures : FailureLog} (hmode : options.mode = u.options.mode)
    (hcount : Archive.itemCount (Archive.opening u.archive is) = Archive.itemCount u.archive)
    (hpaths : u.options.mode = .append ∨
      ∀ i, Archive.path? (Archive.opening u.archive is) i = Archive.path? u.archive i) :
    totalItemCount { u with
      archive := Archive.opening u.archive is, options, lastFailures := failures } =
        u.totalItemCount := by
  unfold totalItemCount runDeletions
  rw [hmode]
  rcases hpaths with happend | hpaths
  · simp only [happend]
  · have hshadowed : shadowed { u with
        archive := Archive.opening u.archive is, options, lastFailures := failures } =
          u.shadowed := by
      simp only [shadowed, Archive.indices, hcount, hpaths]
    simp only [hshadowed]

/-- Whatever an engine asks and whatever it returns, running it results in its own failure, if it
returns one; else in the failure of the run, if that is the first outcome it reported with success;
in a cancelled run, if it reported that or reported no outcome and the run was stopped; and else in
success.  In any case the failure log of the updater is that of this run, the marks, new items and
settings are what they were, there is a reporter if there was one, and the number of items is the
same, if opening stored items changes none of their paths or the paths do not matter.  Opening items
is taken not to change their number; then every updater can be run. -/
theorem result_of_engine (hconst : ∀ (a : α) i,
    Archive.itemCount (Archive.openItem a i).2 = Archive.itemCount a) {u : Updater α ρ}
    (hu : Life u) (h : Host) (engine : Engine (Except UpdateError Unit × β)) :
    ∃ s, Session.start u.archive h u.items u.runDeletions u.options.reporter = .ok s ∧
      let own := (engine.run s).1.1
      let log := engine.exchanges s
      let outcome := (log.filterMap Exchange.outcome?).head?
      let run := u.compress h engine
      ((∀ e, own = .error e → run.result = .error e) ∧
        (own = .ok () →
          (∀ reason, outcome = some (.failed reason) →
            run.result = .error (.engineFailure reason)) ∧
          (outcome = some .cancelled ∨ outcome = none ∧ Stopped log →
            run.result = .error .cancelled) ∧
          (outcome = some .success ∨ outcome = none ∧ ¬Stopped log →
            ∃ summary, run.result = .ok summary))) ∧
      (∃ moments, s.Run moments (engine.run s).2 ∧ moments.map Moment.exchange = log ∧
        run.updater.lastFailures = (engine.run s).2.report.failures ∧
        run.updater.lastFailures.entries =
          firstFailures (moments.filterMap fun m => m.state.attempt? m.request)) ∧
      run.updater.items = u.items ∧ run.updater.deletions = u.deletions ∧
      run.updater.options.settings = u.options.settings ∧
      run.updater.options.reporter.isSome = u.options.reporter.isSome ∧
      ((u.options.mode = .append ∨ ∀ is i,
          Archive.path? (Archive.opening u.archive is) i = Archive.path? u.archive i) →
        run.updater.totalItemCount = u.totalItemCount) := by
  obtain ⟨s, hs⟩ := start_of_life hconst hu h
  obtain ⟨houtcome, hcancelled, moments, hrun, hlog⟩ := engine.report_of_exchanges hs
  have hresult := result_of_start hs engine
  have hupdater := updater_of_start hs engine
  obtain ⟨hfailed, hstopped, hdone⟩ :=
    conclude_by_outcome u.runDeletions u.items (engine.run s).2.report
  rw [houtcome] at hfailed hstopped hdone
  rw [hcancelled] at hstopped hdone
  refine ⟨s, hs, ⟨?_, ?_⟩, ⟨moments, hrun, hlog, ?_, ?_⟩, ?_⟩
  · intro e he
    rw [hresult, he]
    rfl
  · intro hok
    rw [hok] at hresult
    rw [hresult]
    exact ⟨hfailed, hstopped, hdone⟩
  · rw [hupdater]
  · rw [hupdater]
    exact (Session.failures_of_run hs hrun).1
  · obtain ⟨-, is, harchive⟩ := archive_compress u h engine
    have hreporter : s.reporter = u.options.reporter := by
      obtain ⟨-, rfl⟩ := Session.start_eq_ok_iff.1 hs
      rfl
    rw [hupdater] at harchive ⊢
    refine ⟨rfl, rfl, rfl, ?_, ?_⟩
    · rw [← hreporter]
      exact Session.isSome_reporter_of_run hrun
    · intro hpaths
      dsimp only at harchive
      rw [harchive]
      exact totalItemCount_opening rfl (itemCount_opening hconst _ _) (hpaths.imp_right (· is))

/-- A lent stream that fails to open is on record after a run that was given up, although the engine
has another outcome to report in the end; the item is still to be added. -/
theorem result_of_engine_given_up :
    let stream : ByteStream := { data := [1, 2] }
    let h : Host := ⟨⟨.empty, [], []⟩, [⟨stream, false⟩], default⟩
    let failing : ByteStream :=
      { stream with failingSeek := some 0, fault := ⟨.timedOut, "too slow"⟩ }
    let later : Host := { h with streams := [⟨failing, false⟩] }
    let fresh : Updater MemoryArchive Statistics := .fresh ⟨[], 0⟩ {}
    let u := (fresh.change h (.add (.stream 0 "a"))).2.1
    let engine : Engine (Except UpdateError Unit × Unit) :=
      .ask .countItems fun _ => .ask (.data ⟨0⟩) fun _ => .ask (.reportRun .cancelled) fun _ =>
        .ask (.reportRun (.failed "too late")) fun _ => .done (.ok (), ())
    Life u ∧ u.items.length = 1 ∧
      (u.compress later engine).result = .error .cancelled ∧
      (u.compress later engine).updater.lastFailures.entries =
        [⟨⟨0⟩, "a", "too slow", .timedOut⟩] ∧
      (u.compress later engine).updater.items = u.items ∧
      (u.compress later engine).updater.totalItemCount = u.totalItemCount := by
  intro stream h failing later fresh u engine
  have hconst : ∀ (a : MemoryArchive) i,
      Archive.itemCount (Archive.openItem a i).2 = Archive.itemCount a := by
    intro a i
    have hentries := MemoryArchive.entries_opening a [i]
    exact congrArg (min ·.length maxItems) hentries
  have hu : Life u := .change h _ (.fresh _ _)
  obtain ⟨s, hs, ⟨-, hresult⟩, ⟨-, -, -, hfailures, -⟩, hitems, -, -, -, htotal⟩ :=
    result_of_engine hconst hu later engine
  cases hs
  refine ⟨hu, rfl, ?_, ?_, hitems, htotal (.inl rfl)⟩
  · exact (hresult rfl).2.1 (.inl (by decide +kernel))
  · rw [hfailures]
    rfl

end Updater

end ArchiveUpdate
