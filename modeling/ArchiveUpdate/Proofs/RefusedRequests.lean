import ArchiveUpdate.Progress.Recording
import ArchiveUpdate.Proofs.Cancellation
import ArchiveUpdate.Proofs.RunLedger

/-!
# Requests that are refused

A request that is refused leaves the run as it met it (`answer_refused`): by then the engine has
given back what it read last, and nothing else happens, except that a request for data may cancel
the run.  Once an outcome was accepted every request that could change the report is refused, so
that the report stays as it is but for a late cancellation (`refusals_change_nothing`).
-/

set_option autoImplicit false

namespace ArchiveUpdate

/-- Whether a run refuses requests for this reason. -/
def UpdateError.refuses : UpdateError → Bool
  | invalidState .. | indexOutOfRange .. | tooManyItems _ | cancelled => true
  | _ => false

/-- An answer is refused with the error that it is. -/
theorem Request.refusal_eq_some_iff {β : Type} {x : Except UpdateError β} {e : UpdateError} :
    Request.refusal x = some e ↔ x = .error e := by
  cases x <;> simp [Request.refusal]

/-- Giving a source back changes no file, and of a lent stream only who may use it. -/
theorem Reader.host_close (r : Reader) (h : Host) : (r.close h).files = h.files ∧
    (r.close h).streams.map (·.stream) = h.streams.map (·.stream) := by
  cases r with
  | settled content => exact ⟨rfl, rfl⟩
  | file loc content => exact ⟨rfl, rfl⟩
  | stream id left =>
    simp only [close]
    cases hslot : h.streams[id]? with
    | none => exact ⟨rfl, rfl⟩
    | some slot =>
      obtain ⟨hlt, rfl⟩ := List.getElem?_eq_some_iff.1 hslot
      refine ⟨rfl, ?_⟩
      calc (h.streams.set id { h.streams[id] with busy := false }).map (·.stream)
          = (h.streams.set id h.streams[id]).map (·.stream) := by
            rw [List.map_set, List.map_set]
        _ = h.streams.map (·.stream) := by
            rw [List.set_getElem_self]

namespace Session

variable {α ρ : Type}

/-- What a refused request leaves as it was: how far the run has come and its report but for the
wish to cancel, the archive, the files and the lent streams.  The reporter is told nothing; it may
have been asked whether to cancel. -/
structure Untouched [Reporter ρ] (s s' : Session α ρ) : Prop where
  standing : s.SameStanding s'
  counts : s.SameCounts s'
  streamed : s'.streamed = s.streamed
  failures : s'.failures = s.failures
  totalBytes : s'.totalBytes = s.totalBytes
  archive : s'.archive = s.archive
  files : s'.host.files = s.host.files
  streams : s'.host.streams.map (·.stream) = s.host.streams.map (·.stream)
  untold : s'.reporter = s.reporter ∨
    s'.reporter = s.reporter.map fun r => (Reporter.wantsCancel r).2

section

variable [Archive α] [Reporter ρ] {s : Session α ρ} {q : Request} {i : OutputIndex}
  {e : UpdateError}

omit [Archive α] in
/-- Giving back the source read last leaves all of it as it was. -/
theorem untouched_release (s : Session α ρ) : s.Untouched s.release := by
  have hback := s.givesBack_release
  have hhost : s.release.host.files = s.host.files ∧
      s.release.host.streams.map (·.stream) = s.host.streams.map (·.stream) := by
    unfold release
    cases s.reading with
    | none => exact ⟨rfl, rfl⟩
    | some r => exact r.host_close s.host
  have htotal : s.release.totalBytes = s.totalBytes := by
    obtain ⟨h, reading, heq⟩ := s.release_eq
    rw [heq]
  exact ⟨s.sameStanding_release, s.sameCounts_release, hback.streamed, hback.failures, htotal,
    hback.archive, hhost.1, hhost.2, .inl s.reporter_release⟩

omit [Archive α] in
/-- Being asked whether to cancel, and wishing it, leaves all of it as it was. -/
theorem untouched_asked (s : Session α ρ) : s.Untouched { s.asked with cancelled := true } := by
  have hrelease := s.untouched_release
  refine { hrelease with standing := ?_, counts := ?_, untold := ?_ }
  · exact ⟨hrelease.standing.items, hrelease.standing.deletions, hrelease.standing.phase,
      hrelease.standing.outcome⟩
  · exact ⟨hrelease.counts.succeeded, hrelease.counts.failed⟩
  · change (if s.cancelled then s.reporter else _) = _ ∨ (if s.cancelled then _ else _) = _
    split
    · exact .inl rfl
    · exact .inr rfl

omit [Archive α] in
/-- A record of what the reporter was told does not grow. -/
theorem Untouched.events {s s' : Session α (Recording ρ)} (h : s.Untouched s') :
    s'.reporter.map (·.events) = s.reporter.map (·.events) := by
  rcases h.untold with hsame | hasked
  · rw [hsame]
  · rw [hasked, Option.map_map]
    rfl

omit [Archive α] [Reporter ρ] in
/-- The reasons for which an item is withheld are those of a refusal, and cancelling is none of
them. -/
theorem refuses_of_item {operation : String} (h : s.item i operation = .error e) :
    e.refuses = true ∧ e ≠ .cancelled := by
  unfold item at h
  split at h
  · cases h
    exact ⟨rfl, nofun⟩
  · cases h
    exact ⟨rfl, nofun⟩
  · split at h
    · rename_i hlayout
      cases h
      rw [(Layout.of_eq_error hlayout).2]
      exact ⟨rfl, nofun⟩
    · rename_i layout hlayout
      split at h
      · rename_i hrange
        cases h
        rw [((Layout.resolve_eq_error_iff hlayout).1 hrange).2]
        exact ⟨rfl, nofun⟩
      · cases h
      · split at h
        · cases h
        · cases h
          exact ⟨rfl, nofun⟩

/-- A refused request does no more than give back what was read last, unless it is for data and
finds the run cancelled, which is kept in mind. -/
theorem answer_refused (h : q.refusal? (s.answer q).1 = some e) : e.refuses = true ∧
    (e ≠ .cancelled ∧ (s.answer q).2 = s.release ∨
      e = .cancelled ∧ (s.answer q).2 = { s.asked with cancelled := true }) := by
  have hquestion : ∀ {i : OutputIndex} {operation : String} {β : Type} {f : OutputItem → β},
      Request.refusal ((s.release.item i operation).map f) = some e →
        e.refuses = true ∧ e ≠ .cancelled := by
    intro i operation β f hrefused
    rw [Request.refusal_map, Request.refusal_eq_some_iff] at hrefused
    exact refuses_of_item hrefused
  cases q with
  | property | hasNewData | hasNewProperties | storedIndex =>
    obtain ⟨hrefuses, hother⟩ := hquestion h
    exact ⟨hrefuses, .inl ⟨hother, rfl⟩⟩
  | countItems =>
    simp only [answer, countItems] at h ⊢
    by_cases hover : s.release.phase = .finalizing
    · simp only [if_pos hover] at h ⊢
      cases h
      exact ⟨rfl, .inl ⟨by simp, trivial⟩⟩
    · by_cases hmany : maxItems < s.release.total
      · simp only [if_neg hover, if_pos hmany] at h ⊢
        cases h
        exact ⟨rfl, .inl ⟨by simp, trivial⟩⟩
      · simp only [if_neg hover, if_neg hmany] at h
        cases h
  | reportRun outcome =>
    simp only [answer, reportRun] at h ⊢
    by_cases hover : s.release.phase = .finalizing
    · simp only [if_pos hover] at h ⊢
      cases h
      exact ⟨rfl, .inl ⟨by simp, trivial⟩⟩
    · simp only [if_neg hover] at h
      cases h
  | reportItem i outcome =>
    simp only [answer, reportItem] at h ⊢
    cases hitem : s.release.item i "report an item outcome" with
    | error e' =>
      simp only [hitem] at h ⊢
      cases h
      obtain ⟨hrefuses, hother⟩ := refuses_of_item hitem
      exact ⟨hrefuses, .inl ⟨hother, trivial⟩⟩
    | ok item =>
      simp only [hitem] at h
      cases outcome <;> cases h
  | data i =>
    simp only [answer] at h ⊢
    rcases s.release.data_cases i with
      ⟨e', hitem, hdata⟩ | ⟨item, -, ⟨-, hdata⟩ | ⟨-, -, hdata⟩ | ⟨-, -, hdata⟩⟩
    · rw [hdata] at h ⊢
      cases h
      obtain ⟨hrefuses, hother⟩ := refuses_of_item hitem
      exact ⟨hrefuses, .inl ⟨hother, rfl⟩⟩
    · rw [hdata, cancelRequested_release] at h ⊢
      cases h
      exact ⟨rfl, .inr ⟨rfl, rfl⟩⟩
    · rw [hdata] at h
      cases h
    · rw [hdata] at h
      cases h
  | _ => cases h

/-- A refused request leaves the run as it was. -/
theorem untouched_of_refused (h : q.refusal? (s.answer q).1 = some e) :
    s.Untouched (s.answer q).2 := by
  rcases (answer_refused h).2 with ⟨-, hstate⟩ | ⟨-, hstate⟩
  · rw [hstate]
    exact s.untouched_release
  · rw [hstate]
    exact s.untouched_asked

omit [Archive α] [Reporter ρ] in
/-- The run is over and nothing is being read. -/
structure Over (s : Session α ρ) : Prop where
  phase : s.phase = .finalizing
  idle : s.reading = none

/-- The two states report the same, but for whether someone wished to cancel. -/
def SameReport (s s' : Session α ρ) : Prop :=
  s'.report = { s.report with cancelled := s'.cancelled }

/-- An accepted outcome ends the run and stays on record. -/
theorem over_of_accepted {outcome : RunOutcome} (h : (s.answer (.reportRun outcome)).1 = .ok ()) :
    (s.answer (.reportRun outcome)).2.Over ∧
      (s.answer (.reportRun outcome)).2.outcome = some outcome := by
  have hback := s.givesBack_release
  simp only [answer, reportRun] at h ⊢
  split
  · rename_i hover
    simp only [if_pos hover] at h
    cases h
  · exact ⟨⟨rfl, hback.reading⟩, rfl⟩

omit [Archive α] in
/-- What leaves the run as it was leaves its report as it was. -/
theorem sameReport_of_untouched {s' : Session α ρ} (h : s.Untouched s') : s.SameReport s' := by
  simp only [SameReport, report, h.standing.outcome, h.counts.succeeded, h.counts.failed,
    h.streamed, h.failures]

/-- When the run is over, counts, outcomes and questions about items are refused. -/
theorem Over.refuses (h : s.Over) (hq : q = .countItems ∨ (∃ outcome, q = .reportRun outcome) ∨
    ∃ i, q.index? = some i) : ∃ e, q.refusal? (s.answer q).1 = some e := by
  rcases hq with rfl | ⟨outcome, rfl⟩ | ⟨i, hq⟩
  · rw [answer_countItems, if_pos h.phase]
    exact ⟨_, rfl⟩
  · have hphase : s.release.phase = .finalizing := s.sameStanding_release.phase.trans h.phase
    simp only [answer, reportRun, if_pos hphase]
    exact ⟨_, rfl⟩
  · have hinactive : s.phase ≠ .active := by
      simp [h.phase]
    obtain ⟨operation, hrefused | ⟨hopen, -⟩⟩ := s.refusal?_answer hq
    · rw [hrefused, item_of_inactive hinactive]
      exact ⟨_, rfl⟩
    · rw [item_of_inactive hinactive] at hopen
      cases hopen

/-- Whatever is asked when the run is over is refused or does not touch the report. -/
theorem Over.answer (h : s.Over) (q : Request) :
    (s.answer q).2.Over ∧ s.SameReport (s.answer q).2 := by
  have hrelease : s.release = s := by rw [release, h.idle]
  have hrefused : q = .countItems ∨ (∃ outcome, q = .reportRun outcome) ∨
      (∃ i, q.index? = some i) → (s.answer q).2.Over ∧ s.SameReport (s.answer q).2 := by
    intro hq
    obtain ⟨e, he⟩ := h.refuses hq
    have huntouched := untouched_of_refused he
    refine ⟨⟨huntouched.standing.phase.trans h.phase, ?_⟩, sameReport_of_untouched huntouched⟩
    rcases (answer_refused he).2 with ⟨-, hstate⟩ | ⟨-, hstate⟩
    · rw [hstate, hrelease, h.idle]
    · rw [hstate]
      exact s.givesBack_asked.reading
  cases q with
  | countItems => exact hrefused (.inl rfl)
  | reportRun outcome => exact hrefused (.inr (.inl ⟨outcome, rfl⟩))
  | property | data | hasNewData | hasNewProperties | storedIndex | reportItem =>
    exact hrefused (.inr (.inr ⟨_, rfl⟩))
  | read n =>
    have hread : (s.answer (.read n)).2 = s := read_of_none h.idle n
    rw [hread]
    exact ⟨h, rfl⟩
  | setCompleted bytes =>
    simp only [Session.answer, setCompleted, hrelease]
    split
    · exact ⟨h, rfl⟩
    · split <;> exact ⟨⟨h.phase, h.idle⟩, rfl⟩
  | setTotal | setRatio | interrupt =>
    simp only [Session.answer, hrelease]
    exact ⟨⟨h.phase, h.idle⟩, rfl⟩

/-- A run that is over stays over, with the same report. -/
theorem Over.of_run {now : Session α ρ} {moments : List (Moment α ρ)} (h : s.Over)
    (hrun : s.Run moments now) : now.Over ∧ s.SameReport now := by
  induction hrun with
  | begin => exact ⟨h, rfl⟩
  | drift archive host react _ ih => exact ⟨⟨ih.1.phase, ih.1.idle⟩, ih.2⟩
  | @ask moments now q _ ih =>
    obtain ⟨hover, hreport⟩ := ih
    obtain ⟨hover', hreport'⟩ := hover.answer q
    refine ⟨hover', ?_⟩
    rw [SameReport, hreport', hreport]

end

/-- In whatever state a run is, a request that is refused leaves how far the run has come, its
report, the archive, the files and the lent streams as they were, and of what the reporter is told
nothing is added to a record; only one that finds the run cancelled may change whether the run is.
Once an outcome was accepted, it and all else that the run reports stays the same, but for a late
cancellation, whatever is asked afterwards and however the surroundings change. -/
theorem refusals_change_nothing [Archive α] [Reporter ρ] :
    (∀ (s : Session α ρ) (q : Request) (e : UpdateError),
      q.refusal? (s.answer q).1 = some e → e.refuses = true ∧ s.Untouched (s.answer q).2 ∧
        ((s.answer q).2.cancelled = s.cancelled ∨
          e = .cancelled ∧ (s.answer q).2.cancelled = true)) ∧
    (∀ (s : Session α (Recording ρ)) (q : Request) (e : UpdateError),
      q.refusal? (s.answer q).1 = some e →
        (s.answer q).2.reporter.map (·.events) = s.reporter.map (·.events)) ∧
    ∀ (s now : Session α ρ) (outcome : RunOutcome) (moments : List (Moment α ρ)),
      (s.answer (.reportRun outcome)).1 = .ok () →
      (s.answer (.reportRun outcome)).2.Run moments now →
        now.outcome = some outcome ∧ (s.answer (.reportRun outcome)).2.SameReport now := by
  refine ⟨?_, ?_, ?_⟩
  · intro s q e hrefused
    obtain ⟨hrefuses, hstate⟩ := answer_refused hrefused
    refine ⟨hrefuses, untouched_of_refused hrefused, ?_⟩
    rcases hstate with ⟨-, hstate⟩ | ⟨he, hstate⟩
    · rw [hstate]
      exact .inl s.cancelled_release
    · rw [hstate]
      exact .inr ⟨he, rfl⟩
  · intro s q e hrefused
    exact (untouched_of_refused hrefused).events
  · intro s now outcome moments haccepted hrun
    obtain ⟨hover, houtcome⟩ := over_of_accepted haccepted
    have hreport := (hover.of_run hrun).2
    exact ⟨(congrArg RunReport.outcome hreport).trans houtcome, hreport⟩

/-- A reporter that wishes to cancel has a request for data refused, which leaves the phase as it
is and stops the run; a run that has ended is not counted again. -/
theorem refusals_change_nothing_cancelled :
    let archive : MemoryArchive := ⟨[⟨"a", some [1], default, 32⟩], 0⟩
    let h : Host := ⟨⟨.empty, [], []⟩, [], default⟩
    let s : Session MemoryArchive Statistics :=
      { archive, host := h, items := [], deletions := .empty 1, phase := .active,
        reporter := some { cancelled := true } }
    let ended := (s.answer (.reportRun .cancelled)).2
    (s.answer (.data ⟨0⟩)).1 = .error .cancelled ∧ s.Untouched (s.answer (.data ⟨0⟩)).2 ∧
      (s.answer (.data ⟨0⟩)).2.cancelled = true ∧
      (s.answer (.reportRun .cancelled)).1 = .ok () ∧
      (ended.answer .countItems).2.outcome = some .cancelled := by
  intro archive h s ended
  have hdata : Request.refusal? (.data ⟨0⟩) (s.answer (.data ⟨0⟩)).1 = some .cancelled := by
    decide
  have haccepted : (s.answer (.reportRun .cancelled)).1 = .ok () := rfl
  have hrun := (Run.begin (s := ended)).ask .countItems
  obtain ⟨hrefused, -, hended⟩ := refusals_change_nothing (α := MemoryArchive) (ρ := Statistics)
  exact ⟨by decide, (hrefused s (.data ⟨0⟩) .cancelled hdata).2.1, by decide, haccepted,
    (hended s _ .cancelled _ haccepted hrun).1⟩

end Session

end ArchiveUpdate
