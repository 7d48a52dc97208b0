import ArchiveUpdate.Run.Session

/-!
# What one request does to a run

A request of any sort leaves alone which items the run is about.  How far the run has come and its
outcome change only through a count that succeeds and through the report of the outcome; every other
request keeps the `Standing` of the run.  `data_cases` lists what a request for data can come to.
-/

set_option autoImplicit false

namespace ArchiveUpdate.Session

variable {α ρ : Type}

/-- What two states of a run have in common when neither a count nor the report of the outcome lies
between them. -/
structure SameStanding (s s' : Session α ρ) : Prop where
  items : s'.items = s.items
  deletions : s'.deletions = s.deletions
  phase : s'.phase = s.phase
  outcome : s'.outcome = s.outcome

/-- A state has its own standing. -/
theorem SameStanding.refl (s : Session α ρ) : s.SameStanding s := ⟨rfl, rfl, rfl, rfl⟩

/-- The standing that is kept twice is kept. -/
theorem SameStanding.trans {s₁ s₂ s₃ : Session α ρ} (h : s₁.SameStanding s₂)
    (h' : s₂.SameStanding s₃) : s₁.SameStanding s₃ :=
  ⟨h'.items.trans h.items, h'.deletions.trans h.deletions, h'.phase.trans h.phase,
    h'.outcome.trans h.outcome⟩

/-- With its items and marks a run keeps the number of items in the finished archive. -/
theorem SameStanding.total_eq {s s' : Session α ρ} (h : s.SameStanding s') :
    s'.total = s.total := by
  rw [total, total, h.items, h.deletions]

/-- Giving a source back changes no more than the world and what is being read. -/
theorem release_eq (s : Session α ρ) :
    ∃ h reading, s.release = { s with host := h, reading := reading } := by
  unfold release
  cases s.reading with
  | none => exact ⟨s.host, s.reading, rfl⟩
  | some r => exact ⟨r.close s.host, none, rfl⟩

/-- Giving back the source read last keeps the standing. -/
theorem sameStanding_release (s : Session α ρ) : s.SameStanding s.release := by
  obtain ⟨h, reading, heq⟩ := s.release_eq
  rw [heq]
  exact ⟨rfl, rfl, rfl, rfl⟩

/-- Giving back the source read last adds no failure. -/
theorem failures_release (s : Session α ρ) : s.release.failures = s.failures := by
  obtain ⟨h, reading, heq⟩ := s.release_eq
  rw [heq]

/-- Giving back the source read last leaves the archive alone. -/
theorem archive_release (s : Session α ρ) : s.release.archive = s.archive := by
  obtain ⟨h, reading, heq⟩ := s.release_eq
  rw [heq]

/-- What the reporter is told does not bear on the standing. -/
theorem sameStanding_tell (s : Session α ρ) (event : ρ → ρ) : s.SameStanding (s.tell event) :=
  ⟨rfl, rfl, rfl, rfl⟩

/-- Giving back the source read last does not bear on which item is at a position. -/
theorem item_release (s : Session α ρ) (i : OutputIndex) (operation : String) :
    s.release.item i operation = s.item i operation := by
  obtain ⟨h, reading, heq⟩ := s.release_eq
  rw [heq]
  rfl

variable [Archive α] [Reporter ρ]

omit [Archive α] in
/-- Asking whether to cancel changes no more than the reporter. -/
theorem cancelRequested_eq (s : Session α ρ) :
    ∃ reporter, s.cancelRequested.2 = { s with reporter := reporter } := by
  unfold cancelRequested
  split
  · exact ⟨s.reporter, rfl⟩
  · split
    · exact ⟨s.reporter, rfl⟩
    · exact ⟨_, rfl⟩

omit [Archive α] in
/-- Asking whether to cancel keeps the standing. -/
theorem sameStanding_cancelRequested (s : Session α ρ) :
    s.SameStanding s.cancelRequested.2 := by
  obtain ⟨reporter, heq⟩ := s.cancelRequested_eq
  rw [heq]
  exact ⟨rfl, rfl, rfl, rfl⟩

/-- What opening a source comes to; a stream is read afterwards. -/
theorem openSource_opened (s : Session α ρ) (i : OutputIndex) (item : OutputItem) :
    match (item.openData s.archive s.host).1 with
    | .ok (some source) =>
      (s.openSource i item).1 = .stream ∧ (s.openSource i item).2.reading = some source
    | .ok none => (s.openSource i item).1 = .noData
    | .error _ => (s.openSource i item).1 = .unavailable := by
  simp only [openSource, tell]
  rcases item.openData s.archive s.host with ⟨opened, archive, host⟩
  cases opened with
  | error e => rfl
  | ok source? =>
    cases source? with
    | none => rfl
    | some source => exact ⟨rfl, rfl⟩

/-- Opening a source keeps the standing. -/
theorem sameStanding_openSource (s : Session α ρ) (i : OutputIndex) (item : OutputItem) :
    s.SameStanding (s.openSource i item).2 := by
  simp only [openSource]
  split <;> exact ⟨rfl, rfl, rfl, rfl⟩

/-- What a request for data can come to: the item is refused, the run is cancelled, the source is
known to have failed before, or it is opened. -/
theorem data_cases (s : Session α ρ) (i : OutputIndex) :
    (∃ e, s.item i "open item data" = .error e ∧ s.data i = (.error e, s)) ∨
    ∃ item, s.item i "open item data" = .ok item ∧
      ((s.cancelRequested.1 = true ∧
          s.data i = (.error .cancelled, { s.cancelRequested.2 with cancelled := true })) ∨
       (s.cancelRequested.1 = false ∧ (s.failures.get? i).isSome ∧
          s.data i = (.ok .unavailable, s.cancelRequested.2)) ∨
       (s.cancelRequested.1 = false ∧ s.failures.get? i = none ∧
          s.data i = (.ok (s.cancelRequested.2.openSource i item).1,
            (s.cancelRequested.2.openSource i item).2))) := by
  cases hitem : s.item i "open item data" with
  | error e => exact .inl ⟨e, rfl, by simp only [data, hitem]⟩
  | ok item =>
    refine .inr ⟨item, rfl, ?_⟩
    obtain ⟨reporter, hstate⟩ := s.cancelRequested_eq
    rcases hcancel : s.cancelRequested with ⟨stop, s'⟩
    have hfailures : s'.failures = s.failures := by
      simp only [hcancel] at hstate
      rw [hstate]
    cases stop with
    | true => exact .inl ⟨rfl, by simp only [data, hitem, hcancel]⟩
    | false =>
      refine .inr ?_
      cases hlog : s.failures.get? i with
      | some f => exact .inl ⟨rfl, rfl, by simp [data, hitem, hcancel, hfailures, hlog]⟩
      | none => exact .inr ⟨rfl, rfl, by simp [data, hitem, hcancel, hfailures, hlog]⟩

/-- A request for data keeps the standing. -/
theorem sameStanding_data (s : Session α ρ) (i : OutputIndex) :
    s.SameStanding (s.data i).2 := by
  have hasked := s.sameStanding_cancelRequested
  rcases s.data_cases i with ⟨e, -, h⟩ | ⟨item, -, ⟨-, h⟩ | ⟨-, -, h⟩ | ⟨-, -, h⟩⟩
  · rw [h]
    exact .refl s
  · rw [h]
    exact hasked.trans ⟨rfl, rfl, rfl, rfl⟩
  · rw [h]
    exact hasked
  · rw [h]
    exact hasked.trans (sameStanding_openSource _ i item)

omit [Archive α] [Reporter ρ] in
/-- Reading keeps the standing. -/
theorem sameStanding_read (s : Session α ρ) (n : Nat) : s.SameStanding (s.read n).2 := by
  unfold read
  split
  · exact .refl s
  · split <;> exact ⟨rfl, rfl, rfl, rfl⟩

/-- A report of an item keeps the standing. -/
theorem sameStanding_reportItem (s : Session α ρ) (i : OutputIndex) (outcome : ItemOutcome) :
    s.SameStanding (s.reportItem i outcome).2 := by
  unfold reportItem
  split
  · exact .refl s
  · cases outcome <;> exact ⟨rfl, rfl, rfl, rfl⟩

omit [Archive α] in
/-- A report of progress keeps the standing. -/
theorem sameStanding_setCompleted (s : Session α ρ) (bytes : Nat) :
    s.SameStanding (s.setCompleted bytes).2 := by
  unfold setCompleted
  split
  · exact .refl s
  · split <;> exact ⟨rfl, rfl, rfl, rfl⟩

/-- Whatever is asked that is neither a count nor the report of the outcome keeps the standing of
the run. -/
theorem sameStanding_answer {s : Session α ρ} {q : Request} (hcount : q ≠ .countItems)
    (hend : ∀ outcome, q ≠ .reportRun outcome) : s.SameStanding (s.answer q).2 := by
  have hrelease := s.sameStanding_release
  cases q with
  | countItems => exact absurd rfl hcount
  | reportRun outcome => exact absurd rfl (hend outcome)
  | read n => exact s.sameStanding_read n
  | property i kind => exact hrelease
  | hasNewData i => exact hrelease
  | hasNewProperties i => exact hrelease
  | storedIndex i => exact hrelease
  | data i => exact hrelease.trans (s.release.sameStanding_data i)
  | reportItem i outcome => exact hrelease.trans (s.release.sameStanding_reportItem i outcome)
  | setTotal bytes => exact hrelease.trans ⟨rfl, rfl, rfl, rfl⟩
  | setCompleted bytes => exact hrelease.trans (s.release.sameStanding_setCompleted bytes)
  | setRatio input output => exact hrelease.trans (s.release.sameStanding_tell _)
  | interrupt => exact hrelease.trans (s.release.sameStanding_tell _)

end ArchiveUpdate.Session
