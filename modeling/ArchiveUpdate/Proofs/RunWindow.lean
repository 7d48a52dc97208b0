import ArchiveUpdate.Proofs.ServedItems

/-!
# When a run answers

Questions about items have a window: it opens with the first count that succeeds and closes with the
first accepted outcome.  Outside of it they are refused for the state of the run; inside, exactly
the positions below the total are answered.  The count itself is the same number, or the same
refusal, as long as the run lasts, and where it is refused the window never opens
(`answers_in_window`).
-/

set_option autoImplicit false

namespace ArchiveUpdate

namespace Request

/-- The output position that a question about an item is about. -/
def index? : Request → Option OutputIndex
  | property i _ | data i | hasNewData i | hasNewProperties i | storedIndex i | reportItem i _ =>
    some i
  | countItems | read _ | reportRun _ | setTotal _ | setCompleted _ | setRatio .. | interrupt =>
    none

/-- Why something was not answered. -/
def refusal {β : Type} : Except UpdateError β → Option UpdateError
  | .error e => some e
  | .ok _ => none

/-- What becomes of an answer does not bear on why it was refused. -/
theorem refusal_map {β γ : Type} (x : Except UpdateError β) (f : β → γ) :
    refusal (x.map f) = refusal x := by
  cases x <;> rfl

/-- Why a request was refused, if it was. -/
def refusal? : (q : Request) → q.Reply → Option UpdateError
  | countItems, r => refusal r
  | property .., r => refusal r
  | data _, r => refusal r
  | hasNewData _, r => refusal r
  | hasNewProperties _, r => refusal r
  | storedIndex _, r => refusal r
  | reportItem .., r => refusal r
  | reportRun _, r => refusal r
  | read _, _ | setTotal _, _ | setCompleted _, _ | setRatio .., _ | interrupt, _ => none

end Request

/-- A count was among the exchanges and succeeded. -/
def Counted (log : List Exchange) : Prop := ∃ e ∈ log, e.counts = true

/-- An outcome of the run was among the exchanges and was accepted. -/
def Ended (log : List Exchange) : Prop := ∃ e ∈ log, ∃ outcome, e.outcome? = some outcome

/-- One count that succeeded opens the window. -/
theorem window_of_count (n : Nat) :
    Counted [⟨.countItems, .ok n⟩] ∧ ¬Ended [⟨.countItems, .ok n⟩] := by
  refine ⟨⟨_, List.mem_singleton_self _, rfl⟩, ?_⟩
  rintro ⟨e, he, outcome, houtcome⟩
  rw [List.mem_singleton.1 he] at houtcome
  cases houtcome

/-- There is an accepted outcome in a log exactly if the run has ended by it. -/
theorem filterMap_outcome?_ne_nil_iff {log : List Exchange} :
    log.filterMap Exchange.outcome? ≠ [] ↔ Ended log := by
  rw [ne_eq, List.filterMap_eq_nil_iff, Ended]
  simp only [not_forall, Option.ne_none_iff_exists', exists_prop]

/-- A run is over exactly once an outcome was accepted. -/
theorem phaseOf_eq_finalizing_iff {log : List Exchange} :
    phaseOf log = .finalizing ↔ Ended log := by
  rw [phaseOf, ← filterMap_outcome?_ne_nil_iff]
  split
  · simp_all
  · split <;> simp_all

/-- The window is open exactly from a count that succeeded up to the outcome. -/
theorem phaseOf_eq_active_iff {log : List Exchange} :
    phaseOf log = .active ↔ Counted log ∧ ¬Ended log := by
  rw [phaseOf, ← filterMap_outcome?_ne_nil_iff, Counted, ← List.any_eq_true]
  split
  · simp_all
  · split <;> simp_all

namespace Session

variable {α ρ : Type} [Archive α] [Reporter ρ]

/-- A question about an item is refused as the item is; only a request for the data of an item that
is there can be refused besides, when it finds the run cancelled. -/
theorem refusal?_answer (s : Session α ρ) {q : Request} {i : OutputIndex}
    (hq : q.index? = some i) :
    ∃ operation, q.refusal? (s.answer q).1 = Request.refusal (s.item i operation) ∨
      Request.refusal (s.item i operation) = none ∧ q = .data i ∧
        q.refusal? (s.answer q).1 = some .cancelled := by
  cases q with
  | countItems => cases hq
  | read n => cases hq
  | reportRun outcome => cases hq
  | setTotal bytes => cases hq
  | setCompleted bytes => cases hq
  | setRatio input output => cases hq
  | interrupt => cases hq
  | property j kind =>
    cases hq
    refine ⟨"query item properties", .inl ?_⟩
    rw [← item_release]
    exact Request.refusal_map _ _
  | hasNewData j =>
    cases hq
    refine ⟨"query item state", .inl ?_⟩
    rw [← item_release]
    exact Request.refusal_map _ _
  | hasNewProperties j =>
    cases hq
    refine ⟨"query item state", .inl ?_⟩
    rw [← item_release]
    exact Request.refusal_map _ _
  | storedIndex j =>
    cases hq
    refine ⟨"query item state", .inl ?_⟩
    rw [← item_release]
    exact Request.refusal_map _ _
  | reportItem j outcome =>
    cases hq
    refine ⟨"report an item outcome", .inl ?_⟩
    rw [← item_release]
    simp only [answer, reportItem, Request.refusal?]
    cases s.release.item i "report an item outcome" with
    | error e => rfl
    | ok item => cases outcome <;> rfl
  | data j =>
    cases hq
    refine ⟨"open item data", ?_⟩
    rw [← item_release]
    simp only [answer, Request.refusal?]
    rcases s.release.data_cases i with
      ⟨e, hitem, h⟩ | ⟨item, hitem, ⟨-, h⟩ | ⟨-, -, h⟩ | ⟨-, -, h⟩⟩
    · rw [hitem, h]
      exact .inl rfl
    · rw [hitem, h]
      exact .inr ⟨rfl, trivial, rfl⟩
    · rw [hitem, h]
      exact .inl rfl
    · rw [hitem, h]
      exact .inl rfl

section

variable {s : Session α ρ} {log : List Exchange} {q : Request} {i : OutputIndex}

/-- Outside of the window every question about an item is refused for the state of the run, and
never inside. -/
theorem refused_for_state_iff (hs : s.Standing log) (hq : q.index? = some i) :
    (∃ operation state, q.refusal? (s.answer q).1 = some (.invalidState operation state)) ↔
      ¬Counted log ∨ Ended log := by
  obtain ⟨operation, h⟩ := s.refusal?_answer hq
  have hwindow : s.phase = .active ↔ Counted log ∧ ¬Ended log := by
    rw [hs.phase, phaseOf_eq_active_iff]
  by_cases hphase : s.phase = .active
  · have hopen := hwindow.1 hphase
    have hfits : s.total ≤ maxItems := hs.fits (List.any_eq_true.2 hopen.1)
    refine iff_of_false ?_ (by tauto)
    rintro ⟨operation', state, hrefused⟩
    rw [item_of_active hphase hfits] at h
    cases hat : s.outputs[i.val]? <;> rw [hrefused, hat] at h <;> simp [Request.refusal] at h
  · refine iff_of_true ?_ (by tauto)
    rw [item_of_inactive hphase] at h
    rcases h with h | ⟨h, -, -⟩
    · exact ⟨operation, _, h⟩
    · cases h

/-- Inside the window the positions from the total on are refused, and no others. -/
theorem refused_in_window (hs : s.Standing log) (hq : q.index? = some i) (hcounted : Counted log)
    (hgoing : ¬Ended log) :
    (q.refusal? (s.answer q).1 = some (.indexOutOfRange i.val s.total) ↔ s.total ≤ i.val) ∧
      (i.val < s.total → q.refusal? (s.answer q).1 = none ∨
        q = .data i ∧ q.refusal? (s.answer q).1 = some .cancelled) := by
  obtain ⟨operation, h⟩ := s.refusal?_answer hq
  have hphase : s.phase = .active := by
    rw [hs.phase]
    exact phaseOf_eq_active_iff.2 ⟨hcounted, hgoing⟩
  have hfits : s.total ≤ maxItems := hs.fits (List.any_eq_true.2 hcounted)
  rw [item_of_active hphase hfits] at h
  by_cases hrange : i.val < s.total
  · have hlen : i.val < s.outputs.length := by rwa [length_outputs]
    have hat : s.outputs[i.val]? = some s.outputs[i.val] := List.getElem?_eq_getElem hlen
    rw [hat] at h
    rcases h with h | ⟨-, hdata, h⟩
    · refine ⟨iff_of_false ?_ (by omega), fun _ => .inl h⟩
      rw [h]
      exact nofun
    · refine ⟨iff_of_false ?_ (by omega), fun _ => .inr ⟨hdata, h⟩⟩
      rw [h]
      exact nofun
  · have hat : s.outputs[i.val]? = none := List.getElem?_eq_none (by rw [length_outputs]; omega)
    rw [hat] at h
    rcases h with h | ⟨h, -, -⟩
    · exact ⟨iff_of_true h (by omega), fun hlt => absurd hlt hrange⟩
    · cases h

/-- A question about an item is not refused inside the window only. -/
theorem window_of_accepted (hs : s.Standing log) (hq : q.index? = some i)
    (haccepted : q.refusal? (s.answer q).1 = none) : Counted log ∧ ¬Ended log := by
  by_contra hclosed
  have hout : ¬Counted log ∨ Ended log := by tauto
  obtain ⟨operation, state, hrefused⟩ := (refused_for_state_iff hs hq).2 hout
  rw [haccepted] at hrefused
  cases hrefused

/-- Until the run is over the items are counted, if they fit into one archive. -/
theorem counts_until_ended (hs : s.Standing log) (hgoing : ¬Ended log) :
    (s.answer .countItems).1 =
      if maxItems < s.total then .error (.tooManyItems s.total) else .ok s.total := by
  rw [answer_countItems, if_neg]
  rw [hs.phase, phaseOf_eq_finalizing_iff]
  exact hgoing

/-- Inside the window the items of the run are served. -/
theorem serves_in_window (hs : s.Standing log) (hcounted : Counted log) (hgoing : ¬Ended log) :
    s.Serves s.outputs := by
  apply serves_of_active
  · rw [hs.phase]
    exact phaseOf_eq_active_iff.2 ⟨hcounted, hgoing⟩
  · exact hs.fits (List.any_eq_true.2 hcounted)

end

/-- In every run, whatever was asked before and however the world changed meanwhile: questions about
items are refused for the state of the run exactly while no count has succeeded or once an outcome
was accepted; in between exactly the positions from the total `n` on are out of range and the others
are answered, unless data is asked for in a cancelled run.  Until the run is over each count is `n`,
or each is refused because `n` items are too many, and then no question about an item is ever
answered.  One outcome is accepted at most, the first, and it is the one that the run reports. -/
theorem answers_in_window {archive : α} {h : Host} {items : List NewItem} {deletions : Deletions}
    {reporter : Option ρ} {s : Session α ρ}
    (hs : Session.start archive h items deletions reporter = .ok s) (course : List RunEvent) :
    let n := deletions.kept + items.length
    let log := s.exchanges course
    let now := s.after course
    (∀ (q : Request) (i : OutputIndex), q.index? = some i →
      ((∃ operation state, q.refusal? (now.answer q).1 = some (.invalidState operation state)) ↔
        ¬Counted log ∨ Ended log) ∧
      (Counted log → ¬Ended log →
        (q.refusal? (now.answer q).1 = some (.indexOutOfRange i.val n) ↔ n ≤ i.val) ∧
        (i.val < n → q.refusal? (now.answer q).1 = none ∨
          q = .data i ∧ q.refusal? (now.answer q).1 = some .cancelled))) ∧
    (¬Ended log →
      (now.answer .countItems).1 = if maxItems < n then .error (.tooManyItems n) else .ok n) ∧
    (maxItems < n → ¬Counted log) ∧
    (∀ outcome, (now.answer (.reportRun outcome)).1 = .ok () ↔ ¬Ended log) ∧
    (log.filterMap Exchange.outcome?).length ≤ 1 ∧
    now.report.outcome = (log.filterMap Exchange.outcome?).head? := by
  intro n log now
  have hstanding : now.Standing log := standing_after (standing_start hs) course
  have htotal : now.total = n := by
    rw [total_after]
    exact total_start hs
  have hphase : now.phase = .finalizing ↔ Ended log := by
    rw [hstanding.phase, phaseOf_eq_finalizing_iff]
  refine ⟨?_, ?_, ?_, ?_, hstanding.once, hstanding.outcome⟩
  · intro q i hq
    refine ⟨refused_for_state_iff hstanding hq, fun hcounted hgoing => ?_⟩
    rw [← htotal]
    exact refused_in_window hstanding hq hcounted hgoing
  · intro hgoing
    rw [← htotal]
    exact counts_until_ended hstanding hgoing
  · intro hmany hcounted
    have hfits := hstanding.fits (List.any_eq_true.2 hcounted)
    omega
  · intro outcome
    rw [← hphase]
    simp only [answer, reportRun, now.sameStanding_release.phase]
    split <;> simp_all

/-- One of three stored items is marked, so that a run has the positions 0 and 1 once its items are
counted: position 2 is out of range. -/
theorem answers_in_window_two_items :
    let archive : MemoryArchive := ⟨[⟨"a", some [1], default, 32⟩, ⟨"b", some [2], default, 32⟩,
      ⟨"c", none, default, 16⟩], 0⟩
    let h : Host := ⟨⟨.empty, [], []⟩, [], default⟩
    let marks : Deletions := ⟨3, [1], by decide, by decide⟩
    ∃ s : Session MemoryArchive Statistics, Session.start archive h [] marks none = .ok s ∧
      Counted (s.exchanges [.ask .countItems]) ∧ ¬Ended (s.exchanges [.ask .countItems]) ∧
      Request.refusal? (.property ⟨2⟩ .path)
        ((s.after [.ask .countItems]).answer (.property ⟨2⟩ .path)).1 =
          some (.indexOutOfRange 2 2) := by
  intro archive h marks
  have hs : Session.start archive h [] marks (none : Option Statistics) =
      .ok { archive, host := h, items := [], deletions := marks, reporter := none } := rfl
  obtain ⟨hcounted, hgoing⟩ := window_of_count 2
  have hquestion := (answers_in_window hs [.ask .countItems]).1 (.property ⟨2⟩ .path) ⟨2⟩ rfl
  exact ⟨_, hs, hcounted, hgoing, (hquestion.2 hcounted hgoing).1.2 (by decide)⟩

end Session

end ArchiveUpdate
