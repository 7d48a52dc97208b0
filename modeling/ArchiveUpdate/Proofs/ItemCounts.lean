import ArchiveUpdate.Proofs.EngineRuns

/-!
# The number of items is announced, told and reported alike

The number of items of the finished archive comes up three times: the updater announces it, cut off
at the greatest number that an archive can hold; an engine asks for it; and the summary of a
successful run adds up what was kept and what was added.  They agree (`counted_as_announced`): until
the outcome of the run is accepted every count is the announced number, or every count is refused
because there are too many items.  Afterwards an engine is refused for another reason
(`count_refused_after_outcome`).
-/

set_option autoImplicit false

namespace ArchiveUpdate

namespace Session

variable {α ρ : Type} [Archive α] [Reporter ρ]

/-- A count that an engine is told is the number of the items, and these fit into one archive. -/
theorem told_of_mem {s : Session α ρ} {course : List RunEvent} {n : Nat}
    (h : ⟨.countItems, .ok n⟩ ∈ s.exchanges course) : n = s.total ∧ n ≤ maxItems := by
  obtain ⟨earlier, hr⟩ := reply_of_mem h
  rw [answer_countItems, total_after] at hr
  split at hr
  · cases hr
  · split at hr
    · cases hr
    · injection hr with hn
      omega

end Session

namespace Updater

variable {α ρ β : Type} [Archive α] [Reporter ρ]

/-- A run results in a summary only by being concluded with it. -/
theorem conclude_of_result {u : Updater α ρ} {h : Host} {s : Session α ρ}
    {engine : Engine (Except UpdateError Unit × β)} {summary : RunSummary}
    (hs : Session.start u.archive h u.items u.runDeletions u.options.reporter = .ok s)
    (hsummary : (u.compress h engine).result = .ok summary) :
    conclude u.runDeletions u.items (engine.run s).2.report = .ok summary := by
  rw [result_of_start hs] at hsummary
  cases hanswer : (engine.run s).1.1 with
  | error e =>
    rw [hanswer] at hsummary
    cases hsummary
  | ok done =>
    rw [hanswer] at hsummary
    exact hsummary

omit [Archive α] [Reporter ρ] in
/-- As long as all the items fit into one archive, no word is too small for their numbers. -/
theorem sums_of_conclude {deletions : Deletions} {items : List NewItem} {report : RunReport}
    {summary : RunSummary} (h : conclude deletions items report = .ok summary)
    (hfits : deletions.kept + items.length ≤ maxItems) :
    summary.added = items.length ∧ summary.total = deletions.kept + items.length := by
  obtain ⟨hkept, -, hadded⟩ := conclude_eq_ok h
  have hword : deletions.kept + items.length < UInt32.size := Nat.lt_succ_of_le hfits
  have hnew : word32 items.length = items.length :=
    word32_of_lt ((Nat.le_add_left _ _).trans_lt hword)
  rw [RunSummary.total, hkept, hadded, hnew]
  exact ⟨rfl, word32_of_lt hword⟩

/-- With `n` kept and new items in all, the updater announces `n` or, if that is more, the greatest
number of items.  Every count that an engine asks for before the outcome of its run is accepted is
the announced number, or it is refused because `n` items are too many.  A successful run accounts
for all stored items and, if the `n` items fit into one archive, for all new ones, and its total is
then what was announced, as it is what the engine was told.  Runs do begin in the life of an
updater, if opening items does not change their number. -/
theorem counted_as_announced (u : Updater α ρ) (h : Host)
    (engine : Engine (Except UpdateError Unit × β)) :
    let n := u.runDeletions.kept + u.items.length
    let beginning := Session.start u.archive h u.items u.runDeletions u.options.reporter
    u.totalItemCount = min maxItems n ∧
    (Life u → (∀ (a : α) i, Archive.itemCount (Archive.openItem a i).2 = Archive.itemCount a) →
      ∃ s, beginning = .ok s) ∧
    ∀ s, beginning = .ok s →
      (∀ before r later, engine.exchanges s = before ++ ⟨.countItems, r⟩ :: later →
        ¬Ended before →
          r = if maxItems < n then .error (.tooManyItems n) else .ok u.totalItemCount) ∧
      ∀ summary, (u.compress h engine).result = .ok summary →
        summary.kept = u.runDeletions.kept ∧
        summary.kept + summary.deleted = Archive.itemCount u.archive ∧
        (n ≤ maxItems → summary.added = u.items.length ∧ summary.total = u.totalItemCount) ∧
        ∀ told, ⟨.countItems, .ok told⟩ ∈ engine.exchanges s → summary.total = told := by
  intro n beginning
  have hannounced : u.totalItemCount = min maxItems n := rfl
  refine ⟨hannounced, fun hu hconst => start_of_life hconst hu h, ?_⟩
  intro s hs
  have htotal : s.total = n := Session.total_start hs
  obtain ⟨course, -, hlog⟩ := engine.run_is_course s
  rw [hlog]
  constructor
  · intro before r later hsplit hgoing
    obtain ⟨earlier, hbefore, hr⟩ := Session.reply_of_split hsplit
    have hstanding : (s.after earlier).Standing before := by
      rw [← hbefore]
      exact Session.standing_after (Session.standing_start hs) earlier
    rw [hr, Session.counts_until_ended hstanding hgoing, Session.total_after, htotal, hannounced]
    by_cases hmany : maxItems < n
    · rw [if_pos hmany, if_pos hmany]
    · rw [if_neg hmany, if_neg hmany, Nat.min_eq_right (Nat.not_lt.1 hmany)]
  · intro summary hsummary
    have hconcluded := conclude_of_result hs hsummary
    obtain ⟨hkept, hdeleted, -⟩ := conclude_eq_ok hconcluded
    refine ⟨hkept, ?_, ?_, ?_⟩
    · rw [hkept, hdeleted, Deletions.kept_add_size]
      exact (Session.start_eq_ok_iff.1 hs).1
    · intro hfits
      obtain ⟨hnew, hall⟩ := sums_of_conclude hconcluded hfits
      rw [hall, hannounced, Nat.min_eq_right hfits]
      exact ⟨hnew, rfl⟩
    · intro told htold
      obtain ⟨rfl, hfits⟩ := Session.told_of_mem htold
      rw [htotal] at hfits ⊢
      exact (sums_of_conclude hconcluded hfits).2

/-- An engine that counts again behind the outcome of its run is refused, whatever was announced. -/
theorem count_refused_after_outcome :
    let u : Updater MemoryArchive Statistics := .fresh ⟨[⟨"a", some [1], default, 32⟩], 0⟩ {}
    let h : Host := ⟨⟨.empty, [], []⟩, [], default⟩
    let engine : Engine (Except UpdateError Unit × Unit) :=
      .ask .countItems fun _ => .ask (.reportRun .success) fun _ => .ask .countItems fun _ =>
        .done (.ok (), ())
    Life u ∧ u.totalItemCount = 1 ∧
    ∃ s, Session.start u.archive h u.items u.runDeletions u.options.reporter = .ok s ∧
      engine.exchanges s = [⟨.countItems, .ok 1⟩, ⟨.reportRun .success, .ok ()⟩,
        ⟨.countItems, .error (.invalidState "count items" "finalizing")⟩] := by
  intro u h engine
  exact ⟨.fresh _ _, rfl, _, rfl, rfl⟩

end Updater

end ArchiveUpdate
