import ArchiveUpdate.Proofs.IntactPositions

/-!
# The order of requests does not matter

A run that takes the data of every output position once and reads it to its end has taken, in some
order, what the positions offered at its beginning (`taken_of_run`).  So two runs over the same
items come to the same, in whatever order they ask and whatever they ask besides
(`same_in_any_order`).
-/

set_option autoImplicit false

namespace ArchiveUpdate

namespace Session

variable {α ρ : Type} [Archive α] [Reporter ρ]

/-- A run that takes everything takes, in some order, what was offered at its beginning. -/
theorem taken_of_run {archive : α} {h : Host} {items : List NewItem} {deletions : Deletions}
    {reporter : Option ρ} {s : Session α ρ} {course : List RunEvent} {n : Nat}
    (hs : Session.start archive h items deletions reporter = .ok s)
    (hsteady : Archive.Steady archive) (halone : (items.filterMap (·.source.stream?)).Nodup)
    (hquiet : s.Undisturbed course) (hall : TakesAll n (s.exchanges course)) :
    ((deliveries (s.exchanges course)).map fun d => (d.index, d.answer, d.content)).Perm
      ((positions n).map fun i => (i, (s.offerAt i).answer, (s.offerAt i).content)) ∧
    (s.after course).failures.entries.Perm ((positions n).filterMap s.failureAt) ∧
    (s.after course).streamed =
      ((positions n).map fun i => (s.offerAt i).content.bytes.length).sum := by
  obtain ⟨-, rfl⟩ := start_eq_ok_iff.1 hs
  set s : Session α ρ := { archive, host := h, items, deletions, reporter }
  have hbegin : s.Intact s [] :=
    ⟨rfl, rfl, ⟨[], standing_start hs⟩, ⟨[], rfl⟩, .refl s.host, nofun, nofun⟩
  have hfresh : ([] ++ (deliveries (s.exchanges course)).map Delivery.index).Nodup :=
    hall.once.nodup_iff.2 (nodup_positions n)
  obtain ⟨hdeliveries, hfailures⟩ := deliveries_of_intact hsteady halone hbegin hquiet hfresh
  have hcontent : ∀ d ∈ deliveries (s.exchanges course),
      d.content = (s.offerAt d.index).content := by
    intro d hd
    obtain ⟨hanswer, hdelivers⟩ := hdeliveries d hd
    apply Offer.gathered_eq hdelivers
    rw [← hanswer]
    exact hall.ends d hd
  refine ⟨?_, ?_, ?_⟩
  · apply hall.map_perm
    intro d hd
    rw [(hdeliveries d hd).1, hcontent d hd]
  · rw [hfailures]
    exact hall.once.filterMap s.failureAt
  · have hleading := Content.gathered_of_ended (delivers_leadingReads hquiet)
    have hsum := hall.map_perm (f := fun i => (s.offerAt i).content.bytes.length) fun d hd =>
      congrArg (·.bytes.length) (hcontent d hd)
    rw [streamed_after, hleading, ← hsum.sum_nat]
    exact Nat.zero_add _

/-- Where a question about an item is answered in the course of a run, the items of the run are
served. -/
theorem serves_after {s : Session α ρ} {course : List RunEvent} (hs : s.Standing [])
    {q : Request} {i : OutputIndex} (hq : q.index? = some i)
    (haccepted : q.refusal? ((s.after course).answer q).1 = none) :
    (s.after course).Serves s.outputs := by
  have hstanding := standing_after hs course
  obtain ⟨hcounted, hgoing⟩ := window_of_accepted hstanding hq haccepted
  rw [← s.outputs_after course]
  exact serves_in_window hstanding hcounted hgoing

/-- Two runs that serve the same items, and whose archives say the same of them, answer a question
about an item alike wherever both answer it. -/
theorem answer_eq_of_serves {ρ' : Type} [Reporter ρ'] {s : Session α ρ} {s' : Session α ρ'}
    {outputs : List OutputItem} (hserves : s.Serves outputs) (hserves' : s'.Serves outputs)
    (hproperty : ∀ (item : OutputItem) (kind : PropertyKind),
      item.property s.archive kind = item.property s'.archive kind)
    {q : Request} {i : OutputIndex} (hq : q.index? = some i) (hdata : q ≠ .data i)
    (haccepted : q.refusal? (s.answer q).1 = none)
    (haccepted' : q.refusal? (s'.answer q).1 = none) : (s.answer q).1 = (s'.answer q).1 := by
  cases q with
  | property j kind =>
    rw [hserves.property, hserves'.property]
    simp only [hproperty]
  | hasNewData j => rw [hserves.hasNewData, hserves'.hasNewData]
  | hasNewProperties j => rw [hserves.hasNewProperties, hserves'.hasNewProperties]
  | storedIndex j => rw [hserves.storedIndex, hserves'.storedIndex]
  | reportItem j outcome =>
    have hok : ∀ r : Except UpdateError Unit, Request.refusal r = none → r = .ok () := by
      rintro (_ | _) hr
      · cases hr
      · rfl
    rw [hok _ haccepted, hok _ haccepted']
  | data j =>
    cases hq
    exact absurd rfl hdata
  | _ => cases hq

/-- Two runs over the same items, in which the files stay as they are and nobody else moves the lent
streams, and which both take the data of every output position once and read it to its end: in
whatever order they ask, and whatever they ask besides, they get the same answers about the items,
the same data from each position, and the same failures up to their order, and they stream the same
number of bytes.  No two items share a lent stream, and opening items changes none of the archive's
answers. -/
theorem same_in_any_order {ρ' : Type} [Reporter ρ'] {archive : α} {h : Host} {items : List NewItem}
    {deletions : Deletions} {reporter : Option ρ} {reporter' : Option ρ'} {s : Session α ρ}
    {s' : Session α ρ'} {course course' : List RunEvent} (hsteady : Archive.Steady archive)
    (halone : (items.filterMap (·.source.stream?)).Nodup)
    (hs : Session.start archive h items deletions reporter = .ok s)
    (hs' : Session.start archive h items deletions reporter' = .ok s')
    (hquiet : s.Undisturbed course) (hquiet' : s'.Undisturbed course')
    (hall : TakesAll (deletions.kept + items.length) (s.exchanges course))
    (hall' : TakesAll (deletions.kept + items.length) (s'.exchanges course')) :
    let log := s.exchanges course
    let log' := s'.exchanges course'
    let report := (s.after course).report
    let report' := (s'.after course').report
    (∀ (q : Request) (i : OutputIndex) (r r' : q.Reply), q.index? = some i → q ≠ .data i →
      ⟨q, r⟩ ∈ log → ⟨q, r'⟩ ∈ log' → q.refusal? r = none → q.refusal? r' = none → r = r') ∧
    ((deliveries log).map fun d => (d.index, d.answer, d.content)).Perm
      ((deliveries log').map fun d => (d.index, d.answer, d.content)) ∧
    report.failures.entries.Perm report'.failures.entries ∧
    report.streamed = report'.streamed := by
  intro log log' report report'
  obtain ⟨htaken, hfailures, hstreamed⟩ := taken_of_run hs hsteady halone hquiet hall
  obtain ⟨htaken', hfailures', hstreamed'⟩ := taken_of_run hs' hsteady halone hquiet' hall'
  have hbegin : s.archive = archive ∧ s'.archive = archive ∧ s.outputs = s'.outputs ∧
      s.offerAt = s'.offerAt ∧ s.failureAt = s'.failureAt := by
    obtain ⟨-, rfl⟩ := start_eq_ok_iff.1 hs
    obtain ⟨-, rfl⟩ := start_eq_ok_iff.1 hs'
    exact ⟨rfl, rfl, rfl, rfl, rfl⟩
  obtain ⟨harchive, harchive', houtputs, hoffer, hfailure⟩ := hbegin
  refine ⟨?_, ?_, ?_, ?_⟩
  · intro q i r r' hq hdata hr hr' haccepted haccepted'
    obtain ⟨earlier, rfl⟩ := reply_of_mem hr
    obtain ⟨earlier', rfl⟩ := reply_of_mem hr'
    have hserves := serves_after (standing_start hs) hq haccepted
    have hserves' := serves_after (standing_start hs') hq haccepted'
    rw [← houtputs] at hserves'
    refine answer_eq_of_serves hserves hserves' ?_ hq hdata haccepted haccepted'
    intro item kind
    obtain ⟨is, hnow⟩ := s.archive_after earlier
    obtain ⟨is', hnow'⟩ := s'.archive_after earlier'
    rw [hnow, hnow', harchive, harchive', item.property_opening hsteady,
      item.property_opening hsteady]
  · rw [← hoffer] at htaken'
    exact htaken.trans htaken'.symm
  · rw [← hfailure] at hfailures'
    exact hfailures.trans hfailures'.symm
  · rw [← hoffer, ← hstreamed] at hstreamed'
    exact hstreamed'.symm

/-- A stored item, a lent stream and one that cannot be rewound: they are asked for from the first
to the last, or from the last to the first in smaller pieces while the clock goes on. -/
theorem same_in_any_order_back_to_front :
    let archive : MemoryArchive := ⟨[⟨"a", some [1, 2], default, 32⟩], 0⟩
    let good : ByteStream := { data := [3, 4, 5] }
    let bad : ByteStream :=
      { data := [6], failingSeek := some 0, fault := ⟨.timedOut, "too slow"⟩ }
    let h : Host := ⟨⟨.empty, [], []⟩, [⟨good, false⟩, ⟨bad, false⟩], default⟩
    let b : ItemPath := ⟨"b", by decide, (PathFault.of?_eq_none_iff.1 rfl).2⟩
    let c : ItemPath := ⟨"c", by decide, (PathFault.of?_eq_none_iff.1 rfl).2⟩
    let items : List NewItem := [⟨b, .stream ⟨0, 0, 3, default⟩⟩, ⟨c, .stream ⟨1, 0, 1, default⟩⟩]
    let course : List RunEvent := [.ask .countItems, .ask (.data ⟨0⟩), .ask (.read 9),
      .ask (.read 9), .ask (.data ⟨1⟩), .ask (.read 9), .ask (.read 9), .ask (.data ⟨2⟩)]
    let later : Host := { h with now := ⟨1, by decide⟩ }
    let course' : List RunEvent := [.world later, .ask .countItems, .ask (.data ⟨2⟩),
      .ask (.data ⟨1⟩), .ask (.read 2), .ask (.read 2), .ask (.read 2),
      .ask (.property ⟨0⟩ .size), .ask (.data ⟨0⟩), .ask (.read 1), .ask (.read 1), .ask (.read 1)]
    ∃ (s : Session MemoryArchive Silent) (s' : Session MemoryArchive Statistics),
      Session.start archive h items (.empty 1) none = .ok s ∧
      Session.start archive h items (.empty 1) (some {}) = .ok s' ∧
      TakesAll 3 (s.exchanges course) ∧ TakesAll 3 (s'.exchanges course') ∧
      (s'.after course').report.failures.entries = [⟨⟨2⟩, "c", "too slow", .timedOut⟩] ∧
      (s.after course).report.streamed = (s'.after course').report.streamed := by
  intro archive good bad h b c items course later course'
  let s : Session MemoryArchive Silent :=
    { archive, host := h, items, deletions := .empty 1, reporter := none }
  let s' : Session MemoryArchive Statistics :=
    { archive, host := h, items, deletions := .empty 1, reporter := some {} }
  have hs : Session.start archive h items (.empty 1) none = .ok s := rfl
  have hs' : Session.start archive h items (.empty 1) (some {}) = .ok s' := rfl
  have hall : TakesAll 3 (s.exchanges course) := by decide +kernel
  have hall' : TakesAll 3 (s'.exchanges course') := by decide +kernel
  have hquiet : s.Undisturbed course := trivial
  have hquiet' : s'.Undisturbed course' := ⟨⟨fun _ => rfl, fun _ _ => rfl⟩, trivial⟩
  obtain ⟨-, -, hfailures, hstreamed⟩ :=
    same_in_any_order archive.steady (by decide) hs hs' hquiet hquiet' hall hall'
  have hone : (s.after course).report.failures.entries = [⟨⟨2⟩, "c", "too slow", .timedOut⟩] := by
    decide +kernel
  rw [hone] at hfailures
  exact ⟨s, s', hs, hs', hall, hall', hfailures.singleton_eq.symm, hstreamed⟩

end Session

end ArchiveUpdate
