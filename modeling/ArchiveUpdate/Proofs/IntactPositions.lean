import ArchiveUpdate.Proofs.Deliveries
import ArchiveUpdate.Proofs.RunHistory

/-!
# Positions that a run has left alone

What an output position offers is decided before a run begins (`Session.offerAt`), provided that no
two items share a lent stream and that opening stored items changes none of the archive's answers.
While a run hands out other positions, the position stays `Intact`; so everything that is handed out
comes to what was offered at the beginning, and so do the failures (`deliveries_of_intact`).
-/

set_option autoImplicit false

namespace ArchiveUpdate

namespace Session

variable {α ρ : Type}

section

variable {s : Session α ρ} {gone : List OutputIndex} {i : OutputIndex} {item : OutputItem}

/-- The lent streams behind the positions are those of the new items, in order. -/
theorem filterMap_stream?_outputs (s : Session α ρ) :
    s.outputs.filterMap (·.source.stream?) = s.items.filterMap (·.source.stream?) := by
  rw [outputs, List.filterMap_append, List.filterMap_map, List.filterMap_map]
  have hkept : s.deletions.survivors.filterMap ((·.source.stream?) ∘ OutputItem.kept) = [] :=
    List.filterMap_eq_nil_iff.2 fun _ _ => rfl
  rw [hkept]
  rfl

/-- The lent stream is behind one of the positions. -/
def SpentBy (s : Session α ρ) (gone : List OutputIndex) (id : Nat) : Prop :=
  ∃ i ∈ gone, ∃ item, s.outputs[i.val]? = some item ∧ item.source.stream? = some id

/-- A stream that is spent stays so when more positions are handed out. -/
theorem SpentBy.append {id : Nat} (h : s.SpentBy gone id) (more : List OutputIndex) :
    s.SpentBy (gone ++ more) id := by
  obtain ⟨i, hi, hitem⟩ := h
  exact ⟨i, List.mem_append_left more hi, hitem⟩

/-- A position that was not handed out still has its lent stream, as no other item has the same. -/
theorem not_spentBy (halone : (s.items.filterMap (·.source.stream?)).Nodup) (hfresh : i ∉ gone)
    (hat : s.outputs[i.val]? = some item) {id : Nat} (hid : item.source.stream? = some id) :
    ¬s.SpentBy gone id := by
  rintro ⟨i', hi', item', hat', hid'⟩
  rw [← filterMap_stream?_outputs] at halone
  have hval : i.val = i'.val := eq_of_nodup_filterMap halone hat hat' hid hid'
  have hsame : i = i' := congrArg OutputIndex.mk hval
  rw [hsame] at hfresh
  exact hfresh hi'

end

variable [Archive α]

/-- What an output position offers as things stand. -/
def offerAt (s : Session α ρ) (i : OutputIndex) : Offer :=
  match s.outputs[i.val]? with
  | some item => item.source.offer s.archive s.host
  | none => .ok none

/-- The failure that comes of an output position, if its source does not open as things stand. -/
def failureAt (s : Session α ρ) (i : OutputIndex) : Option FailedItem :=
  match s.outputs[i.val]? with
  | some item => (fault? (item.source.offer s.archive s.host)).map fun e =>
    ⟨i, item.path s.archive, e.message, e.kind⟩
  | none => none

/-- A source offers a failure exactly if opening it fails. -/
theorem fault?_offer (source : ItemSource) (a : α) (h : Host) :
    fault? (source.offer a h) = fault? (source.openData a h).1 := by
  unfold ItemSource.offer
  rcases source.openData a h with ⟨_ | reader?, a', h'⟩ <;> rfl

variable [Reporter ρ]

/-- From one state of a run to another only these positions were handed out: at any other the source
is as it was. -/
structure Intact (s now : Session α ρ) (gone : List OutputIndex) : Prop where
  items : now.items = s.items
  deletions : now.deletions = s.deletions
  standing : ∃ log, now.Standing log
  archive : ∃ is, now.archive = Archive.opening s.archive is
  host : s.host.Alike (s.SpentBy gone) now.host
  reading : ∀ r id, now.reading = some r → r.stream? = some id → s.SpentBy gone id
  failures : ∀ f ∈ now.failures.entries, f.index ∈ gone

section

variable {s now : Session α ρ} {gone : List OutputIndex} {i : OutputIndex} {item : OutputItem}

/-- Opening a source while nothing is open answers and hands out what the source offers. -/
theorem openSource_offer (hreading : s.reading = none) (i : OutputIndex) (item : OutputItem) :
    (s.openSource i item).1 = (item.source.offer s.archive s.host).answer ∧
      (s.openSource i item).2.remaining = (item.source.offer s.archive s.host).content ∧
      (s.openSource i item).2.host = (item.source.openData s.archive s.host).2.2 ∧
      ∀ r, (s.openSource i item).2.reading = some r →
        (item.source.openData s.archive s.host).1 = .ok (some r) := by
  simp only [openSource, tell, item.openData_eq, ItemSource.offer]
  rcases item.source.openData s.archive s.host with ⟨_ | reader?, a, h⟩
  · exact ⟨rfl, remaining_of_reading hreading, rfl, fun r hr => by simp [hreading] at hr⟩
  · cases reader? with
    | none => exact ⟨rfl, remaining_of_reading hreading, rfl, fun r hr => by simp [hreading] at hr⟩
    | some r' => exact ⟨rfl, rfl, rfl, fun r hr => congrArg Except.ok hr⟩

namespace Intact

omit [Reporter ρ] in
/-- The run still has the same items at its positions. -/
theorem outputs_eq (hi : s.Intact now gone) : now.outputs = s.outputs := by
  rw [outputs, outputs, hi.items, hi.deletions]

omit [Reporter ρ] in
/-- Giving back what was read last does nothing to the streams of positions that were not handed
out. -/
theorem release (hi : s.Intact now gone) : s.host.Alike (s.SpentBy gone) now.release.host := by
  unfold Session.release
  cases hreading : now.reading with
  | none => exact hi.host
  | some r =>
    have hclose := (r.alike_close now.host).mono fun id hid => hi.reading r id hreading hid
    exact hi.host.trans hclose

omit [Reporter ρ] in
/-- A change from outside that leaves all there is to read alone leaves all positions intact. -/
theorem world (hi : s.Intact now gone) {h : Host} (halike : now.host.Alike (fun _ => False) h) :
    s.Intact { now with host := h } gone := by
  obtain ⟨log, hlog⟩ := hi.standing
  have hhost := hi.host.trans (halike.mono fun _ => False.elim)
  exact ⟨hi.items, hi.deletions, ⟨log, hlog.phase, hlog.outcome, hlog.once, hlog.fits⟩, hi.archive,
    hhost, hi.reading, hi.failures⟩

/-- Of what a request does only the source that it opens or reads matters. -/
theorem answer (hi : s.Intact now gone) (q : Request) {gone' : List OutputIndex}
    (hhost : s.host.Alike (s.SpentBy gone') (now.answer q).2.host)
    (hreading : ∀ r id, (now.answer q).2.reading = some r → r.stream? = some id →
      s.SpentBy gone' id)
    (hfailures : ∀ f ∈ (now.answer q).2.failures.entries, f.index ∈ gone') :
    s.Intact (now.answer q).2 gone' := by
  obtain ⟨log, hlog⟩ := hi.standing
  obtain ⟨is, harchive⟩ := hi.archive
  obtain ⟨is', harchive'⟩ := now.archive_answer q
  have hitems := items_step now (.ask q)
  refine ⟨hitems.1.trans hi.items, hitems.2.trans hi.deletions, ⟨_, hlog.step (.ask q)⟩,
    ⟨is ++ is', ?_⟩, hhost, hreading, hfailures⟩
  rw [Archive.opening_append, ← harchive, ← harchive']

/-- A read leaves all positions intact that were so before. -/
theorem read (hi : s.Intact now gone) (n : Nat) : s.Intact (now.answer (.read n)).2 gone := by
  have hanswer : now.answer (.read n) = now.read n := rfl
  have hfailures : (now.answer (.read n)).2.failures = now.failures := failures_read now n
  apply hi.answer
  · rw [hanswer]
    cases hreading : now.reading with
    | none =>
      rw [read_of_none hreading]
      exact hi.host
    | some r =>
      have hread := (r.alike_read now.host n).mono fun id hid => hi.reading r id hreading hid
      rw [(read_of_some hreading n).1]
      exact hi.host.trans hread
  · intro r' id hr' hid
    rw [hanswer] at hr'
    cases hreading : now.reading with
    | none =>
      rw [read_of_none hreading, hreading] at hr'
      cases hr'
    | some r =>
      rw [(read_of_some hreading n).2] at hr'
      cases hr'
      rw [r.stream?_read] at hid
      exact hi.reading r id hreading hid
  · rw [hfailures]
    exact hi.failures

/-- A request that hands out nothing leaves all positions intact. -/
theorem idle (hi : s.Intact now gone) {q : Request}
    (hgrant : Exchange.grant? ⟨q, (now.answer q).1⟩ = none) :
    s.Intact (now.answer q).2 gone ∧ (now.answer q).2.failures = now.failures := by
  by_cases hread : ∃ n, q = .read n
  · obtain ⟨n, rfl⟩ := hread
    exact ⟨hi.read n, failures_read now n⟩
  · have hback := givesBack_answer (not_exists.1 hread) hgrant
    refine ⟨hi.answer q ?_ ?_ ?_, hback.failures⟩
    · rw [hback.host]
      exact hi.release
    · rw [hback.reading]
      exact nofun
    · rw [hback.failures]
      exact hi.failures

/-- A position that was not handed out is reported and offers as at first. -/
theorem offer_eq (hsteady : Archive.Steady s.archive)
    (halone : (s.items.filterMap (·.source.stream?)).Nodup) (hi : s.Intact now gone)
    (hfresh : i ∉ gone) (hat : s.outputs[i.val]? = some item) :
    item.path now.asked.archive = item.path s.archive ∧
      item.source.offer now.asked.archive now.asked.host = s.offerAt i := by
  obtain ⟨is, harchive⟩ := hi.archive
  rw [archive_asked, harchive]
  refine ⟨item.path_opening hsteady is, ?_⟩
  have hhost : s.host.Alike (s.SpentBy gone) now.asked.host := hi.release
  have hoffer := ItemSource.offer_eq (hsteady.openItem is) hhost fun id hid =>
    not_spentBy halone hfresh hat hid
  rw [hoffer, offerAt, hat]

/-- Opening the source of one position leaves all others intact. -/
theorem opened (hi : s.Intact now gone) (hat : s.outputs[i.val]? = some item)
    (hanswer : (now.answer (.data i)).2 = (now.asked.openSource i item).2) :
    s.Intact (now.answer (.data i)).2 (gone ++ [i]) := by
  have hback := now.givesBack_asked
  obtain ⟨-, -, hhost, hreader⟩ := openSource_offer hback.reading i item
  have hnew : ∀ id, item.source.stream? = some id → s.SpentBy (gone ++ [i]) id := fun id hid =>
    ⟨i, List.mem_append_right _ (List.mem_singleton_self i), item, hat, hid⟩
  apply hi.answer
  · have hbefore : s.host.Alike (s.SpentBy (gone ++ [i])) now.asked.host :=
      hi.release.mono fun id hid => hid.append [i]
    have hopening := item.source.alike_openData now.asked.archive now.asked.host
    rw [hanswer, hhost]
    exact hbefore.trans (hopening.mono hnew)
  · intro r id hr hid
    rw [hanswer] at hr
    exact hnew id (ItemSource.stream?_of_openData (hreader r hr) hid)
  · rw [hanswer, (now.asked.openSource_fault i item).2, hback.failures]
    intro f hf
    rcases List.mem_append.1 hf with hf | hf
    · exact List.mem_append_left _ (hi.failures f hf)
    · obtain ⟨e, -, rfl⟩ := Option.map_eq_some_iff.1 (Option.mem_toList.1 hf)
      exact List.mem_append_right _ (List.mem_singleton_self i)

/-- What is handed out at a position for the first time is what was offered there at first. -/
theorem grant (hsteady : Archive.Steady s.archive)
    (halone : (s.items.filterMap (·.source.stream?)).Nodup) (hi : s.Intact now gone)
    (hfresh : i ∉ gone) {answer : DataAnswer} (hgrant : (now.answer (.data i)).1 = .ok answer) :
    answer = (s.offerAt i).answer ∧
      (now.answer (.data i)).2.remaining = (s.offerAt i).content ∧
      (now.answer (.data i)).2.failures.entries = now.failures.entries ++ (s.failureAt i).toList ∧
      s.Intact (now.answer (.data i)).2 (gone ++ [i]) := by
  obtain ⟨log, hlog⟩ := hi.standing
  obtain ⟨item, hat, ⟨hknown, -⟩ | ⟨-, hanswer⟩⟩ := answer_of_grant hlog.fits_of_active hgrant
  · obtain ⟨f, hf, rfl⟩ := FailureLog.isSome_get?_iff.1 hknown
    exact absurd (hi.failures f hf) hfresh
  · rw [hi.outputs_eq] at hat
    have hback := now.givesBack_asked
    obtain ⟨hpath, hoffer⟩ := hi.offer_eq hsteady halone hfresh hat
    obtain ⟨hreply, hremaining, -, -⟩ := openSource_offer hback.reading i item
    have hfault : fault? (item.openData now.asked.archive now.asked.host).1 =
        fault? (s.offerAt i) := by
      rw [item.openData_eq, ← fault?_offer, hoffer]
    have hintact := hi.opened hat (congrArg Prod.snd hanswer)
    rw [hanswer] at hgrant hintact ⊢
    refine ⟨?_, ?_, ?_, hintact⟩
    · rw [← hoffer, ← hreply]
      exact (Except.ok.inj hgrant).symm
    · rw [hremaining, hoffer]
    · rw [(now.asked.openSource_fault i item).2, hfault, hpath, hback.failures, failureAt, offerAt,
        hat]

end Intact

variable {course : List RunEvent}

/-- As long as only positions are handed out that are intact, every delivery comes to what was
offered there at first, and the failures that come to light are those that were to be expected. -/
theorem deliveries_of_intact (hsteady : Archive.Steady s.archive)
    (halone : (s.items.filterMap (·.source.stream?)).Nodup) (hi : s.Intact now gone)
    (hquiet : now.Undisturbed course)
    (hfresh : (gone ++ (deliveries (now.exchanges course)).map (·.index)).Nodup) :
    (∀ d ∈ deliveries (now.exchanges course), d.answer = (s.offerAt d.index).answer ∧
      (s.offerAt d.index).content.Delivers d.reads) ∧
    (now.after course).failures.entries = now.failures.entries ++
      ((deliveries (now.exchanges course)).map (·.index)).filterMap s.failureAt := by
  -- The positions that are gone grow with every grant, and `hfresh` keeps the next ones apart.
  induction course generalizing now gone with
  | nil =>
    simp only [exchanges, deliveries]
    exact ⟨List.forall_mem_nil _, (List.append_nil _).symm⟩
  | cons event course ih =>
    cases event with
    | world h => exact ih (hi.world hquiet.1) hquiet.2 hfresh
    | ask q =>
      have hquiet : (now.answer q).2.Undisturbed course := hquiet
      have hafter : now.after (.ask q :: course) = (now.answer q).2.after course := rfl
      simp only [exchanges, deliveries] at hfresh ⊢
      cases hgrant : Exchange.grant? ⟨q, (now.answer q).1⟩ with
      | none =>
        obtain ⟨hnow, hfailures⟩ := hi.idle hgrant
        rw [hgrant] at hfresh
        rw [hafter, ← hfailures]
        exact ih hnow hquiet hfresh
      | some grant =>
        obtain ⟨i, answer⟩ := grant
        obtain ⟨rfl, hok⟩ := data_of_grant hgrant
        rw [hgrant] at hfresh
        have hnew : i ∉ gone := by
          intro hgone
          exact (List.nodup_append.1 hfresh).2.2 i hgone i List.mem_cons_self rfl
        have hrest : (gone ++ [i] ++
            (deliveries ((now.answer (.data i)).2.exchanges course)).map (·.index)).Nodup := by
          rw [List.append_assoc]
          exact hfresh
        obtain ⟨hanswer, hremaining, hentries, hnow⟩ := hi.grant hsteady halone hnew hok
        obtain ⟨hdeliveries, hfailures⟩ := ih hnow hquiet hrest
        constructor
        · intro d hd
          rcases List.mem_cons.1 hd with rfl | hd
          · refine ⟨hanswer, ?_⟩
            rw [← hremaining]
            exact delivers_leadingReads hquiet
          · exact hdeliveries d hd
        · rw [hafter, hfailures, hentries, List.append_assoc]
          congr 1
          simp only [List.map_cons, List.filterMap_cons]
          cases s.failureAt i <;> rfl

end

end Session

end ArchiveUpdate
