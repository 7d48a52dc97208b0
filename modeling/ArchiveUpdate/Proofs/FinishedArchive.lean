import ArchiveUpdate.Proofs.Calls
import ArchiveUpdate.Proofs.OwnData
import ArchiveUpdate.Proofs.PositionAnswers

/-!
# What the finished archive holds

A run that appends has the stored items that no accepted call removed at its first positions, in
their stored order, and behind them what the accepted calls brought, in the order of the calls.  At
each of them it answers for the item that is there and gives that item's data
(`serves_untouched_then_brought`).
-/

set_option autoImplicit false

namespace ArchiveUpdate

namespace OutputItem

/-- The first positions have the kept items. -/
theorem getElem?_kept {kept : List StoredIndex} {new : List NewItem} {k : Nat} {j : StoredIndex}
    (h : kept[k]? = some j) :
    (kept.map OutputItem.kept ++ new.map .added)[k]? = some (.kept j) := by
  have hlt : k < (kept.map OutputItem.kept).length := by
    rw [List.length_map]
    exact (List.getElem?_eq_some_iff.1 h).1
  rw [List.getElem?_append_left hlt, List.getElem?_map, h]
  rfl

/-- The positions behind them have the new items. -/
theorem getElem?_added {kept : List StoredIndex} {new : List NewItem} {k : Nat} {item : NewItem}
    (h : new[k]? = some item) :
    (kept.map OutputItem.kept ++ new.map .added)[kept.length + k]? = some (.added item) := by
  have hle : (kept.map OutputItem.kept).length ≤ kept.length + k := by
    rw [List.length_map]
    exact Nat.le_add_right _ _
  rw [List.getElem?_append_right hle, List.length_map, Nat.add_sub_cancel_left, List.getElem?_map,
    h]
  rfl

end OutputItem

namespace Session

variable {α ρ : Type} [Archive α] [Reporter ρ]

/-- A run has these stored items at its first positions, these new ones behind them, and nothing
else: at each position it answers for the item that is there and gives that item's data, as the
archive and the world are once what was being read is given back. -/
structure Presents (s : Session α ρ) (kept : List StoredIndex) (new : List NewItem) : Prop where
  stored : ∀ k j, kept[k]? = some j →
    s.AnswersKept ⟨k⟩ j ∧ s.GivesData ⟨k⟩ (Archive.storedData s.archive j)
  brought : ∀ k item, new[k]? = some item →
    s.AnswersNew ⟨kept.length + k⟩ item ∧
      s.GivesData ⟨kept.length + k⟩ (item.source.ownData s.archive s.release.host)
  outside : ∀ (q : Request) (i : OutputIndex), q.index? = some i →
    kept.length + new.length ≤ i.val →
      q.refusal? (s.answer q).1 = some (.indexOutOfRange i.val (kept.length + new.length))

/-- While its window is open a run presents the items that make up its positions. -/
theorem presents_in_window {s : Session α ρ} {log : List Exchange} (hs : s.Standing log)
    (hcounted : Counted log) (hgoing : ¬Ended log) {kept : List StoredIndex} {new : List NewItem}
    (houtputs : s.outputs = kept.map .kept ++ new.map .added) : s.Presents kept new := by
  have hphase : s.phase = .active := by
    rw [hs.phase]
    exact phaseOf_eq_active_iff.2 ⟨hcounted, hgoing⟩
  have hfits : s.total ≤ maxItems := hs.fits (List.any_eq_true.2 hcounted)
  have hserves := serves_in_window hs hcounted hgoing
  have htotal : s.total = kept.length + new.length := by
    rw [← length_outputs, houtputs, List.length_append, List.length_map, List.length_map]
  refine ⟨?_, ?_, ?_⟩
  · intro k j hj
    have hat : s.outputs[k]? = some (.kept j) := by
      rw [houtputs, OutputItem.getElem?_kept hj]
    exact ⟨answersKept hserves hat, givesData hphase hfits hat⟩
  · intro k item hitem
    have hat : s.outputs[kept.length + k]? = some (.added item) := by
      rw [houtputs, OutputItem.getElem?_added hitem]
    exact ⟨answersNew hserves hat, givesData hphase hfits hat⟩
  · intro q i hq hi
    rw [← htotal] at hi ⊢
    exact (refused_in_window hs hq hcounted hgoing).1.2 hi

end Session

namespace Updater

variable {α ρ : Type} [Archive α]

open Classical in
/-- The stored items that none of the calls removes, in their stored order. -/
noncomputable def untouched (a : α) (calls : List Call) : List StoredIndex :=
  (Archive.indices a).filter fun j => ¬∃ call ∈ calls, call.Removes a j

/-- If the marks are what the calls remove, the stored items that survive are the untouched ones. -/
theorem survivors_eq_untouched {a : α} {calls : List Call} {d : Deletions}
    (hcount : d.count = Archive.itemCount a)
    (hmem : ∀ j : StoredIndex, j.val ∈ d.members ↔ ∃ call ∈ calls, call.Removes a j) :
    d.survivors = untouched a calls := by
  unfold untouched Deletions.survivors Archive.indices
  rw [List.filter_map, hcount]
  congr 1
  refine List.filter_congr fun m _ => ?_
  simp only [Function.comp_apply, decide_eq_decide, hmem ⟨m⟩]

/-- Whatever was called for, a run that appends begins, counts the stored items that no accepted
call removed and the items that the accepted calls brought, and presents the former in their stored
order and behind them the latter, call by call.  A kept item answers with all that is stored about
it, and its data is the stored data.  A new one has its own path, and either the data and everything
else of the stored item that it renames, or the data of its source and what that states about
itself.  Nothing happens to the archive but that its items are opened. -/
theorem serves_untouched_then_brought [Reporter ρ] (archive : α) (options : UpdateOptions ρ)
    (calls : List Call) (h : Host) :
    let u := fresh archive { options with mode := .append }
    let v := u.after calls
    let kept := untouched archive (u.accepted calls)
    ∃ (news : List (List NewItem)) (s : Session α ρ),
      List.Forall₂ (Call.Brings archive options.index) (u.accepted calls) news ∧
      Session.start v.archive h v.items v.runDeletions v.options.reporter = .ok s ∧
      let new := news.flatten
      let total := kept.length + new.length
      ∀ course : List RunEvent,
        let log := s.exchanges course
        let now := s.after course
        (∃ opened, now.archive = Archive.opening archive opened) ∧
        (¬Ended log → (now.answer .countItems).1 =
          if maxItems < total then .error (.tooManyItems total) else .ok total) ∧
        (Counted log → ¬Ended log → now.Presents kept new) := by
  intro u v kept
  obtain ⟨news, d, hafter, hbring, hcount, hmem⟩ :=
    after_fresh archive { options with mode := .append } calls
  have hv : v = { u with items := news.flatten, deletions := d } := hafter
  have hitems : v.items = news.flatten := by rw [hv]
  have hmarks : v.runDeletions = d := by
    rw [hv]
    rfl
  let s : Session α ρ :=
    { archive := v.archive, host := h, items := v.items, deletions := v.runDeletions,
      reporter := v.options.reporter }
  have hstart : Session.start v.archive h v.items v.runDeletions v.options.reporter = .ok s :=
    start_after archive { options with mode := .append } calls h
  refine ⟨news, s, hbring, hstart, ?_⟩
  intro new total course log now
  have hstanding : now.Standing log :=
    Session.standing_after (Session.standing_start hstart) course
  have houtputs : now.outputs = kept.map OutputItem.kept ++ new.map .added := by
    rw [Session.outputs_after]
    change v.runDeletions.survivors.map OutputItem.kept ++ v.items.map .added = _
    rw [hmarks, hitems, survivors_eq_untouched hcount hmem]
  have htotal : now.total = total := by
    rw [← Session.length_outputs, houtputs, List.length_append, List.length_map, List.length_map]
  refine ⟨?_, ?_, ?_⟩
  · obtain ⟨opened, hopened⟩ := s.archive_after course
    refine ⟨opened, hopened.trans ?_⟩
    exact congrArg (Archive.opening · opened) (archive_after_fresh archive _ calls)
  · intro hgoing
    rw [← htotal]
    exact Session.counts_until_ended hstanding hgoing
  · intro hcounted hgoing
    exact Session.presents_in_window hstanding hcounted hgoing houtputs

/-- Of three stored items the first is renamed, and once more in vain; the second gets other data,
and one more item is added.  The finished archive has the third item, then the first one's data as
`z`, the other data as `b` and the added item `n`. -/
theorem serves_untouched_then_brought_renamed_replaced_added :
    let archive : MemoryArchive := ⟨[⟨"a", some [1], default, 32⟩, ⟨"b", some [2], default, 32⟩,
      ⟨"c", some [3], default, 32⟩], 0⟩
    let h : Host := ⟨⟨.empty, [], []⟩, [], default⟩
    let calls : List Call := [⟨h, .renameItem ⟨0⟩ "z"⟩, ⟨h, .renameItem ⟨0⟩ "y"⟩,
      ⟨h, .replaceBuffer ⟨1⟩ [9]⟩, ⟨h, .add (.buffer [7] "n")⟩]
    let v : Updater MemoryArchive Silent := (fresh archive {}).after calls
    ∃ (s : Session MemoryArchive Silent) (z b n : ItemPath),
      Session.start v.archive h v.items v.runDeletions v.options.reporter = .ok s ∧
      z.text = "z" ∧ b.text = "b" ∧ n.text = "n" ∧
      let now := s.after [.ask .countItems]
      now.AnswersKept ⟨0⟩ ⟨2⟩ ∧ now.GivesData ⟨0⟩ (.ok (some ⟨[3], none⟩)) ∧
      now.AnswersNew ⟨1⟩ ⟨z, .renamed ⟨0⟩⟩ ∧ now.GivesData ⟨1⟩ (.ok (some ⟨[1], none⟩)) ∧
      now.AnswersNew ⟨2⟩ ⟨b, .buffer ⟨[9], default⟩⟩ ∧
      now.GivesData ⟨2⟩ (.ok (some ⟨[9], none⟩)) ∧
      now.AnswersNew ⟨3⟩ ⟨n, .buffer ⟨[7], default⟩⟩ ∧
      now.GivesData ⟨3⟩ (.ok (some ⟨[7], none⟩)) := by
  intro archive h calls v
  obtain ⟨news, s, hbring, hs, hserve⟩ :=
    serves_untouched_then_brought (ρ := Silent) archive {} calls h
  have haccepted : (fresh archive ({} : UpdateOptions Silent)).accepted calls =
      [⟨h, .renameItem ⟨0⟩ "z"⟩, ⟨h, .replaceBuffer ⟨1⟩ [9]⟩, ⟨h, .add (.buffer [7] "n")⟩] := by cbv
  have hkept : untouched archive [⟨h, .renameItem ⟨0⟩ "z"⟩, ⟨h, .replaceBuffer ⟨1⟩ [9]⟩,
      ⟨h, .add (.buffer [7] "n")⟩] = [⟨2⟩] := by
    have hindices : Archive.indices archive = [⟨0⟩, ⟨1⟩, ⟨2⟩] := rfl
    simp [untouched, hindices, Call.Removes, Change.Removes]
  rw [haccepted, hkept] at hserve
  rw [haccepted] at hbring
  rcases hbring with _ | ⟨⟨z, hz, rfl⟩, _ | ⟨⟨b, hb, rfl⟩, _ | ⟨hadd, ⟨⟩⟩⟩⟩
  obtain ⟨n, hn, rfl⟩ := Addition.items_buffer hadd
  have hcount : (s.answer .countItems).1 = .ok 4 := by
    refine (hserve []).2.1 ?_
    rintro ⟨e, he, -⟩
    cases he
  obtain ⟨⟨opened, hopened⟩, -, hwindow⟩ := hserve [.ask .countItems]
  have hlog : s.exchanges [.ask .countItems] = [⟨.countItems, .ok 4⟩] := by
    simp only [Session.exchanges, hcount]
  rw [hlog] at hwindow
  obtain ⟨hcounted, hgoing⟩ := window_of_count 4
  obtain ⟨hfirst, hbehind, -⟩ := hwindow hcounted hgoing
  have hstored : ∀ j, Archive.storedData (s.after [.ask .countItems]).archive j =
      Archive.storedData archive j := by
    intro j
    rw [hopened, Archive.storedData, archive.steady.openItem]
    rfl
  simp only [hstored] at hfirst
  have hz' := hbehind 0 ⟨z, .renamed ⟨0⟩⟩ rfl
  have hb' := hbehind 1 ⟨b, .buffer ⟨[9], default⟩⟩ rfl
  have hn' := hbehind 2 ⟨n, .buffer ⟨[7], default⟩⟩ rfl
  simp only [ItemSource.ownData, hstored] at hz' hb' hn'
  have hbtext : b.text = "b" := (Option.some.inj hb).symm
  exact ⟨s, z, b, n, hs, hz, hbtext, ItemPath.parse_eq_ok_iff.1 hn, (hfirst 0 ⟨2⟩ rfl).1,
    (hfirst 0 ⟨2⟩ rfl).2, hz'.1, hz'.2, hb'.1, hb'.2, hn'.1, hn'.2⟩

end Updater

end ArchiveUpdate
