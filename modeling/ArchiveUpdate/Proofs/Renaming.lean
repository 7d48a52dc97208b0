import ArchiveUpdate.Proofs.Calls
import ArchiveUpdate.Proofs.RunWindow

/-!
# A stored item stands in one place

A stored item comes into the finished archive as itself, if it is unmarked, or as a new item that
renames it.  The invariant of the updater (`Consistent`) is that what new items rename is marked and
is renamed once: a change renames only what was unmarked before and marks it, and marks stay.  Since
a run marks no less than the updater, no stored item stands at two output positions
(`stored_items_served_once`).
-/

set_option autoImplicit false

namespace ArchiveUpdate

/-- The stored items that the items of a list rename. -/
def renamedBy (items : List NewItem) : List StoredIndex := items.filterMap (·.source.renamed?)

/-- What two lists of items rename is what the first renames and then what the second does. -/
theorem renamedBy_append (items new : List NewItem) :
    renamedBy (items ++ new) = renamedBy items ++ renamedBy new := List.filterMap_append

/-- A source renames a stored item only by being that item. -/
theorem renamed?_eq_some_iff {source : ItemSource} {j : StoredIndex} :
    source.renamed? = some j ↔ source = .renamed j := by
  cases source <;> simp [ItemSource.renamed?]

/-- A stored item is renamed by a list of items if it is the source of one of them. -/
theorem mem_renamedBy {items : List NewItem} {j : StoredIndex} :
    j ∈ renamedBy items ↔ ∃ item ∈ items, item.source = .renamed j := by
  unfold renamedBy
  simp only [List.mem_filterMap, renamed?_eq_some_iff]

namespace Addition

/-- What is indexed on disk renames nothing. -/
theorem renamedBy_ofListing (l : Listing) : renamedBy (ofListing l) = [] := by
  unfold renamedBy ofListing
  rw [List.filterMap_map, List.filterMap_eq_nil_iff]
  rintro ⟨path, item⟩ -
  rfl

/-- What is indexed on disk, if that succeeds, renames nothing. -/
theorem renamedBy_map_ofListing {answer : Except UpdateError Listing} {new : List NewItem}
    (h : answer.map ofListing = .ok new) : renamedBy new = [] := by
  cases answer with
  | error e => cases h
  | ok l =>
    cases h
    exact renamedBy_ofListing l

/-- Nothing that is added renames a stored item. -/
theorem renamedBy_items {addition : Addition} {o : IndexOptions} {h : Host} {new : List NewItem}
    (hitems : (addition.items o h).1 = .ok new) : renamedBy new = [] := by
  cases addition with
  | file path name =>
    obtain ⟨p, item, -, -, rfl⟩ := items_file hitems
    rfl
  | buffer data name =>
    obtain ⟨p, -, rfl⟩ := items_buffer hitems
    rfl
  | stream id name =>
    obtain ⟨p, item, -, -, rfl⟩ := items_stream hitems
    rfl
  | directory path => exact renamedBy_map_ofListing hitems
  | files path filter => exact renamedBy_map_ofListing hitems
  | paths ps => exact renamedBy_map_ofListing hitems
  | pathsAs places => exact renamedBy_map_ofListing hitems

end Addition

namespace Change

variable {α : Type} [Archive α] {a : α} {o : IndexOptions} {h : Host} {new : List NewItem}

/-- A change brings a renamed item exactly if it renames, and then nothing besides. -/
theorem renamedBy_of_brings {c : Change} (hbrings : c.Brings a o h new) :
    (∃ (j : StoredIndex) (p : ItemPath), c.Renames a j p.text ∧ new = [⟨p, .renamed j⟩]) ∨
      renamedBy new = [] ∧ ∀ j p, ¬c.Renames a j p := by
  cases c with
  | add addition => exact .inr ⟨Addition.renamedBy_items hbrings, fun j p => id⟩
  | deleteItem i policy =>
    cases hbrings
    exact .inr ⟨rfl, fun j p => id⟩
  | deletePath path policy =>
    cases hbrings
    exact .inr ⟨rfl, fun j p => id⟩
  | renameItem i path =>
    obtain ⟨p, htext, rfl⟩ := hbrings
    exact .inl ⟨i, p, ⟨rfl, htext⟩, rfl⟩
  | renamePath old path =>
    obtain ⟨i, p, hfirst, htext, rfl⟩ := hbrings
    exact .inl ⟨i, p, ⟨hfirst, htext⟩, rfl⟩
  | replaceBuffer i data =>
    obtain ⟨p, -, rfl⟩ := hbrings
    exact .inr ⟨rfl, fun j p => id⟩
  | replaceFile i path =>
    obtain ⟨p, item, -, -, rfl⟩ := hbrings
    exact .inr ⟨rfl, fun j p => id⟩
  | replaceStream i id =>
    obtain ⟨p, item, -, -, rfl⟩ := hbrings
    exact .inr ⟨rfl, fun j p h => h⟩

/-- The items that a change brings rename what the change renames, under the same path. -/
theorem renames_iff_of_brings {c : Change} (hbrings : c.Brings a o h new) (j : StoredIndex)
    (path : String) :
    c.Renames a j path ↔ ∃ item ∈ new, item.source = .renamed j ∧ item.path.text = path := by
  rcases renamedBy_of_brings hbrings with ⟨i, p, hrenames, rfl⟩ | ⟨hnone, hnot⟩
  · simp only [List.mem_singleton, exists_eq_left, ItemSource.renamed.injEq]
    constructor
    · intro h
      exact hrenames.unique h
    · rintro ⟨rfl, rfl⟩
      exact hrenames
  · refine iff_of_false (hnot j path) ?_
    rintro ⟨item, hitem, hsource, -⟩
    have hmem := mem_renamedBy.2 ⟨item, hitem, hsource⟩
    rw [hnone] at hmem
    cases hmem

end Change

/-- One of the calls gives a stored item this path. -/
def Renamed {α : Type} [Archive α] (a : α) (calls : List Call) (j : StoredIndex)
    (path : String) : Prop :=
  ∃ call ∈ calls, call.change.Renames a j path

namespace Updater

variable {α ρ : Type} [Archive α]

/-- What the new items rename is marked, and renamed once. -/
structure Consistent (u : Updater α ρ) : Prop where
  count : u.deletions.count = Archive.itemCount u.archive
  marked : ∀ j ∈ renamedBy u.items, j.val ∈ u.deletions.members
  once : (renamedBy u.items).Nodup

/-- An updater without any calls is consistent. -/
theorem consistent_fresh (archive : α) (options : UpdateOptions ρ) :
    (fresh archive options).Consistent :=
  ⟨rfl, fun _ hj => absurd hj List.not_mem_nil, List.Pairwise.nil⟩

/-- A change renames only what was unmarked, so that it was not renamed before. -/
theorem Consistent.change {u : Updater α ρ} (hu : u.Consistent) (h : Host) (c : Change) :
    (u.change h c).2.1.Consistent := by
  rcases change_cases hu.count h c with
    ⟨e, h', hchange⟩ | ⟨new, d, h', hchange, hbrings, hremoves, hfresh⟩
  · rw [hchange]
    exact hu
  · rw [hchange]
    have hmarks : ∀ j ∈ renamedBy u.items, j.val ∈ d.members := fun j hj =>
      (hremoves.mem j).2 (.inl (hu.marked j hj))
    rcases Change.renamedBy_of_brings hbrings with ⟨j, p, hrenames, rfl⟩ | ⟨hnone, -⟩
    · have hrenamed : renamedBy (u.items ++ [⟨p, .renamed j⟩]) = renamedBy u.items ++ [j] :=
        renamedBy_append _ _
      refine ⟨hremoves.count.trans hu.count, ?_, ?_⟩
      · intro i hi
        rw [hrenamed, List.mem_append, List.mem_singleton] at hi
        rcases hi with hi | rfl
        · exact hmarks i hi
        · exact (hremoves.mem i).2 (.inr hrenames.removes)
      · rw [hrenamed]
        refine List.nodup_append.2 ⟨hu.once, List.pairwise_singleton _ j, fun i hi i' hi' heq => ?_⟩
        rw [List.mem_singleton] at hi'
        rw [heq, hi'] at hi
        exact hfresh j _ hrenames (hu.marked j hi)
    · have hrenamed : renamedBy (u.items ++ new) = renamedBy u.items := by
        rw [renamedBy_append, hnone, List.append_nil]
      refine ⟨hremoves.count.trans hu.count, ?_, ?_⟩
      · rw [hrenamed]
        exact hmarks
      · rw [hrenamed]
        exact hu.once

/-- Calls leave an updater consistent. -/
theorem Consistent.after {u : Updater α ρ} (hu : u.Consistent) (calls : List Call) :
    (u.after calls).Consistent := by
  induction calls generalizing u with
  | nil => exact hu
  | cons call calls ih => exact ih (hu.change call.host call.change)

/-- A call gives a stored item a path exactly if the calls bring an item with that path and that
source. -/
theorem renamed_iff_of_brings {a : α} {o : IndexOptions} {calls : List Call}
    {news : List (List NewItem)} (hbring : List.Forall₂ (Call.Brings a o) calls news)
    (j : StoredIndex) (path : String) :
    Renamed a calls j path ↔
      ∃ item ∈ news.flatten, item.source = .renamed j ∧ item.path.text = path := by
  unfold Renamed
  induction hbring with
  | nil => simp
  | cons hbrings hrest ih =>
    rw [List.exists_mem_cons_iff, ih, Change.renames_iff_of_brings hbrings, List.flatten_cons]
    simp only [List.mem_append, or_and_right, exists_or]

/-- The renamed items among the new ones are those of the accepted calls that rename. -/
theorem renamed_iff (archive : α) (options : UpdateOptions ρ) (calls : List Call)
    (j : StoredIndex) (path : String) :
    Renamed archive ((fresh archive options).accepted calls) j path ↔
      ∃ item ∈ ((fresh archive options).after calls).items,
        item.source = .renamed j ∧ item.path.text = path := by
  obtain ⟨news, d, hafter, hbring, -, -⟩ := after_fresh archive options calls
  rw [hafter]
  exact renamed_iff_of_brings hbring j path

/-- Accepted calls give a stored item a path exactly if it is renamed by the items in the end. -/
theorem exists_renamed_iff (archive : α) (options : UpdateOptions ρ) (calls : List Call)
    (j : StoredIndex) :
    (∃ path, Renamed archive ((fresh archive options).accepted calls) j path) ↔
      j ∈ renamedBy ((fresh archive options).after calls).items := by
  simp only [renamed_iff, mem_renamedBy]
  constructor
  · rintro ⟨path, item, hmem, hsource, -⟩
    exact ⟨item, hmem, hsource⟩
  · rintro ⟨item, hmem, hsource⟩
    exact ⟨item.path.text, item, hmem, hsource, rfl⟩

end Updater

namespace Session

variable {α ρ : Type}

/-- The stored items behind the output positions, where there is one. -/
theorem filterMap_stored?_outputs (s : Session α ρ) :
    s.outputs.filterMap OutputItem.stored? = s.deletions.survivors ++ renamedBy s.items := by
  unfold outputs renamedBy
  rw [List.filterMap_append, List.filterMap_map, List.filterMap_map]
  congr 1
  exact List.filterMap_some

/-- Where renamed items are marked and renamed once, no stored item is behind two positions. -/
theorem nodup_stored {s : Session α ρ}
    (hmarked : ∀ j ∈ renamedBy s.items, j.val ∈ s.deletions.members)
    (honce : (renamedBy s.items).Nodup) : (s.outputs.filterMap OutputItem.stored?).Nodup := by
  rw [filterMap_stored?_outputs, List.nodup_append]
  refine ⟨s.deletions.nodup_survivors, honce, fun j hj j' hj' heq => ?_⟩
  have hunmarked := (Deletions.mem_survivors.1 hj).2
  exact hunmarked (heq ▸ hmarked j' hj')

section

variable {s : Session α ρ} {j : StoredIndex}

variable [Archive α] [Reporter ρ]

/-- The answer for an output position is that it comes from a stored item. -/
def ComesFrom (s : Session α ρ) (i : OutputIndex) (j : StoredIndex) : Prop :=
  (s.answer (.storedIndex i)).1 = .ok (some j)

/-- An output position comes from the stored item that its item is. -/
theorem comesFrom_iff (hserves : s.Serves s.outputs) {i : OutputIndex} :
    s.ComesFrom i j ↔ ∃ item, s.outputs[i.val]? = some item ∧ item.stored? = some j := by
  rw [ComesFrom, hserves.storedIndex, answerAt_eq_ok_iff]

/-- Some output position comes from a stored item exactly if that is renamed or survives. -/
theorem exists_comesFrom_iff (hserves : s.Serves s.outputs) :
    (∃ i, s.ComesFrom i j) ↔ j ∈ renamedBy s.items ∨ j ∈ s.deletions.survivors := by
  rw [or_comm, ← List.mem_append, ← filterMap_stored?_outputs, List.mem_filterMap]
  simp only [comesFrom_iff hserves]
  constructor
  · rintro ⟨i, item, hi, hitem⟩
    exact ⟨item, List.mem_of_getElem? hi, hitem⟩
  · rintro ⟨item, hmem, hitem⟩
    obtain ⟨i, hi⟩ := List.mem_iff_getElem?.1 hmem
    exact ⟨⟨i⟩, item, hi, hitem⟩

/-- Two output positions that come from one stored item are one, if no item is served twice. -/
theorem comesFrom_inj (hserves : s.Serves s.outputs)
    (hnodup : (s.outputs.filterMap OutputItem.stored?).Nodup) {i i' : OutputIndex}
    (hi : s.ComesFrom i j) (hi' : s.ComesFrom i' j) : i = i' := by
  obtain ⟨item, hat, hitem⟩ := (comesFrom_iff hserves).1 hi
  obtain ⟨item', hat', hitem'⟩ := (comesFrom_iff hserves).1 hi'
  have hval : i.val = i'.val := eq_of_nodup_filterMap hnodup hat hat' hitem hitem'
  cases i
  cases i'
  exact congrArg OutputIndex.mk hval

/-- A position that comes from a stored item that a new item renames holds that new item. -/
theorem renamed_at (hserves : s.Serves s.outputs)
    (hnodup : (s.outputs.filterMap OutputItem.stored?).Nodup) {i : OutputIndex}
    (hi : s.ComesFrom i j) {item : NewItem} (hmem : item ∈ s.items)
    (hsource : item.source = .renamed j) : s.outputs[i.val]? = some (.added item) := by
  have hout : OutputItem.added item ∈ s.outputs :=
    List.mem_append_right _ (List.mem_map_of_mem hmem)
  obtain ⟨i', hi'⟩ := List.mem_iff_getElem?.1 hout
  obtain ⟨item', hat, hitem'⟩ := (comesFrom_iff hserves).1 hi
  have hstored : (OutputItem.added item).stored? = some j := renamed?_eq_some_iff.2 hsource
  rw [eq_of_nodup_filterMap hnodup hat hi' hitem' hstored]
  exact hi'

/-- An output position is only told to come from a stored item between a count and the outcome. -/
theorem window_of_comesFrom {log : List Exchange} (hs : s.Standing log) {i : OutputIndex}
    (hi : s.ComesFrom i j) : Counted log ∧ ¬Ended log := by
  apply window_of_accepted hs (q := .storedIndex i) rfl
  unfold ComesFrom at hi
  rw [hi]
  rfl

end

end Session

namespace Updater

variable {α ρ : Type} [Archive α] [Reporter ρ]

/-- Whatever was called for, with or without success, and whether new items overwrite stored ones or
not: what new items rename is marked and renamed once, and in no run do two output positions come
from one stored item.  While a run answers, a stored item is behind exactly one position if an
accepted call renamed it, which is then that of the renamed item, or if the run does not mark it;
otherwise it is behind none. -/
theorem stored_items_served_once (archive : α) (options : UpdateOptions ρ) (calls : List Call)
    (h : Host) :
    let u := fresh archive options
    let v := u.after calls
    let Stands := fun j : StoredIndex => (∃ path, Renamed archive (u.accepted calls) j path) ∨
      j.val < Archive.itemCount archive ∧ j.val ∉ v.runDeletions.members
    (∀ j ∈ renamedBy v.items, j.val ∈ v.deletions.members) ∧
    (renamedBy v.items).Nodup ∧
    ∃ s : Session α ρ,
      Session.start v.archive h v.items v.runDeletions v.options.reporter = .ok s ∧
      ∀ course : List RunEvent,
        let log := s.exchanges course
        let now := s.after course
        (∀ i i' j, now.ComesFrom i j → now.ComesFrom i' j → i = i') ∧
        (∀ i j, now.ComesFrom i j → Stands j) ∧
        (Counted log → ¬Ended log → ∀ j, Stands j → ∃! i, now.ComesFrom i j) ∧
        ∀ j path, Renamed archive (u.accepted calls) j path → ∀ i, now.ComesFrom i j →
          (now.answer (.property i .path)).1 = .ok (.string path) ∧
          (now.answer (.hasNewProperties i)).1 = .ok true := by
  intro u v Stands
  have hv : v.Consistent := (consistent_fresh archive options).after calls
  have hruns := extends_runDeletions v
  have hcount : v.runDeletions.count = Archive.itemCount archive :=
    count_runDeletions archive options calls
  have hstands : ∀ j, Stands j ↔ j ∈ renamedBy v.items ∨ j ∈ v.runDeletions.survivors := by
    intro j
    rw [Deletions.mem_survivors, hcount, ← exists_renamed_iff]
  have hstart := start_after archive options calls h
  refine ⟨hv.marked, hv.once, _, hstart, ?_⟩
  intro course log now
  have hstanding : now.Standing log :=
    Session.standing_after (Session.standing_start hstart) course
  obtain ⟨hitems, hmarks⟩ : now.items = v.items ∧ now.deletions = v.runDeletions :=
    Session.items_after _ course
  have hserves : ∀ i j, now.ComesFrom i j → now.Serves now.outputs := by
    intro i j hi
    obtain ⟨hcounted, hgoing⟩ := Session.window_of_comesFrom hstanding hi
    exact Session.serves_in_window hstanding hcounted hgoing
  -- the marks of the run are no fewer than those that the invariant is about
  have hnodup : (now.outputs.filterMap OutputItem.stored?).Nodup := by
    apply Session.nodup_stored
    · intro j hj
      rw [hitems] at hj
      rw [hmarks, hruns.mem]
      exact .inl (hv.marked j hj)
    · rw [hitems]
      exact hv.once
  refine ⟨?_, ?_, ?_, ?_⟩
  · intro i i' j hi hi'
    exact Session.comesFrom_inj (hserves i j hi) hnodup hi hi'
  · intro i j hi
    rw [hstands, ← hitems, ← hmarks]
    exact (Session.exists_comesFrom_iff (hserves i j hi)).1 ⟨i, hi⟩
  · intro hcounted hgoing j hj
    have hopen := Session.serves_in_window hstanding hcounted hgoing
    rw [hstands, ← hitems, ← hmarks] at hj
    obtain ⟨i, hi⟩ := (Session.exists_comesFrom_iff hopen).2 hj
    exact ⟨i, hi, fun i' hi' => Session.comesFrom_inj hopen hnodup hi' hi⟩
  · intro j path hj i hi
    obtain ⟨item, hmem, hsource, rfl⟩ := (renamed_iff archive options calls j path).1 hj
    have hopen := hserves i j hi
    have hat := Session.renamed_at hopen hnodup hi (hitems ▸ hmem) hsource
    rw [hopen.property, hopen.hasNewProperties]
    constructor
    · exact Session.answerAt_eq_ok_iff.2 ⟨_, hat, rfl⟩
    · exact Session.answerAt_eq_ok_iff.2 ⟨_, hat, rfl⟩

end Updater

end ArchiveUpdate
