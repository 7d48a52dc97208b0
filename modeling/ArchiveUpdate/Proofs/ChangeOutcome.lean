import ArchiveUpdate.Proofs.Calls
import ArchiveUpdate.Proofs.OpenedArchive

/-!
# A change takes place as a whole or not at all

A change that fails, at whatever point, leaves the updater as it was; one that succeeds only adds to
what was collected before (`change_whole_or_not`).  This rests on the marks of an updater being
marks for as many stored items as its archive has, which holds of an updater through all its life,
runs included, if opening items does not change their number (`count_of_life`).
-/

set_option autoImplicit false

namespace ArchiveUpdate

/-- What was marked before stays marked. -/
theorem Deletions.Extends.contains {d d' : Deletions} {more : StoredIndex → Prop}
    (h : d.Extends d' more) {j : StoredIndex} (hj : d.contains j = true) :
    d'.contains j = true := by
  rw [Deletions.contains_iff] at hj ⊢
  exact (h.mem j).2 (.inl hj)

namespace Updater

variable {α ρ : Type} [Archive α]

/-- Whatever its arguments and the state of the world, a change that fails leaves the updater as it
was, and after one that succeeds the new items from before still stand in front of the others and
whatever was marked before still is. -/
theorem change_whole_or_not {u : Updater α ρ}
    (hcount : u.deletions.count = Archive.itemCount u.archive) (h : Host) (c : Change) :
    (∀ e, (u.change h c).1 = .error e → (u.change h c).2.1 = u) ∧
    ((u.change h c).1 = .ok () →
      u.items <+: (u.change h c).2.1.items ∧
      (u.change h c).2.1.deletions.count = u.deletions.count ∧
      ∀ j, u.deletions.contains j = true → (u.change h c).2.1.deletions.contains j = true) := by
  rcases change_cases hcount h c with ⟨e, h', hchange⟩ | ⟨new, d, h', hchange, -, hremoves, -⟩
  · rw [hchange]
    exact ⟨fun _ _ => rfl, nofun⟩
  · rw [hchange]
    refine ⟨nofun, fun _ => ⟨List.prefix_append u.items new, hremoves.count, ?_⟩⟩
    intro j hj
    exact hremoves.contains hj

/-- A stored item that is marked already cannot be renamed, and trying changes nothing. -/
theorem change_whole_or_not_marked_item :
    let archive : MemoryArchive := ⟨[⟨"a", some [1], default, 32⟩], 0⟩
    let h : Host := ⟨⟨.empty, [], []⟩, [], default⟩
    let u : Updater MemoryArchive Statistics :=
      { archive, deletions := ⟨1, [0], by decide, by decide⟩ }
    u.deletions.count = Archive.itemCount u.archive ∧
      (u.change h (.renameItem ⟨0⟩ "b")).1 = .error (.itemRemoved 0) ∧
      (u.change h (.renameItem ⟨0⟩ "b")).2.1 = u := by
  intro archive h u
  have hcount : u.deletions.count = Archive.itemCount u.archive := rfl
  have hfails : (u.change h (.renameItem ⟨0⟩ "b")).1 = .error (.itemRemoved 0) := rfl
  exact ⟨hcount, hfails, (change_whole_or_not hcount h (.renameItem ⟨0⟩ "b")).1 _ hfails⟩

/-- What can become of an updater: changes are called for, its options are replaced, and engines run
over what it describes. -/
inductive Life [Reporter ρ] : Updater α ρ → Prop
  | fresh (archive : α) (options : UpdateOptions ρ) : Life (.fresh archive options)
  | change {u : Updater α ρ} (h : Host) (c : Change) : Life u → Life (u.change h c).2.1
  | options {u : Updater α ρ} (options : UpdateOptions ρ) : Life u → Life { u with options }
  | run {u : Updater α ρ} {β : Type} (h : Host) (engine : Engine (Except UpdateError Unit × β)) :
      Life u → Life (u.compress h engine).updater

/-- No change touches the archive or the number of items that can be marked. -/
theorem archive_change {u : Updater α ρ}
    (hcount : u.deletions.count = Archive.itemCount u.archive) (h : Host) (c : Change) :
    (u.change h c).2.1.archive = u.archive ∧
      (u.change h c).2.1.deletions.count = u.deletions.count := by
  rcases change_cases hcount h c with ⟨e, h', hchange⟩ | ⟨new, d, h', hchange, -, hremoves, -⟩
  · rw [hchange]
    exact ⟨rfl, rfl⟩
  · rw [hchange]
    exact ⟨rfl, hremoves.count⟩

/-- A run leaves the marks alone and does no more to the archive than open its items. -/
theorem archive_compress [Reporter ρ] {β : Type} (u : Updater α ρ) (h : Host)
    (engine : Engine (Except UpdateError Unit × β)) :
    (u.compress h engine).updater.deletions = u.deletions ∧
      ∃ is, (u.compress h engine).updater.archive = Archive.opening u.archive is := by
  cases hstart : Session.start u.archive h u.items u.runDeletions u.options.reporter with
  | error e =>
    simp only [compress, hstart]
    exact ⟨trivial, [], rfl⟩
  | ok s =>
    obtain ⟨-, hs⟩ := Session.start_eq_ok_iff.1 hstart
    have harchive : s.archive = u.archive := by
      rw [hs]
    obtain ⟨is, hrun⟩ := engine.archive_run s
    simp only [compress, hstart]
    refine ⟨trivial, is, ?_⟩
    rw [← harchive, ← hrun]
    exact Session.archive_release _

/-- If opening one item does not change their number, opening several does not either. -/
theorem itemCount_opening (hconst : ∀ (a : α) i,
    Archive.itemCount (Archive.openItem a i).2 = Archive.itemCount a) (a : α)
    (is : List StoredIndex) : Archive.itemCount (Archive.opening a is) = Archive.itemCount a := by
  induction is generalizing a with
  | nil => rfl
  | cons i is ih => exact (ih _).trans (hconst a i)

/-- All its life an updater has marks for as many stored items as its archive has. -/
theorem count_of_life [Reporter ρ] (hconst : ∀ (a : α) i,
    Archive.itemCount (Archive.openItem a i).2 = Archive.itemCount a) {u : Updater α ρ}
    (hu : Life u) : u.deletions.count = Archive.itemCount u.archive := by
  induction hu with
  | fresh archive options => rfl
  | change h c _ ih =>
    obtain ⟨harchive, hmarks⟩ := archive_change ih h c
    rw [harchive, hmarks]
    exact ih
  | options options _ ih => exact ih
  | @run u β h engine _ ih =>
    obtain ⟨hmarks, is, harchive⟩ := archive_compress u h engine
    rw [harchive, hmarks, itemCount_opening hconst]
    exact ih

end Updater

end ArchiveUpdate
