import ArchiveUpdate.Proofs.DataRequests
import ArchiveUpdate.Run.Engine

/-!
# What a run does to the stored archive

The only thing that ever happens to a stored archive is that its items are opened, one after the
other; `Archive.opening` is the archive after that.  Whatever an engine asks, it ends with such an
archive (`archive_run`).
-/

set_option autoImplicit false

namespace ArchiveUpdate

namespace Archive

variable {α : Type} [Archive α]

/-- The archive after these items were opened, in this order. -/
def opening (a : α) (is : List StoredIndex) : α := is.foldl (fun a i => (openItem a i).2) a

/-- Opening items in two rounds is opening all of them in one. -/
theorem opening_append (a : α) (is is' : List StoredIndex) :
    opening a (is ++ is') = opening (opening a is) is' := List.foldl_append

/-- Opening items changes none of the archive's answers. -/
structure Steady (a : α) : Prop where
  property : ∀ is i kind, Archive.property (opening a is) i kind = Archive.property a i kind
  openItem : ∀ is i, (Archive.openItem (opening a is) i).1 = (Archive.openItem a i).1

end Archive

namespace MemoryArchive

/-- An archive of decoded items keeps them however often they are opened. -/
theorem entries_opening (a : MemoryArchive) (is : List StoredIndex) :
    (Archive.opening a is).entries = a.entries := by
  induction is generalizing a with
  | nil => rfl
  | cons i is ih =>
    have hone : (Archive.openItem a i).2.entries = a.entries := by
      simp only [Archive.openItem]
      split <;> rfl
    exact (ih _).trans hone

/-- An archive of decoded items does no more than count how often they are opened. -/
theorem steady (a : MemoryArchive) : Archive.Steady a := by
  constructor
  · intro is i kind
    simp only [Archive.property, entries_opening]
  · intro is i
    simp only [Archive.openItem, entries_opening]
    split <;> rfl

end MemoryArchive

namespace OutputItem

variable {α : Type} [Archive α]

/-- Opening the data of an item does to the archive what opening the stored item behind it does, if
there is one. -/
theorem archive_openData (item : OutputItem) (a : α) (h : Host) :
    (item.openData a h).2.1 = Archive.opening a item.stored?.toList := by
  cases item with
  | kept j => rfl
  | added new =>
    obtain ⟨path, source⟩ := new
    cases source <;> rfl

variable {a : α}

/-- The properties of an item do not depend on what was opened, if the archive's answers do not. -/
theorem property_opening (hsteady : Archive.Steady a) (item : OutputItem) (is : List StoredIndex)
    (kind : PropertyKind) : item.property (Archive.opening a is) kind = item.property a kind := by
  cases item with
  | kept j => simp only [property, hsteady.property]
  | added new =>
    obtain ⟨path, source⟩ := new
    cases source <;> cases kind <;>
      simp only [property, NewItem.property, ItemSource.property, hsteady.property]

/-- Nor does the path that it is shown under. -/
theorem path_opening (hsteady : Archive.Steady a) (item : OutputItem) (is : List StoredIndex) :
    item.path (Archive.opening a is) = item.path a := by
  cases item with
  | kept j => simp only [path, Archive.path?, hsteady.property]
  | added new => rfl

end OutputItem

namespace Session

variable {α ρ : Type} [Archive α] [Reporter ρ]

/-- Opening the source of a position opens the stored item behind it, if there is one. -/
theorem archive_openSource (s : Session α ρ) (i : OutputIndex) (item : OutputItem) :
    (s.openSource i item).2.archive = Archive.opening s.archive item.stored?.toList := by
  rw [← item.archive_openData s.archive s.host]
  simp only [openSource, tell]
  split <;> simp_all

/-- No request does more to the archive than open some of its items. -/
theorem archive_answer (s : Session α ρ) (q : Request) :
    ∃ is, (s.answer q).2.archive = Archive.opening s.archive is := by
  by_cases hdata : ∃ i, q = .data i
  · obtain ⟨i, rfl⟩ := hdata
    rcases s.answer_data_cases i with ⟨e, h⟩ | h | h | ⟨item, h⟩
    · rw [h]
      exact ⟨[], s.archive_release⟩
    · rw [h]
      exact ⟨[], s.archive_asked⟩
    · rw [h]
      exact ⟨[], s.archive_asked⟩
    · rw [h, archive_openSource, archive_asked]
      exact ⟨_, rfl⟩
  · exact ⟨[], (answer_of_ne_data (not_exists.1 hdata)).1⟩

/-- Nor does a course of requests, whatever happens to the world meanwhile. -/
theorem archive_after (s : Session α ρ) (course : List RunEvent) :
    ∃ is, (s.after course).archive = Archive.opening s.archive is := by
  induction course using List.reverseRecOn with
  | nil => exact ⟨[], rfl⟩
  | append_singleton course event ih =>
    obtain ⟨is, his⟩ := ih
    rw [after_concat]
    cases event with
    | world h => exact ⟨is, his⟩
    | ask q =>
      obtain ⟨is', his'⟩ := (s.after course).archive_answer q
      refine ⟨is ++ is', ?_⟩
      rw [Archive.opening_append, ← his]
      exact his'

end Session

namespace Engine

variable {α ρ β : Type} [Archive α] [Reporter ρ]

/-- Nor does an engine, whatever it asks. -/
theorem archive_run (engine : Engine β) (s : Session α ρ) :
    ∃ is, (engine.run s).2.archive = Archive.opening s.archive is := by
  induction engine generalizing s with
  | done result => exact ⟨[], rfl⟩
  | ask q next ih =>
    obtain ⟨is, hfirst⟩ := s.archive_answer q
    obtain ⟨is', hrest⟩ := ih (s.answer q).1 (s.answer q).2
    refine ⟨is ++ is', ?_⟩
    rw [Archive.opening_append, ← hfirst, ← hrest]
    rfl

end Engine

end ArchiveUpdate
