import ArchiveUpdate.Proofs.ChangeEffects
import ArchiveUpdate.Proofs.RunCourse
import Mathlib.Data.List.Forall2

/-!
# Sequences of changes

Changes are called for one after the other, each in a world of its own, and some of them fail.
What all of them come to is what the accepted ones remove and bring (`after_eq`): the failed ones
leave no trace, and no change looks at what another one did.  A run marks what the updater marks,
and more only if new items overwrite stored ones.
-/

set_option autoImplicit false

namespace ArchiveUpdate

/-- A call for a change, in the world as it is then. -/
structure Call where
  host : Host
  change : Change

/-- These are the new items that a call puts into the finished archive. -/
def Call.Brings {α : Type} [Archive α] (a : α) (o : IndexOptions) (call : Call)
    (new : List NewItem) : Prop :=
  call.change.Brings a o call.host new

/-- A call takes a stored item out of the finished archive. -/
def Call.Removes {α : Type} [Archive α] (a : α) (j : StoredIndex) (call : Call) : Prop :=
  call.change.Removes a j

namespace Updater

variable {α ρ : Type} [Archive α]

/-- An updater of an archive with the given options, before any change. -/
def fresh (archive : α) (options : UpdateOptions ρ) : Updater α ρ :=
  { (ofArchive archive : Updater α ρ) with options }

/-- The updater after some calls. -/
def after (u : Updater α ρ) (calls : List Call) : Updater α ρ :=
  calls.foldl (fun u call => (u.change call.host call.change).2.1) u

/-- The calls that succeed. -/
def accepted (u : Updater α ρ) : List Call → List Call
  | [] => []
  | call :: calls =>
    match u.change call.host call.change with
    | (.ok (), u, _) => call :: u.accepted calls
    | (.error _, u, _) => u.accepted calls

/-- Calls come to what the accepted ones remove and bring, in the order of the calls. -/
theorem after_eq {u : Updater α ρ} (hcount : u.deletions.count = Archive.itemCount u.archive)
    (calls : List Call) :
    ∃ (news : List (List NewItem)) (d : Deletions),
      u.after calls = { u with items := u.items ++ news.flatten, deletions := d } ∧
      List.Forall₂ (Call.Brings u.archive u.options.index) (u.accepted calls) news ∧
      u.deletions.Extends d fun j => ∃ call ∈ u.accepted calls, call.Removes u.archive j := by
  induction calls generalizing u with
  | nil => exact ⟨[], u.deletions, by simp [after], .nil, .refl _ (by simp [accepted])⟩
  | cons call calls ih =>
    have hafter : u.after (call :: calls) = (u.change call.host call.change).2.1.after calls := rfl
    rw [hafter, accepted]
    rcases change_cases hcount call.host call.change with
      ⟨e, h', hchange⟩ | ⟨new, d, h', hchange, hbrings, hremoves, -⟩
    · rw [hchange]
      exact ih hcount
    · rw [hchange]
      obtain ⟨news, d', hrest, hbring, hmore⟩ :=
        ih (u := { u with items := u.items ++ new, deletions := d }) (hremoves.count.trans hcount)
      refine ⟨new :: news, d', ?_, .cons hbrings hbring, (hremoves.trans hmore).congr fun j => ?_⟩
      · rw [hrest, List.flatten_cons, List.append_assoc]
      · simp only [List.mem_cons, exists_eq_or_imp]
        rfl

/-- Calls on a fresh updater leave what the accepted ones bring and mark what they remove. -/
theorem after_fresh (archive : α) (options : UpdateOptions ρ) (calls : List Call) :
    ∃ (news : List (List NewItem)) (d : Deletions),
      (fresh archive options).after calls =
        { fresh archive options with items := news.flatten, deletions := d } ∧
      List.Forall₂ (Call.Brings archive options.index) ((fresh archive options).accepted calls)
        news ∧
      d.count = Archive.itemCount archive ∧
      ∀ j : StoredIndex, j.val ∈ d.members ↔
        ∃ call ∈ (fresh archive options).accepted calls, call.Removes archive j := by
  obtain ⟨news, d, hafter, hbring, hremoves⟩ :=
    after_eq (u := fresh archive options) rfl calls
  refine ⟨news, d, ?_, hbring, hremoves.count, fun j => ?_⟩
  · rw [hafter]
    rfl
  · rw [hremoves.mem]
    exact or_iff_right List.not_mem_nil

/-- No call touches the archive. -/
theorem archive_after_fresh (archive : α) (options : UpdateOptions ρ) (calls : List Call) :
    ((fresh archive options).after calls).archive = archive := by
  obtain ⟨news, d, hafter, -, -, -⟩ := after_fresh archive options calls
  rw [hafter]
  rfl

/-- A run marks what the updater marks and, when new items overwrite stored ones, those that share
a path with one of them. -/
theorem extends_runDeletions (u : Updater α ρ) :
    u.deletions.Extends u.runDeletions fun j =>
      u.options.mode = .overwrite ∧ j ∈ u.shadowed ∧ j.val < u.deletions.count := by
  unfold runDeletions
  cases u.options.mode with
  | append => exact .refl _ (by simp)
  | overwrite =>
    by_cases hempty : u.items.isEmpty
    · simp only [if_pos hempty]
      refine .refl _ fun j hj => ?_
      have hitems : u.items = [] := List.isEmpty_iff.1 hempty
      simp [shadowed, hitems] at hj
    · simp only [if_neg hempty]
      exact (u.deletions.extends_insertAll _).congr fun j => by simp

/-- The marks of a run are marks for as many stored items as the archive has. -/
theorem count_runDeletions (archive : α) (options : UpdateOptions ρ) (calls : List Call) :
    ((fresh archive options).after calls).runDeletions.count = Archive.itemCount archive := by
  obtain ⟨news, d, hafter, -, hcount, -⟩ := after_fresh archive options calls
  rw [(extends_runDeletions _).count, hafter]
  exact hcount

/-- Whatever was called for, a run can begin. -/
theorem start_after (archive : α) (options : UpdateOptions ρ) (calls : List Call) (h : Host) :
    let v := (fresh archive options).after calls
    Session.start v.archive h v.items v.runDeletions v.options.reporter =
      .ok { archive := v.archive, host := h, items := v.items, deletions := v.runDeletions,
            reporter := v.options.reporter } := by
  intro v
  have hcount : v.runDeletions.count = Archive.itemCount v.archive := by
    rw [count_runDeletions, archive_after_fresh]
  exact Session.start_eq_ok_iff.2 ⟨hcount, rfl⟩

end Updater

end ArchiveUpdate
