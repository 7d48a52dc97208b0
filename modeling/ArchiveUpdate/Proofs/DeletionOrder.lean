import ArchiveUpdate.Proofs.DeletionByPath

/-!
# Deletions in any order

Deletions are called for one after the other, by item or by path, and some of them fail.  Which item
a call is for, and whether there is one, is read off the archive alone (`DeleteCall.target`), and so
is what it clears away (`DeleteCall.Clears`); no call looks at what is marked already.  Hence the
marks after any number of calls are the marks from before united with what each call clears away
(`deleteAll_eq`), in whatever order they come and however often (`deletions_unite`).
-/

set_option autoImplicit false

namespace ArchiveUpdate

/-- A call that deletes a stored item. -/
inductive DeleteCall where
  | byIndex (i : StoredIndex) (policy : DeletePolicy)
  | byPath (path : String) (policy : DeletePolicy)

namespace DeleteCall

/-- Whether the call is for what lies below a directory, too. -/
def policy : DeleteCall → DeletePolicy
  | .byIndex _ policy => policy
  | .byPath _ policy => policy

variable {α : Type} [Archive α]

/-- The stored item that the call is for, or why there is none. -/
def target (a : α) : DeleteCall → Except UpdateError StoredIndex
  | byIndex i _ =>
    if i.val < Archive.itemCount a then .ok i
    else .error (.indexOutOfRange i.val (Archive.itemCount a))
  | byPath path _ =>
    match Archive.find? a (Change.soughtPath path) with
    | none => .error (.entryNotFound (Change.soughtPath path))
    | some i => .ok i

/-- The answer to the call. -/
def answer (a : α) (c : DeleteCall) : Except UpdateError Unit := (c.target a).map fun _ => ()

/-- The call clears a stored item away: the one that it is for or, if that is a directory and the
call is for what lies below it, too, one of those. -/
def Clears (a : α) (c : DeleteCall) (j : StoredIndex) : Prop :=
  ∃ i, c.target a = .ok i ∧ Archive.Clears a i c.policy j

/-- The call is for a directory with what lies below it, and the other one is for an item there. -/
def Absorbs (a : α) (c below : DeleteCall) : Prop :=
  ∃ i j, c.target a = .ok i ∧ c.policy = .recurseDirs ∧
    Archive.property a i .isDir = .bool true ∧ below.target a = .ok j ∧ Archive.LiesBelow a i j

variable {a : α} {c below : DeleteCall} {i j : StoredIndex}

/-- What a deletion aims at is stored. -/
theorem lt_of_target (h : c.target a = .ok i) : i.val < Archive.itemCount a := by
  cases c with
  | byIndex k policy =>
    simp only [target] at h
    split at h
    · rename_i hk
      cases h
      exact hk
    · cases h
  | byPath path policy =>
    simp only [target] at h
    split at h
    · cases h
    · rename_i hfind
      cases h
      exact (Archive.isFirst_of_find? hfind).lt

/-- A deletion that absorbs another clears away all that the other does. -/
theorem Absorbs.clears (h : c.Absorbs a below) (hj : below.Clears a j) : c.Clears a j := by
  obtain ⟨i, k, hi, hrecurse, hdir, hk, hbelow⟩ := h
  obtain ⟨k', hk', hclears⟩ := hj
  obtain rfl : k = k' := Except.ok.inj (hk.symm.trans hk')
  refine ⟨i, hi, .inr ⟨⟨hrecurse, hdir⟩, ?_⟩⟩
  rcases hclears with rfl | ⟨-, hlt, hdeeper⟩
  · exact ⟨lt_of_target hk, hbelow⟩
  · exact ⟨hlt, hbelow.trans hdeeper⟩

end DeleteCall

namespace Updater

variable {α ρ : Type} [Archive α]

/-- Carries out a deletion. -/
def delete (u : Updater α ρ) : DeleteCall → Except UpdateError Unit × Updater α ρ
  | .byIndex i policy => u.deleteItem i policy
  | .byPath path policy => u.deletePath path policy

/-- Carries out deletions one after the other, with the answers to all of them. -/
def deleteAll (u : Updater α ρ) : List DeleteCall → List (Except UpdateError Unit) × Updater α ρ
  | [] => ([], u)
  | c :: cs =>
    let (answer, u) := u.delete c
    let (answers, u) := u.deleteAll cs
    (answer :: answers, u)

variable {u : Updater α ρ}

/-- A call that is for no item fails, and any other one deletes the item that it is for. -/
theorem delete_eq_of_target (hcount : u.deletions.count = Archive.itemCount u.archive)
    (c : DeleteCall) :
    u.delete c = match c.target u.archive with
      | .error e => (.error e, u)
      | .ok i => u.deleteItem i c.policy := by
  cases c with
  | byIndex i policy =>
    simp only [delete, DeleteCall.target, DeleteCall.policy]
    by_cases hi : i.val < Archive.itemCount u.archive
    · rw [if_pos hi]
    · rw [if_neg hi, ← hcount]
      exact deleteItem_of_le (by omega) policy
  | byPath path policy =>
    simp only [delete, DeleteCall.target, DeleteCall.policy]
    cases hfind : Archive.find? u.archive (Change.soughtPath path) with
    | none => exact deletePath_of_find?_eq_none hfind policy
    | some i => exact deletePath_of_find? hfind policy

/-- A deletion marks what the call clears away, which is nothing if it fails. -/
theorem delete_eq (hcount : u.deletions.count = Archive.itemCount u.archive) (c : DeleteCall) :
    ∃ marks, u.delete c = (c.answer u.archive, { u with deletions := marks }) ∧
      u.deletions.Extends marks (c.Clears u.archive) := by
  rw [delete_eq_of_target hcount, DeleteCall.answer]
  cases htarget : c.target u.archive with
  | error e =>
    refine ⟨u.deletions, rfl, .refl _ ?_⟩
    rintro j ⟨i, hi, -⟩
    rw [htarget] at hi
    cases hi
  | ok i =>
    have hlt : i.val < u.deletions.count := by
      rw [hcount]
      exact DeleteCall.lt_of_target htarget
    obtain ⟨marks, hdelete, hclears⟩ := deleteItem_of_lt hcount hlt c.policy
    refine ⟨marks, hdelete, hclears.congr fun j => ?_⟩
    constructor
    · intro hj
      exact ⟨i, htarget, hj⟩
    · rintro ⟨i', hi', hj⟩
      rw [htarget] at hi'
      cases hi'
      exact hj

/-- Deletions mark what each of the calls clears away, and each answers as it would have alone. -/
theorem deleteAll_eq (hcount : u.deletions.count = Archive.itemCount u.archive)
    (cs : List DeleteCall) :
    ∃ marks, u.deleteAll cs = (cs.map (·.answer u.archive), { u with deletions := marks }) ∧
      u.deletions.Extends marks fun j => ∃ c ∈ cs, c.Clears u.archive j := by
  induction cs generalizing u with
  | nil => exact ⟨u.deletions, rfl, .refl _ (by simp)⟩
  | cons c cs ih =>
    obtain ⟨marks, hdelete, hclears⟩ := delete_eq hcount c
    obtain ⟨marks', hrest, hmore⟩ :=
      ih (u := { u with deletions := marks }) (hclears.count.trans hcount)
    refine ⟨marks', ?_, (hclears.trans hmore).congr fun j => ?_⟩
    · simp only [deleteAll, hdelete, hrest, List.map_cons]
    · simp only [List.mem_cons, exists_eq_or_imp]

/-- Calls that clear away the same stored items leave the same updater. -/
theorem deleteAll_congr (hcount : u.deletions.count = Archive.itemCount u.archive)
    {cs cs' : List DeleteCall} (hclears : ∀ j,
      (∃ c ∈ cs', c.Clears u.archive j) ↔ ∃ c ∈ cs, c.Clears u.archive j) :
    (u.deleteAll cs').2 = (u.deleteAll cs).2 := by
  obtain ⟨marks, hall, hmarks⟩ := deleteAll_eq hcount cs
  obtain ⟨marks', hall', hmarks'⟩ := deleteAll_eq hcount cs'
  rw [hall, hall', (hmarks'.congr hclears).unique hmarks]

/-- Each of a number of deletions answers as the archive has it, whatever was deleted before, and
what they mark is what was marked before and what each that succeeds clears away.  So their order
does not matter, nor does another call of the kind; and a call for a directory with what lies below
it makes up for any call for an item there. -/
theorem deletions_unite (hcount : u.deletions.count = Archive.itemCount u.archive)
    (cs : List DeleteCall) :
    (∃ marks, u.deleteAll cs = (cs.map (·.answer u.archive), { u with deletions := marks }) ∧
      u.deletions.Extends marks fun j => ∃ c ∈ cs, c.Clears u.archive j) ∧
    (∀ cs', cs'.Perm cs → (u.deleteAll cs').2 = (u.deleteAll cs).2) ∧
    ∀ c ∈ cs, (u.deleteAll (c :: cs)).2 = (u.deleteAll cs).2 ∧
      ∀ below, c.Absorbs u.archive below →
        (u.deleteAll (below :: cs)).2 = (u.deleteAll cs).2 := by
  refine ⟨deleteAll_eq hcount cs, ?_, ?_⟩
  · intro cs' hperm
    apply deleteAll_congr hcount
    intro j
    simp only [hperm.mem_iff]
  · intro c hc
    -- A call in front adds nothing if what it clears away is cleared away by one of the others.
    have hfront : ∀ first : DeleteCall,
        (∀ j, first.Clears u.archive j → c.Clears u.archive j) →
        (u.deleteAll (first :: cs)).2 = (u.deleteAll cs).2 := by
      intro first hclears
      apply deleteAll_congr hcount
      intro j
      rw [List.exists_mem_cons_iff, or_iff_right_of_imp]
      intro hj
      exact ⟨c, hc, hclears j hj⟩
    exact ⟨hfront c fun j hj => hj, fun below hbelow => hfront below fun j hj => hbelow.clears hj⟩

/-- A directory is deleted together with what lies below it, a file there is deleted by itself, and
a third call fails; the other order, and a deletion of the folder between, come to the same. -/
theorem deletions_unite_docs :
    let archive : MemoryArchive :=
      ⟨[⟨"docs", none, default, 16⟩, ⟨"docs/old", none, default, 16⟩,
        ⟨"docs/old/x", some [1], default, 32⟩, ⟨"y", some [2], default, 32⟩], 0⟩
    let u : Updater MemoryArchive Statistics :=
      { archive, deletions := ⟨4, [3], by decide, by decide⟩ }
    let recursive : DeleteCall := .byPath "docs/" .recurseDirs
    let file : DeleteCall := .byPath "docs/old/x" .itemOnly
    let missing : DeleteCall := .byIndex ⟨9⟩ .recurseDirs
    let folder : DeleteCall := .byIndex ⟨1⟩ .recurseDirs
    u.deletions.count = Archive.itemCount u.archive ∧
      (u.deleteAll [recursive, missing, file]).1 =
        [.ok (), .error (.indexOutOfRange 9 4), .ok ()] ∧
      (u.deleteAll [recursive, missing, file]).2.deletions.members = [0, 1, 2, 3] ∧
      (u.deleteAll [file, recursive, missing]).2 = (u.deleteAll [recursive, missing, file]).2 ∧
      (u.deleteAll [folder, recursive, missing, file]).2 =
        (u.deleteAll [recursive, missing, file]).2 := by
  intro archive u recursive file missing folder
  have hcount : u.deletions.count = Archive.itemCount u.archive := rfl
  obtain ⟨⟨marks, hall, -⟩, horder, hagain⟩ :=
    deletions_unite hcount [recursive, missing, file]
  have habsorbs : recursive.Absorbs archive folder :=
    ⟨⟨0⟩, ⟨1⟩, rfl, rfl, rfl, rfl, "docs", "docs/old", rfl, rfl, by decide⟩
  have hlast : ([file] ++ [recursive, missing]).Perm ([recursive, missing] ++ [file]) :=
    List.perm_append_comm
  refine ⟨hcount, ?_, ?_, horder _ hlast, (hagain recursive List.mem_cons_self).2 _ habsorbs⟩
  · rw [hall]
    rfl
  · rfl

end Updater

end ArchiveUpdate
