import ArchiveUpdate.Proofs.RecursiveDeletion

/-!
# Deleting by path

A deletion by path looks for the path without the slashes at its end, or for the path as it is if
there is nothing else in it (`Change.soughtPath`), and takes the first stored item with it
(`deletePath_of_find?`).  So slashes at the end count for nothing, and every stored path that ends
in something else, or is nothing but slashes, is found (`first_with_path_deleted`).
-/

set_option autoImplicit false

namespace ArchiveUpdate

namespace Archive

variable {α : Type} [Archive α] {a : α} {path : String} {i j : StoredIndex}

/-- If no position is found, none in the range has the property. -/
theorem firstFrom_eq_none {test : Nat → Bool} {n i : Nat} (h : firstFrom test n i = none) :
    ∀ k, i ≤ k → k < i + n → test k = false := by
  induction n generalizing i with
  | zero => intro k hik hk; omega
  | succ n ih =>
    unfold firstFrom at h
    split at h
    · cases h
    · rename_i htest
      intro k hik hk
      by_cases hki : k = i
      · subst hki
        simpa using htest
      · exact ih h k (by omega) (by omega)

/-- If a path is not found, no stored item has it. -/
theorem path?_ne_of_find? (h : find? a path = none) (hj : j.val < itemCount a) :
    path? a j ≠ some path := by
  have htest := firstFrom_eq_none (Option.map_eq_none_iff.1 h) j.val (Nat.zero_le _) (by omega)
  simpa using htest

/-- A path that some stored item has is found, at the first of them. -/
theorem exists_find? (hj : j.val < itemCount a) (hp : path? a j = some path) :
    ∃ i, find? a path = some i ∧ IsFirst a path i := by
  cases hfind : find? a path with
  | none => exact absurd hp (path?_ne_of_find? hfind hj)
  | some i => exact ⟨i, rfl, isFirst_of_find? hfind⟩

end Archive

/-- A text ends in a slash. -/
def EndsInSlash (path : String) : Prop := path.toList.getLast? = some '/'

instance : DecidablePred EndsInSlash := fun _ => inferInstanceAs (Decidable (_ = _))

/-- A text that does not end in a slash has no slashes to lose. -/
theorem trimSlashes_of_not_endsInSlash {path : String} (h : ¬EndsInSlash path) :
    trimSlashes path.toList = path.toList := by
  rw [trimSlashes_eq_rdropWhile, List.rdropWhile_eq_self_iff]
  intro hne hslash
  apply h
  rw [EndsInSlash, List.getLast?_eq_some_getLast hne]
  simpa using hslash

/-- Of a text of slashes nothing is left. -/
theorem trimSlashes_of_slashes {path : String} (h : ∀ c ∈ path.toList, c = '/') :
    trimSlashes path.toList = [] := by
  rw [trimSlashes_eq_rdropWhile, List.rdropWhile_eq_nil_iff]
  intro c hc
  exact decide_eq_true (h c hc)

/-- A number of slashes. -/
def slashes (n : Nat) : String := String.ofList (List.replicate n '/')

/-- More slashes at the end make no difference once they are cut off. -/
theorem trimSlashes_append_slashes (path : String) (n : Nat) :
    trimSlashes (path ++ slashes n).toList = trimSlashes path.toList := by
  rw [String.toList_append, slashes, String.toList_ofList, trimSlashes_eq_rdropWhile,
    trimSlashes_eq_rdropWhile]
  induction n with
  | zero => rw [List.replicate_zero, List.append_nil]
  | succ n ih =>
    rw [List.replicate_succ', ← List.append_assoc, List.rdropWhile_concat_pos _ _ _ (by decide)]
    exact ih

namespace Change

/-- A path is looked for as it is if there is nothing to take away. -/
theorem soughtPath_of_not_endsInSlash {path : String} (h : ¬EndsInSlash path) :
    soughtPath path = path := by
  unfold soughtPath
  dsimp only
  rw [trimSlashes_of_not_endsInSlash h, String.ofList_toList, ite_self]

/-- A path is looked for as it is if nothing would be left of it. -/
theorem soughtPath_of_slashes {path : String} (h : ∀ c ∈ path.toList, c = '/') :
    soughtPath path = path := by
  unfold soughtPath
  rw [trimSlashes_of_slashes h]
  rfl

/-- Slashes behind a path that does not end in one do not change what is looked for. -/
theorem soughtPath_append_slashes {path : String} (hne : path ≠ "") (h : ¬EndsInSlash path)
    (n : Nat) : soughtPath (path ++ slashes n) = soughtPath path := by
  unfold soughtPath
  dsimp only
  rw [trimSlashes_append_slashes, trimSlashes_of_not_endsInSlash h, String.ofList_toList,
    if_neg (by simpa using hne), if_neg (by simpa using hne)]

end Change

namespace Updater

variable {α ρ : Type} [Archive α]

/-- A deletion by path sees no more of the path than what it looks for. -/
theorem deletePath_congr (u : Updater α ρ) {path path' : String}
    (h : Change.soughtPath path' = Change.soughtPath path) (policy : DeletePolicy) :
    u.deletePath path' policy = u.deletePath path policy := by
  have hsame : Archive.find? u.archive (Change.soughtPath path') =
      Archive.find? u.archive (Change.soughtPath path) := by
    rw [h]
  cases hfind : Archive.find? u.archive (Change.soughtPath path) with
  | none =>
    rw [deletePath_of_find?_eq_none hfind, deletePath_of_find?_eq_none (hsame.trans hfind), h]
  | some i => rw [deletePath_of_find? hfind, deletePath_of_find? (hsame.trans hfind)]

/-- A stored item whose path does not end in a slash, or is nothing but slashes, is deleted by its
path, and if several have that path it is the first of them.  Slashes behind a path count for
nothing. -/
theorem first_with_path_deleted {u : Updater α ρ}
    (hcount : u.deletions.count = Archive.itemCount u.archive) :
    (∀ (j : StoredIndex) (path : String), j.val < Archive.itemCount u.archive →
      Archive.path? u.archive j = some path →
      ¬EndsInSlash path ∨ (∀ c ∈ path.toList, c = '/') →
      ∃ i marks, Archive.IsFirst u.archive path i ∧
        u.deletePath path .itemOnly = (.ok (), { u with deletions := marks }) ∧
        u.deletions.Extends marks (· = i)) ∧
    ∀ (path : String) (n : Nat) (policy : DeletePolicy), path ≠ "" → ¬EndsInSlash path →
      u.deletePath (path ++ slashes n) policy = u.deletePath path policy := by
  constructor
  · intro j path hj hp hend
    have hsought : Change.soughtPath path = path := by
      rcases hend with hend | hslashes
      · exact Change.soughtPath_of_not_endsInSlash hend
      · exact Change.soughtPath_of_slashes hslashes
    obtain ⟨i, hfind, hfirst⟩ := Archive.exists_find? hj hp
    have hlt : i.val < u.deletions.count := by
      rw [hcount]
      exact hfirst.lt
    obtain ⟨marks, hdelete, hclears⟩ := deleteItem_of_lt hcount hlt .itemOnly
    refine ⟨i, marks, hfirst, ?_, hclears.congr fun j => Archive.clears_alone nofun⟩
    rw [deletePath_of_find? (by rw [hsought, hfind])]
    exact hdelete
  · intro path n policy hne hend
    exact u.deletePath_congr (Change.soughtPath_append_slashes hne hend n) policy

/-- Of two stored items with one path the first is deleted, however many slashes follow the path;
an item whose path is two slashes is found by them. -/
theorem first_with_path_deleted_a :
    let archive : MemoryArchive :=
      ⟨[⟨"//", none, default, 16⟩, ⟨"a", some [1], default, 32⟩, ⟨"a", some [2], default, 32⟩], 0⟩
    let u : Updater MemoryArchive Statistics := .ofArchive archive
    u.deletions.count = Archive.itemCount u.archive ∧
      1 ∈ (u.deletePath ("a" ++ slashes 3) .itemOnly).2.deletions.members ∧
      2 ∉ (u.deletePath ("a" ++ slashes 3) .itemOnly).2.deletions.members ∧
      0 ∈ (u.deletePath "//" .itemOnly).2.deletions.members := by
  intro archive u
  have hcount : u.deletions.count = Archive.itemCount u.archive := rfl
  obtain ⟨hfirst, hslashes⟩ := first_with_path_deleted hcount
  obtain ⟨i, marks, hi, hdelete, hone⟩ := hfirst ⟨2⟩ "a" (by decide) rfl (.inl (by decide))
  obtain ⟨r, marks', hr, hdelete', hone'⟩ := hfirst ⟨0⟩ "//" (by decide) rfl (.inr (by simp))
  have h1 : Archive.IsFirst archive "a" ⟨1⟩ := Archive.isFirst_of_find? rfl
  have h0 : Archive.IsFirst archive "//" ⟨0⟩ := Archive.isFirst_of_find? rfl
  obtain rfl := hi.unique h1
  obtain rfl := hr.unique h0
  rw [hslashes "a" 3 .itemOnly (by decide) (by decide), hdelete, hdelete']
  refine ⟨hcount, (hone.mem ⟨1⟩).2 (.inr rfl), ?_, (hone'.mem ⟨0⟩).2 (.inr rfl)⟩
  intro hmem
  rcases (hone.mem ⟨2⟩).1 hmem with hold | hself
  · cases hold
  · cases hself

/-- An item whose path ends in a slash is passed over for one whose path does not. -/
theorem deletePath_passes_over_slash :
    let archive : MemoryArchive :=
      ⟨[⟨"docs/", none, default, 16⟩, ⟨"docs", some [1], default, 32⟩], 0⟩
    let u : Updater MemoryArchive Statistics := .ofArchive archive
    Archive.IsFirst archive "docs/" ⟨0⟩ ∧ (u.deletePath "docs/" .itemOnly).1 = .ok () ∧
      (u.deletePath "docs/" .itemOnly).2.deletions.members = [1] := by
  intro archive u
  exact ⟨Archive.isFirst_of_find? rfl, rfl, rfl⟩

end Updater

end ArchiveUpdate
