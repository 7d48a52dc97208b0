import ArchiveUpdate.Proofs.Marking
import ArchiveUpdate.Updater

/-!
# What a change does

`Change.Removes` says which stored items a change takes out of the finished archive and
`Change.Brings` which new items it puts in; both read the archive alone, not what was changed
before.  `change_cases` is all that a change can do: fail and leave the updater as it was, or mark
exactly the stored items that it removes and append exactly the items that it brings.
-/

set_option autoImplicit false

namespace ArchiveUpdate

namespace ItemPath

/-- A text is read as the path that has this text, if there is one. -/
theorem parse_eq_ok_iff {text : String} {p : ItemPath} : parse text = .ok p ↔ p.text = text := by
  constructor
  · intro h
    unfold parse at h
    split at h
    · cases h
    · cases h
      rfl
  · rintro rfl
    have hfault : PathFault.of? p.text = none :=
      PathFault.of?_eq_none_iff.2 ⟨p.size_le, p.segments_ok⟩
    unfold parse
    split
    · rename_i fault h
      rw [hfault] at h
      cases h
    · rfl

/-- The text of a path is read as that path. -/
theorem parse_text (p : ItemPath) : parse p.text = .ok p := parse_eq_ok_iff.2 rfl

/-- The text of a path is read as no other path. -/
theorem eq_of_parse_text {p p' : ItemPath} (h : parse p.text = .ok p') : p' = p := by
  rw [parse_text] at h
  cases h
  rfl

/-- The text of a path is not empty. -/
theorem text_ne_empty (p : ItemPath) : p.text ≠ "" := by
  intro h
  have hsegment := p.segments_ok [] (by rw [h]; simp [Segments.split])
  exact hsegment.ne_nil rfl

/-- A path that is given by its text is not derived from anything else. -/
theorem ofGivenName_text (p : ItemPath) (path : DiskPath) :
    ofGivenName path p.text = parse p.text := by
  unfold ofGivenName
  rw [if_neg (by simpa using p.text_ne_empty)]

end ItemPath

namespace Addition

variable {o : IndexOptions} {h : Host} {name : String} {new : List NewItem}

/-- A buffer is one new item, made now, under the path that its name spells. -/
theorem items_buffer {data : Bytes} (hitems : ((buffer data name).items o h).1 = .ok new) :
    ∃ p, ItemPath.parse name = .ok p ∧ new = [⟨p, .buffer ⟨data, h.now⟩⟩] := by
  simp only [items] at hitems
  cases hname : ItemPath.parse name with
  | error e =>
    rw [hname] at hitems
    cases hitems
  | ok p =>
    rw [hname] at hitems
    cases hitems
    exact ⟨p, rfl, rfl⟩

/-- A file is one new item, as it was found on disk, under the path that its name stands for. -/
theorem items_file {path : DiskPath} (hitems : ((file path name).items o h).1 = .ok new) :
    ∃ p item, ItemPath.ofGivenName path name = .ok p ∧
      fileAt h.files o.symlinkPolicy path = .ok item ∧ new = [⟨p, .disk item⟩] := by
  simp only [items] at hitems
  cases hfile : fileAt h.files o.symlinkPolicy path with
  | error e =>
    rw [hfile] at hitems
    cases hitems
  | ok item =>
    cases hname : ItemPath.ofGivenName path name with
    | error e =>
      rw [hfile, hname] at hitems
      cases hitems
    | ok p =>
      rw [hfile, hname] at hitems
      cases hitems
      exact ⟨p, item, rfl, rfl, rfl⟩

/-- A stream is one new item, as it was measured, under the path that its name spells. -/
theorem items_stream {id : Nat} (hitems : ((stream id name).items o h).1 = .ok new) :
    ∃ p item, ItemPath.parse name = .ok p ∧ (StreamItem.measure id h).1 = .ok item ∧
      new = [⟨p, .stream item⟩] := by
  simp only [items] at hitems
  cases hname : ItemPath.parse name with
  | error e =>
    rw [hname] at hitems
    cases hitems
  | ok p =>
    simp only [hname] at hitems
    cases hmeasure : (StreamItem.measure id h).1 with
    | error e =>
      rw [hmeasure] at hitems
      cases hitems
    | ok item =>
      rw [hmeasure] at hitems
      cases hitems
      exact ⟨p, item, rfl, rfl, rfl⟩

end Addition

namespace Archive

variable {α : Type} [Archive α] {a : α}

/-- A stored item is the first one with a path. -/
structure IsFirst (a : α) (path : String) (i : StoredIndex) : Prop where
  lt : i.val < itemCount a
  path_eq : path? a i = some path
  first : ∀ j : StoredIndex, j.val < i.val → path? a j ≠ some path

/-- There is one first stored item with a path. -/
theorem IsFirst.unique {path : String} {i i' : StoredIndex} (h : IsFirst a path i)
    (h' : IsFirst a path i') : i = i' := by
  have hle : ¬i.val < i'.val := fun hlt => h'.first i hlt h.path_eq
  have hge : ¬i'.val < i.val := fun hlt => h.first i' hlt h'.path_eq
  have hval : i.val = i'.val := by omega
  cases i
  cases i'
  exact congrArg StoredIndex.mk hval

/-- The first position with a property is in the range, has the property, and none before it has. -/
theorem firstFrom_eq_some {test : Nat → Bool} {n i m : Nat} (h : firstFrom test n i = some m) :
    i ≤ m ∧ m < i + n ∧ test m = true ∧ ∀ k, i ≤ k → k < m → test k = false := by
  induction n generalizing i with
  | zero => cases h
  | succ n ih =>
    unfold firstFrom at h
    split at h
    · rename_i htest
      cases h
      exact ⟨Nat.le_refl _, by omega, htest, by omega⟩
    · rename_i htest
      obtain ⟨hle, hlt, hm, hbefore⟩ := ih h
      refine ⟨by omega, by omega, hm, fun k hik hkm => ?_⟩
      by_cases hk : k = i
      · subst hk
        simpa using htest
      · exact hbefore k (by omega) hkm

/-- The stored item that is found for a path is the first one with it. -/
theorem isFirst_of_find? {path : String} {i : StoredIndex} (h : find? a path = some i) :
    IsFirst a path i := by
  unfold find? at h
  obtain ⟨m, hm, rfl⟩ := Option.map_eq_some_iff.1 h
  obtain ⟨-, hlt, htest, hbefore⟩ := firstFrom_eq_some hm
  refine ⟨by simpa using hlt, by simpa using htest, fun j hj => ?_⟩
  simpa using hbefore j.val (Nat.zero_le _) hj

/-- The path of a stored item begins with the path of another and a slash. -/
def LiesBelow (a : α) (dir j : StoredIndex) : Prop :=
  ∃ p q, path? a dir = some p ∧ path? a j = some q ∧ trimSlashes p.toList ++ ['/'] <+: q.toList

/-- The stored items are those below the item count. -/
theorem mem_indices {j : StoredIndex} : j ∈ indices a ↔ j.val < itemCount a := by
  unfold indices
  rw [List.mem_map]
  constructor
  · rintro ⟨m, hm, rfl⟩
    exact List.mem_range.1 hm
  · intro hj
    exact ⟨j.val, List.mem_range.2 hj, rfl⟩

/-- Below a directory are the stored items whose paths begin with its path and a slash. -/
theorem mem_below {dir j : StoredIndex} :
    j ∈ below a dir ↔ j.val < itemCount a ∧ LiesBelow a dir j := by
  unfold below LiesBelow
  cases hdir : path? a dir with
  | none => simp
  | some p =>
    simp only [List.mem_filter, mem_indices, Option.any_eq_true, List.isPrefixOf_iff_prefix]
    constructor
    · rintro ⟨hlt, q, hq, hp⟩
      exact ⟨hlt, p, q, rfl, hq, hp⟩
    · rintro ⟨hlt, p', q, hp', hq, hp⟩
      cases hp'
      exact ⟨hlt, q, hq, hp⟩

/-- Deleting a stored item under a policy clears it away, and what lies below it if that is wanted
and it is a directory. -/
def Clears (a : α) (i : StoredIndex) (policy : DeletePolicy) (j : StoredIndex) : Prop :=
  j = i ∨ (policy = .recurseDirs ∧ property a i .isDir = .bool true) ∧
    j.val < itemCount a ∧ LiesBelow a i j

/-- An item that is no directory, or that is to go by itself, is cleared away alone. -/
theorem clears_alone {i j : StoredIndex} {policy : DeletePolicy}
    (h : ¬(policy = .recurseDirs ∧ property a i .isDir = .bool true)) :
    Clears a i policy j ↔ j = i :=
  or_iff_left fun hbelow => h hbelow.1

end Archive

namespace Change

variable {α : Type} [Archive α]

/-- The path under which a deletion looks for a stored item. -/
def soughtPath (path : String) : String :=
  let trimmed := String.ofList (trimSlashes path.toList)
  if trimmed.isEmpty then path else trimmed

/-- The change gives a stored item another path. -/
def Renames (a : α) (j : StoredIndex) (new : String) : Change → Prop
  | renameItem i path => j = i ∧ new = path
  | renamePath old path => Archive.IsFirst a old j ∧ new = path
  | _ => False

/-- The change takes a stored item out of the finished archive. -/
def Removes (a : α) (j : StoredIndex) : Change → Prop
  | add _ => False
  | deleteItem i policy => Archive.Clears a i policy j
  | deletePath path policy =>
    ∃ i, Archive.IsFirst a (soughtPath path) i ∧ Archive.Clears a i policy j
  | renameItem i _ | replaceBuffer i _ | replaceFile i _ | replaceStream i _ => j = i
  | renamePath old _ => Archive.IsFirst a old j

/-- These are the new items that the change puts into the finished archive. -/
def Brings (a : α) (o : IndexOptions) (h : Host) (new : List NewItem) : Change → Prop
  | add addition => (addition.items o h).1 = .ok new
  | deleteItem .. | deletePath .. => new = []
  | renameItem i path => ∃ p : ItemPath, p.text = path ∧ new = [⟨p, .renamed i⟩]
  | renamePath old path =>
    ∃ (i : StoredIndex) (p : ItemPath), Archive.IsFirst a old i ∧ p.text = path ∧
      new = [⟨p, .renamed i⟩]
  | replaceBuffer i data =>
    ∃ p : ItemPath, Archive.path? a i = some p.text ∧ new = [⟨p, .buffer ⟨data, h.now⟩⟩]
  | replaceFile i path =>
    ∃ (p : ItemPath) (item : DiskItem), Archive.path? a i = some p.text ∧
      Addition.fileAt h.files o.symlinkPolicy path = .ok item ∧ new = [⟨p, .disk item⟩]
  | replaceStream i id =>
    ∃ (p : ItemPath) (item : StreamItem), Archive.path? a i = some p.text ∧
      (StreamItem.measure id h).1 = .ok item ∧ new = [⟨p, .stream item⟩]

/-- A change renames one item at most, and to one path. -/
theorem Renames.unique {a : α} {c : Change} {j j' : StoredIndex} {p p' : String}
    (h : c.Renames a j p) (h' : c.Renames a j' p') : j = j' ∧ p = p' := by
  cases c with
  | renameItem i path => exact ⟨h.1.trans h'.1.symm, h.2.trans h'.2.symm⟩
  | renamePath old path => exact ⟨h.1.unique h'.1, h.2.trans h'.2.symm⟩
  | _ => exact h.elim

/-- Where an item is renamed, the stored one is removed. -/
theorem Renames.removes {a : α} {c : Change} {j : StoredIndex} {p : String}
    (h : c.Renames a j p) : c.Removes a j := by
  cases c with
  | renameItem i path => exact h.1
  | renamePath old path => exact h.1
  | _ => exact h.elim

end Change

namespace Updater

variable {α ρ : Type} [Archive α]

/-- Looking for a path fails, or finds the first stored item with it. -/
theorem find_cases (u : Updater α ρ) (path : String) :
    (∃ e, u.find path = .error e) ∨
      ∃ i, u.find path = .ok i ∧ Archive.IsFirst u.archive path i := by
  unfold find
  cases hfind : Archive.find? u.archive path with
  | none => exact .inl ⟨_, rfl⟩
  | some i => exact .inr ⟨i, rfl, Archive.isFirst_of_find? hfind⟩

omit [Archive α] in
/-- Stored items that are all there are all marked. -/
theorem mark_eq (u : Updater α ρ) (is : List StoredIndex)
    (his : ∀ i ∈ is, i.val < u.deletions.count) :
    ∃ d, u.mark is = (.ok (), { u with deletions := d }) ∧ u.deletions.Extends d (· ∈ is) := by
  induction is generalizing u with
  | nil => exact ⟨u.deletions, rfl, .refl _ (by simp)⟩
  | cons i is ih =>
    obtain ⟨d, hinsert, hone⟩ := Deletions.insert_of_lt (his i List.mem_cons_self)
    have hrest : ∀ i' ∈ is, i'.val < d.count := by
      intro i' hi'
      rw [hone.count]
      exact his i' (List.mem_cons_of_mem i hi')
    obtain ⟨d', hmark, hmore⟩ := ih { u with deletions := d } hrest
    refine ⟨d', ?_, (hone.trans hmore).congr fun j => List.mem_cons.symm⟩
    simp only [mark, hinsert]
    exact hmark

/-- A stored item is deleted, with what lies below it if that is wanted. -/
theorem deleteItem_of_lt {u : Updater α ρ} {i : StoredIndex}
    (hcount : u.deletions.count = Archive.itemCount u.archive) (hi : i.val < u.deletions.count)
    (policy : DeletePolicy) :
    ∃ d, u.deleteItem i policy = (.ok (), { u with deletions := d }) ∧
      u.deletions.Extends d (Archive.Clears u.archive i policy) := by
  obtain ⟨d, hinsert, hone⟩ := Deletions.insert_of_lt hi
  by_cases hrecurse : policy = .recurseDirs ∧ Archive.property u.archive i .isDir = .bool true
  · have hbelow : ∀ j ∈ Archive.below u.archive i, j.val < d.count := by
      intro j hj
      rw [hone.count, hcount]
      exact (Archive.mem_below.1 hj).1
    obtain ⟨d', hmark, hmore⟩ := mark_eq { u with deletions := d } _ hbelow
    refine ⟨d', ?_, (hone.trans hmore).congr fun j => ?_⟩
    · simp only [deleteItem, hinsert, if_pos hrecurse]
      exact hmark
    · rw [Archive.mem_below, Archive.Clears, and_iff_right hrecurse]
  · refine ⟨d, ?_, hone.congr fun j => (Archive.clears_alone hrecurse).symm⟩
    simp only [deleteItem, hinsert, if_neg hrecurse]

/-- Deleting an item that is not there is refused. -/
theorem deleteItem_of_le {u : Updater α ρ} {i : StoredIndex} (hi : u.deletions.count ≤ i.val)
    (policy : DeletePolicy) :
    u.deleteItem i policy = (.error (.indexOutOfRange i.val u.deletions.count), u) := by
  simp only [deleteItem, Deletions.insert_of_le hi]

/-- Deleting a stored item fails and changes nothing, or marks exactly what it is to clear. -/
theorem deleteItem_cases {u : Updater α ρ}
    (hcount : u.deletions.count = Archive.itemCount u.archive) (i : StoredIndex)
    (policy : DeletePolicy) :
    (∃ e, u.deleteItem i policy = (.error e, u)) ∨
      ∃ d, u.deleteItem i policy = (.ok (), { u with deletions := d }) ∧
        u.deletions.Extends d (Archive.Clears u.archive i policy) := by
  by_cases hi : i.val < u.deletions.count
  · exact .inr (deleteItem_of_lt hcount hi policy)
  · exact .inl ⟨_, deleteItem_of_le (Nat.not_lt.1 hi) policy⟩

omit [Archive α] in
/-- A new item takes the place of a stored one that was unmarked, or nothing happens. -/
theorem substitute_cases (u : Updater α ρ) (i : StoredIndex) (new : List NewItem) :
    (∃ e, u.substitute i new = (.error e, u)) ∨
      ∃ d, u.substitute i new = (.ok (), { u with items := u.items ++ new, deletions := d }) ∧
        u.deletions.Extends d (· = i) ∧ i.val ∉ u.deletions.members := by
  by_cases hi : i.val < u.deletions.count
  · obtain ⟨d, hinsert, hone⟩ := Deletions.insert_of_lt hi
    cases hmarked : u.deletions.contains i with
    | true =>
      refine .inl ⟨.itemRemoved i.val, ?_⟩
      simp only [substitute, take, hinsert, hmarked]
      rfl
    | false =>
      refine .inr ⟨d, ?_, hone, fun h => ?_⟩
      · simp only [substitute, take, hinsert, hmarked]
        rfl
      · rw [Deletions.contains_iff.2 h] at hmarked
        cases hmarked
  · refine .inl ⟨.indexOutOfRange i.val u.deletions.count, ?_⟩
    simp only [substitute, take, Deletions.insert_of_le (Nat.not_lt.1 hi)]

omit [Archive α] in
/-- Renaming a stored item fails and changes nothing, or marks it, which was not marked before, and
adds one item under the new path. -/
theorem renameItem_cases (u : Updater α ρ) (i : StoredIndex) (path : String) :
    (∃ e, u.renameItem i path = (.error e, u)) ∨
      ∃ (p : ItemPath) (d : Deletions), p.text = path ∧
        u.renameItem i path =
          (.ok (), { u with items := u.items ++ [⟨p, .renamed i⟩], deletions := d }) ∧
        u.deletions.Extends d (· = i) ∧ i.val ∉ u.deletions.members := by
  unfold renameItem
  cases hparse : ItemPath.parse path with
  | error e => exact .inl ⟨e, rfl⟩
  | ok p =>
    rcases u.substitute_cases i [⟨p, .renamed i⟩] with ⟨e, h⟩ | ⟨d, h, hone, hfresh⟩
    · exact .inl ⟨e, h⟩
    · exact .inr ⟨p, d, ItemPath.parse_eq_ok_iff.1 hparse, h, hone, hfresh⟩

/-- A stored item is replaced by what a call adds under the same path, or nothing happens but what
the call does to lent streams. -/
theorem replace_cases (u : Updater α ρ) (h : Host) (i : StoredIndex)
    (addition : (name : String) → Addition) :
    (∃ e h', u.replace h i addition = (.error e, u, h')) ∨
      ∃ (p : ItemPath) (d : Deletions) (new : List NewItem) (h' : Host),
        Archive.path? u.archive i = some p.text ∧
        ((addition p.text).items u.options.index h).1 = .ok new ∧
        u.replace h i addition =
          (.ok (), { u with items := u.items ++ new, deletions := d }, h') ∧
        u.deletions.Extends d (· = i) ∧ i.val ∉ u.deletions.members := by
  unfold replace
  cases hpath : u.storedPath i with
  | error e => exact .inl ⟨e, h, rfl⟩
  | ok p =>
    have hstored : Archive.path? u.archive i = some p.text := by
      unfold storedPath at hpath
      split at hpath
      · cases hpath
      · have htext := ItemPath.parse_eq_ok_iff.1 hpath
        cases hp : Archive.path? u.archive i with
        | none =>
          rw [hp] at htext
          exact absurd htext p.text_ne_empty
        | some text =>
          rw [hp] at htext
          rw [htext, Option.getD_some]
    cases hitems : (addition p.text).items u.options.index h with
    | mk answer h' =>
      simp only [hitems]
      cases answer with
      | error e => exact .inl ⟨e, h', rfl⟩
      | ok new =>
        rcases u.substitute_cases i new with ⟨e, hsub⟩ | ⟨d, hsub, hone, hfresh⟩
        · exact .inl ⟨e, h', by simp only [hsub]⟩
        · exact .inr ⟨p, d, new, h', hstored, by rw [hitems], by simp only [hsub], hone, hfresh⟩

/-- Deleting by path deletes the stored item that is found. -/
theorem deletePath_of_find? {u : Updater α ρ} {path : String} {i : StoredIndex}
    (h : Archive.find? u.archive (Change.soughtPath path) = some i) (policy : DeletePolicy) :
    u.deletePath path policy = u.deleteItem i policy := by
  have hfind : u.find (Change.soughtPath path) = .ok i := by
    simp only [find, h]
  simp only [Change.soughtPath] at hfind
  simp only [deletePath, hfind]

/-- Deleting by a path that no stored item has is refused with the path that was looked for. -/
theorem deletePath_of_find?_eq_none {u : Updater α ρ} {path : String}
    (h : Archive.find? u.archive (Change.soughtPath path) = none) (policy : DeletePolicy) :
    u.deletePath path policy = (.error (.entryNotFound (Change.soughtPath path)), u) := by
  have hfind : u.find (Change.soughtPath path) =
      .error (.entryNotFound (Change.soughtPath path)) := by
    simp only [find, h]
  simp only [Change.soughtPath] at hfind ⊢
  simp only [deletePath, hfind]

/-- Deleting by path fails and changes nothing, or clears the first stored item with the path. -/
theorem deletePath_cases {u : Updater α ρ}
    (hcount : u.deletions.count = Archive.itemCount u.archive) (path : String)
    (policy : DeletePolicy) :
    (∃ e, u.deletePath path policy = (.error e, u)) ∨
      ∃ (i : StoredIndex) (d : Deletions), Archive.IsFirst u.archive (Change.soughtPath path) i ∧
        u.deletePath path policy = (.ok (), { u with deletions := d }) ∧
        u.deletions.Extends d (Archive.Clears u.archive i policy) := by
  cases hfind : Archive.find? u.archive (Change.soughtPath path) with
  | none => exact .inl ⟨_, deletePath_of_find?_eq_none hfind policy⟩
  | some i =>
    rw [deletePath_of_find? hfind]
    rcases deleteItem_cases hcount i policy with ⟨e, hitem⟩ | ⟨d, hitem, hclears⟩
    · exact .inl ⟨e, hitem⟩
    · exact .inr ⟨i, d, Archive.isFirst_of_find? hfind, hitem, hclears⟩

/-- Renaming by path fails and changes nothing, or renames the first stored item with the path. -/
theorem renamePath_cases (u : Updater α ρ) (old new : String) :
    (∃ e, u.renamePath old new = (.error e, u)) ∨
      ∃ (i : StoredIndex) (p : ItemPath) (d : Deletions), Archive.IsFirst u.archive old i ∧
        p.text = new ∧
        u.renamePath old new =
          (.ok (), { u with items := u.items ++ [⟨p, .renamed i⟩], deletions := d }) ∧
        u.deletions.Extends d (· = i) ∧ i.val ∉ u.deletions.members := by
  unfold renamePath
  rcases u.find_cases old with ⟨e, hfind⟩ | ⟨i, hfind, hfirst⟩
  · exact .inl ⟨e, by rw [hfind]⟩
  · simp only [hfind]
    rcases u.renameItem_cases i new with ⟨e, hitem⟩ | ⟨p, d, htext, hitem, hone, hfresh⟩
    · exact .inl ⟨e, hitem⟩
    · exact .inr ⟨i, p, d, hfirst, htext, hitem, hone, hfresh⟩

/-- A change either fails and leaves the updater as it was, or it marks exactly the stored items
that it removes and appends exactly the items that it brings; what it renames was unmarked. -/
theorem change_cases {u : Updater α ρ} (hcount : u.deletions.count = Archive.itemCount u.archive)
    (h : Host) (c : Change) :
    (∃ e h', u.change h c = (.error e, u, h')) ∨
      ∃ (new : List NewItem) (d : Deletions) (h' : Host),
        u.change h c = (.ok (), { u with items := u.items ++ new, deletions := d }, h') ∧
        c.Brings u.archive u.options.index h new ∧
        u.deletions.Extends d (c.Removes u.archive ·) ∧
        ∀ j p, c.Renames u.archive j p → j.val ∉ u.deletions.members := by
  cases c with
  | add addition =>
    simp only [change, add]
    cases hitems : addition.items u.options.index h with
    | mk answer h' =>
      cases answer with
      | error e => exact .inl ⟨e, h', rfl⟩
      | ok new =>
        refine .inr ⟨new, u.deletions, h', rfl, ?_, .refl _ fun j => False.elim,
          fun j p => False.elim⟩
        rw [Change.Brings, hitems]
  | deleteItem i policy =>
    simp only [change]
    rcases deleteItem_cases hcount i policy with ⟨e, hdelete⟩ | ⟨d, hdelete, hclears⟩
    · exact .inl ⟨e, h, by rw [hdelete]⟩
    · refine .inr ⟨[], d, h, ?_, rfl, hclears, fun j p => False.elim⟩
      rw [hdelete, List.append_nil]
  | deletePath path policy =>
    simp only [change]
    rcases deletePath_cases hcount path policy with ⟨e, hdelete⟩ | ⟨i, d, hfirst, hdelete, hclears⟩
    · exact .inl ⟨e, h, by rw [hdelete]⟩
    · refine .inr ⟨[], d, h, ?_, rfl, hclears.congr fun j => ?_, fun j p => False.elim⟩
      · rw [hdelete, List.append_nil]
      · constructor
        · intro hj
          exact ⟨i, hfirst, hj⟩
        · rintro ⟨i', hfirst', hj⟩
          rwa [hfirst.unique hfirst']
  | renameItem i path =>
    simp only [change]
    rcases u.renameItem_cases i path with ⟨e, hrename⟩ | ⟨p, d, htext, hrename, hone, hfresh⟩
    · exact .inl ⟨e, h, by rw [hrename]⟩
    · refine .inr ⟨_, d, h, by rw [hrename], ⟨p, htext, rfl⟩, hone, ?_⟩
      rintro j new ⟨rfl, -⟩
      exact hfresh
  | renamePath old path =>
    simp only [change]
    rcases u.renamePath_cases old path with
      ⟨e, hrename⟩ | ⟨i, p, d, hfirst, htext, hrename, hone, hfresh⟩
    · exact .inl ⟨e, h, by rw [hrename]⟩
    · refine .inr ⟨_, d, h, by rw [hrename], ⟨i, p, hfirst, htext, rfl⟩, hone.congr fun j => ?_, ?_⟩
      · constructor
        · rintro rfl
          exact hfirst
        · intro hj
          exact hj.unique hfirst
      · rintro j new ⟨hj, -⟩
        rw [hj.unique hfirst]
        exact hfresh
  | replaceBuffer i data =>
    simp only [change]
    rcases u.replace_cases h i (.buffer data) with
      ⟨e, h', hreplace⟩ | ⟨p, d, new, h', hstored, hitems, hreplace, hone, -⟩
    · exact .inl ⟨e, h', hreplace⟩
    · obtain ⟨p', hparse, hnew⟩ := Addition.items_buffer hitems
      obtain rfl := ItemPath.eq_of_parse_text hparse
      exact .inr ⟨new, d, h', hreplace, ⟨p', hstored, hnew⟩, hone, fun j p => False.elim⟩
  | replaceFile i path =>
    simp only [change]
    rcases u.replace_cases h i (.file path) with
      ⟨e, h', hreplace⟩ | ⟨p, d, new, h', hstored, hitems, hreplace, hone, -⟩
    · exact .inl ⟨e, h', hreplace⟩
    · obtain ⟨p', item, hname, hfile, hnew⟩ := Addition.items_file hitems
      rw [p.ofGivenName_text] at hname
      obtain rfl := ItemPath.eq_of_parse_text hname
      exact .inr ⟨new, d, h', hreplace, ⟨p', item, hstored, hfile, hnew⟩, hone,
        fun j p => False.elim⟩
  | replaceStream i id =>
    simp only [change]
    rcases u.replace_cases h i (.stream id) with
      ⟨e, h', hreplace⟩ | ⟨p, d, new, h', hstored, hitems, hreplace, hone, -⟩
    · exact .inl ⟨e, h', hreplace⟩
    · obtain ⟨p', item, hparse, hstream, hnew⟩ := Addition.items_stream hitems
      obtain rfl := ItemPath.eq_of_parse_text hparse
      exact .inr ⟨new, d, h', hreplace, ⟨p', item, hstored, hstream, hnew⟩, hone,
        fun j p => False.elim⟩

end Updater

end ArchiveUpdate
