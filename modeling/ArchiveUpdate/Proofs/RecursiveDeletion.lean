import ArchiveUpdate.Proofs.ChangeEffects
import Mathlib.Data.List.DropRight

/-!
# Deleting a directory with what lies below it

What lies below a stored directory is found by comparing texts: a path that begins with that of the
directory, less the slashes at its end, and one slash.  Among paths that keep the rules for paths
inside an archive this is containment name by name (`ItemPath.prefix_text_iff`).  For whatever
texts, what lies below something below a directory lies below the directory (`LiesBelow.trans`), so
a deletion that recurses leaves nothing behind (`deletes_directory_with_all_below`).
-/

set_option autoImplicit false

namespace ArchiveUpdate

/-- Trimming slashes drops them from the end as long as there are any. -/
theorem trimSlashes_eq_rdropWhile (cs : List Char) :
    trimSlashes cs = cs.rdropWhile (· = '/') := rfl

/-- Trimming slashes twice is trimming them once. -/
theorem trimSlashes_trimSlashes (cs : List Char) :
    trimSlashes (trimSlashes cs) = trimSlashes cs := by
  simp only [trimSlashes_eq_rdropWhile, List.rdropWhile_idempotent]

/-- A text without slashes at its end, with a slash put there, is followed by the same slash in what
is left of a longer text when the slashes at its end are taken away.  The induction takes the longer
text apart from its end. -/
theorem prefix_trimSlashes {t cs : List Char} (ht : trimSlashes t = t) (h : t ++ ['/'] <+: cs) :
    t ++ ['/'] <+: trimSlashes cs ++ ['/'] := by
  obtain ⟨rest, rfl⟩ := h
  rw [trimSlashes_eq_rdropWhile] at ht ⊢
  induction rest using List.reverseRecOn with
  | nil =>
    have hcut : (t ++ ['/'] ++ []).rdropWhile (· = '/') = t := by
      rw [List.append_nil, List.rdropWhile_concat_pos _ _ _ (by decide), ht]
    simp only [hcut, List.prefix_rfl]
  | append_singleton rest c ih =>
    rw [← List.append_assoc]
    by_cases hc : c = '/'
    · rw [List.rdropWhile_concat_pos _ _ _ (by simpa using hc)]
      exact ih
    · rw [List.rdropWhile_concat_neg _ _ _ (by simpa using hc), List.append_assoc,
        List.append_assoc]
      apply List.prefix_append

namespace ItemPath

/-- A path ends in a name, not in a slash. -/
theorem trimSlashes_text (p : ItemPath) : trimSlashes p.text.toList = p.text.toList := by
  rw [trimSlashes_eq_rdropWhile, List.rdropWhile_eq_self_iff]
  intro hne hslash
  have hlast : p.text.toList.getLast hne = '/' := by simpa using hslash
  have hcut : p.text.toList = p.text.toList.dropLast ++ '/' :: [] := by
    rw [← hlast, List.dropLast_append_getLast]
  have hempty : [] ∈ Segments.split '/' p.text.toList := by
    rw [hcut, Segments.split_append_cons]
    exact List.mem_append_right _ (List.mem_singleton_self _)
  exact (p.segments_ok [] hempty).ne_nil rfl

/-- One path begins with another and a slash exactly if its names are those of the other and more
behind them. -/
theorem prefix_text_iff {p q : ItemPath} : p.text.toList ++ ['/'] <+: q.text.toList ↔
    ∃ names, names ≠ [] ∧ q.segments = p.segments ++ names := by
  constructor
  · rintro ⟨rest, hq⟩
    refine ⟨Segments.split '/' rest, Segments.split_ne_nil _ _, ?_⟩
    rw [segments, ← hq, List.append_assoc, List.singleton_append, Segments.split_append_cons]
    rfl
  · rintro ⟨names, hne, hq⟩
    rw [← q.join_segments, hq, Segments.join_append p.segments_ne_nil hne, p.join_segments]
    exact ⟨Segments.join '/' names, List.append_assoc _ _ _⟩

end ItemPath

namespace Archive

variable {α : Type} [Archive α] {a : α} {d e j : StoredIndex}

/-- What lies below an item that lies below a directory lies below the directory. -/
theorem LiesBelow.trans (h : LiesBelow a d e) (h' : LiesBelow a e j) : LiesBelow a d j := by
  obtain ⟨p, q, hp, hq, hbelow⟩ := h
  obtain ⟨q', r, hq', hr, hbelow'⟩ := h'
  obtain rfl : q = q' := Option.some.inj (hq.symm.trans hq')
  have hstart : trimSlashes p.toList ++ ['/'] <+: trimSlashes q.toList ++ ['/'] :=
    prefix_trimSlashes (trimSlashes_trimSlashes _) hbelow
  exact ⟨p, r, hp, hr, hstart.trans hbelow'⟩

/-- An item lies below a directory when its path begins with that of the directory without slashes
at its end, and one slash. -/
theorem liesBelow_iff {p : String} (hp : path? a d = some p) :
    LiesBelow a d j ↔ ∃ q, path? a j = some q ∧ trimSlashes p.toList ++ ['/'] <+: q.toList := by
  constructor
  · rintro ⟨p', q, hp', hq, hbelow⟩
    obtain rfl : p = p' := Option.some.inj (hp.symm.trans hp')
    exact ⟨q, hq, hbelow⟩
  · rintro ⟨q, hq, hbelow⟩
    exact ⟨p, q, hp, hq, hbelow⟩

end Archive

namespace Updater

variable {α ρ : Type} [Archive α]

/-- A directory is deleted together with exactly those items whose paths begin with its own, less
the slashes at its end, and one slash.  Among paths that keep the rules these are the items that
have its names and more behind them.  With every item so deleted, whatever lies below it is deleted
too.  An item that is no directory is deleted alone, and so is every item if its policy says so. -/
theorem deletes_directory_with_all_below {u : Updater α ρ} {d : StoredIndex}
    (hcount : u.deletions.count = Archive.itemCount u.archive)
    (hd : d.val < Archive.itemCount u.archive) :
    (∀ p, Archive.property u.archive d .isDir = .bool true → Archive.path? u.archive d = some p →
      ∃ marks, u.deleteItem d .recurseDirs = (.ok (), { u with deletions := marks }) ∧
        u.deletions.Extends marks (fun j => j = d ∨ j.val < Archive.itemCount u.archive ∧
          ∃ q, Archive.path? u.archive j = some q ∧
            trimSlashes p.toList ++ ['/'] <+: q.toList) ∧
        (∀ e, e = d ∨ Archive.LiesBelow u.archive d e → ∀ j : StoredIndex,
          j.val < Archive.itemCount u.archive → Archive.LiesBelow u.archive e j →
            j.val ∈ marks.members) ∧
        ∀ (path path' : ItemPath), path.text = p →
          (trimSlashes p.toList ++ ['/'] <+: path'.text.toList ↔
            ∃ names, names ≠ [] ∧ path'.segments = path.segments ++ names)) ∧
    ∀ policy, policy = .itemOnly ∨ Archive.property u.archive d .isDir ≠ .bool true →
      ∃ marks, u.deleteItem d policy = (.ok (), { u with deletions := marks }) ∧
        u.deletions.Extends marks (· = d) := by
  have hlt : d.val < u.deletions.count := by
    rwa [hcount]
  constructor
  · intro p hdir hp
    obtain ⟨marks, hdelete, hclears⟩ := deleteItem_of_lt hcount hlt .recurseDirs
    have hmarks : u.deletions.Extends marks fun j =>
        j = d ∨ j.val < Archive.itemCount u.archive ∧ Archive.LiesBelow u.archive d j := by
      apply hclears.congr
      intro j
      rw [Archive.Clears, and_iff_right ⟨rfl, hdir⟩]
    refine ⟨marks, hdelete, ?_, ?_, ?_⟩
    · apply hmarks.congr
      intro j
      rw [Archive.liesBelow_iff hp]
    · intro e he j hj hbelow
      rw [hmarks.mem]
      rcases he with rfl | he
      · exact .inr (.inr ⟨hj, hbelow⟩)
      · exact .inr (.inr ⟨hj, he.trans hbelow⟩)
    · rintro path path' rfl
      rw [path.trimSlashes_text]
      exact ItemPath.prefix_text_iff
  · intro policy halone
    obtain ⟨marks, hdelete, hclears⟩ := deleteItem_of_lt hcount hlt policy
    refine ⟨marks, hdelete, hclears.congr fun j => ?_⟩
    rw [Archive.Clears, or_iff_left]
    rintro ⟨⟨hrecurse, hdir⟩, -⟩
    rcases halone with hitem | hfile
    · rw [hitem] at hrecurse
      cases hrecurse
    · exact hfile hdir

/-- With a directory stored under a path that ends in two slashes go the directory below it and the
file there, but not its namesake beside it; by itself it goes alone. -/
theorem deletes_directory_with_all_below_docs :
    let archive : MemoryArchive :=
      ⟨[⟨"docs//", none, default, 16⟩, ⟨"docs/sub/", none, default, 16⟩,
        ⟨"docs/sub/x", some [1], default, 32⟩, ⟨"docsets.txt", some [2], default, 32⟩], 0⟩
    let u : Updater MemoryArchive Statistics := .ofArchive archive
    u.deletions.count = Archive.itemCount u.archive ∧
      (u.deleteItem ⟨0⟩ .recurseDirs).1 = .ok () ∧
      1 ∈ (u.deleteItem ⟨0⟩ .recurseDirs).2.deletions.members ∧
      2 ∈ (u.deleteItem ⟨0⟩ .recurseDirs).2.deletions.members ∧
      3 ∉ (u.deleteItem ⟨0⟩ .recurseDirs).2.deletions.members ∧
      2 ∉ (u.deleteItem ⟨0⟩ .itemOnly).2.deletions.members := by
  intro archive u
  have hcount : u.deletions.count = Archive.itemCount u.archive := rfl
  obtain ⟨hall, halone⟩ := deletes_directory_with_all_below hcount (d := ⟨0⟩) (by decide)
  obtain ⟨marks, hdelete, hmarks, hclosed, -⟩ := hall "docs//" rfl rfl
  obtain ⟨mark, hitem, hone⟩ := halone .itemOnly (.inl rfl)
  have hsub : Archive.LiesBelow archive ⟨0⟩ ⟨1⟩ := ⟨"docs//", "docs/sub/", rfl, rfl, by decide⟩
  have hfile : Archive.LiesBelow archive ⟨1⟩ ⟨2⟩ := ⟨"docs/sub/", "docs/sub/x", rfl, rfl, by decide⟩
  rw [hdelete, hitem]
  refine ⟨hcount, rfl, ?_, ?_, ?_, ?_⟩
  · apply (hmarks.mem ⟨1⟩).2
    exact .inr (.inr ⟨by decide, "docs/sub/", rfl, by decide⟩)
  · exact hclosed ⟨1⟩ (.inr hsub) ⟨2⟩ (by decide) hfile
  · intro hmem
    rcases (hmarks.mem ⟨3⟩).1 hmem with hold | hself | ⟨-, q, hq, hbelow⟩
    · cases hold
    · cases hself
    · obtain rfl : "docsets.txt" = q := Option.some.inj hq
      revert hbelow
      decide
  · intro hmem
    rcases (hone.mem ⟨2⟩).1 hmem with hold | hself
    · cases hold
    · cases hself

end Updater

end ArchiveUpdate
