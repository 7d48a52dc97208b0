import ArchiveUpdate.Proofs.WalkedEntries
import Mathlib.Algebra.Ring.Nat

/-!
# Where a walk comes

A tree holds one node at a location, so a directory lists each name once (`distinct_entries`), and a
walk meets no two entries that the same names lead to (`distinct_of_walk`).  What it does below a
directory depends on no visit but those of entries below it (`walkBelow_congr`), and the names that
lead to an entry take no more than its path does (`sum_names_le`).
-/

set_option autoImplicit false

namespace ArchiveUpdate

/-- The path of an entry takes as much as that of the directory and the names that lead from there
to the entry. -/
theorem DiskPath.length_foldl_child (dir : DiskPath) (names : List FileName) :
    dir.bytes.length + (names.map (·.bytes.length)).sum ≤
      (names.foldl DiskPath.child dir).bytes.length := by
  induction names generalizing dir with
  | nil => exact Nat.le_refl _
  | cons name names ih =>
    have hchild : dir.bytes.length + name.bytes.length ≤ (dir.child name).bytes.length := by
      unfold child
      cases hlast : dir.bytes.getLast? with
      | none =>
        rw [List.getLast?_eq_none_iff.1 hlast]
        simp
      | some last =>
        dsimp only
        split <;> simp
    have hrest := ih (dir.child name)
    rw [List.map_cons, List.sum_cons, List.foldl_cons]
    omega

/-- The names that lead to an entry are no longer than its path. -/
theorem WalkEntry.LiesBelow.sum_names_le {dir : DiskPath} {e : WalkEntry}
    (h : e.LiesBelow dir []) : (e.names.map (·.bytes.length)).sum ≤ e.path.bytes.length := by
  obtain ⟨more, -, hnames, hpath⟩ := h
  have hlength := dir.length_foldl_child more
  rw [hnames, hpath, List.nil_append]
  omega

namespace FileTree

/-- A place with a name in a directory is the place of that name there. -/
theorem eq_of_nameIn? {dir loc : Location} {name : FileName} (h : nameIn? dir loc = some name) :
    loc = dir ++ [name] := by
  unfold nameIn? at h
  split at h
  · rename_i hdir
    rw [← hdir, List.dropLast_append_getLast? name h]
  · cases h

/-- A directory lists each name once. -/
theorem distinct_entries (t : FileTree) (dir : Location) :
    (t.entries dir).Pairwise fun a b => a.1 ≠ b.1 := by
  have hdistinct : t.nodes.Pairwise fun a b => a.1 ≠ b.1 := List.pairwise_map.1 t.distinct
  refine hdistinct.filterMap _ ?_
  rintro ⟨loc, node⟩ ⟨loc', node'⟩ hne entry hentry entry' hentry' hname
  obtain ⟨name, hat, rfl⟩ := Option.map_eq_some_iff.1 hentry
  obtain ⟨name', hat', rfl⟩ := Option.map_eq_some_iff.1 hentry'
  apply hne
  rw [eq_of_nameIn? hat, eq_of_nameIn? hat']
  exact congrArg (dir ++ [·]) hname

end FileTree

namespace FileSystem

variable {fs : FileSystem} {dir : DiskPath}

/-- No two entries of a directory have one name. -/
theorem distinct_entries {entries : List (FileName × Node)} (h : fs.entries dir = .ok entries) :
    entries.Pairwise fun a b => a.1 ≠ b.1 := by
  obtain ⟨s, -, h⟩ := bind_eq_ok_iff.1 h
  cases hdir : s.node.isDirectory with
  | false =>
    rw [hdir] at h
    cases h
  | true =>
    cases hreadable : s.node.info.readable with
    | false =>
      rw [hdir, hreadable] at h
      cases h
    | true =>
      rw [hdir, hreadable] at h
      cases hloc : s.location with
      | none =>
        rw [hloc] at h
        cases h
        exact .nil
      | some loc =>
        rw [hloc] at h
        cases h
        exact fs.tree.distinct_entries loc

/-- The order in which a walk takes the entries of a directory does not make two of one. -/
theorem distinct_sortedEntries {entries : List (FileName × Node)}
    (h : fs.sortedEntries dir = .ok entries) : entries.Pairwise fun a b => a.1 ≠ b.1 := by
  unfold sortedEntries at h
  split at h
  · rename_i unsorted hentries
    cases h
    have hperm := List.mergeSort_perm unsorted fun a b => decide (a.1.bytes ≤ b.1.bytes)
    exact hperm.symm.pairwise (distinct_entries hentries) fun hne => hne.symm
  · cases h

/-- A walk below a directory meets no two entries that the same names lead to: what lies below
different entries has different names at this depth, and what lies below an entry has more. -/
theorem distinct_of_walkBelow {follow : Bool} {room : Nat} {names : List FileName} {trail : Trail}
    {es : List WalkEntry}
    (h : fs.walkBelow follow (noting fun e => .ok [e]) room dir names trail = .ok es) :
    es.Pairwise fun e e' => e.names ≠ e'.names := by
  induction room generalizing dir names trail es with
  | zero => cases h
  | succ room ih =>
    rw [walkBelow_succ, bind_eq_ok_iff] at h
    obtain ⟨entries, hentries, h⟩ := h
    apply pairwise_of_gather h
    · rintro ⟨name, node⟩ - part hpart
      obtain ⟨met, hmet, hpart⟩ := bind_eq_ok_iff.1 hpart
      obtain ⟨below, rfl, hbelow⟩ := explore_all_eq_ok_iff.1 hpart
      split at hbelow
      · refine List.pairwise_cons.2 ⟨?_, ih hbelow⟩
        intro e he heq
        obtain ⟨more, hmore, hnames, -⟩ := liesBelow_of_walkBelow hbelow e he
        rw [← heq] at hnames
        exact hmore (List.self_eq_append_right.1 hnames)
      · rw [hbelow]
        apply List.pairwise_singleton
    · apply (distinct_sortedEntries hentries).imp
      rintro ⟨name, node⟩ ⟨name', node'⟩ hne part part' hpart hpart' e he e' he' heq
      obtain ⟨met, hmet, hpart⟩ := bind_eq_ok_iff.1 hpart
      obtain ⟨met', hmet', hpart'⟩ := bind_eq_ok_iff.1 hpart'
      have hstart : names ++ [name] <+: e.names := by
        rw [← (place_of_meet hmet).2]
        exact names_of_explore hpart e he
      have hstart' : names ++ [name'] <+: e.names := by
        rw [heq, ← (place_of_meet hmet').2]
        exact names_of_explore hpart' e' he'
      have hlength : (names ++ [name]).length = (names ++ [name']).length := by
        simp only [List.length_append, List.length_singleton]
      have hprefix := List.prefix_of_prefix_length_le hstart hstart' (Nat.le_of_eq hlength)
      have hboth := hprefix.eq_of_length hlength
      exact hne (List.singleton_injective (List.append_cancel_left hboth))

/-- A walk meets no two entries that the same names lead to. -/
theorem distinct_of_walk {follow : Bool} {es : List WalkEntry}
    (h : fs.walk follow dir = .ok es) : es.Pairwise fun e e' => e.names ≠ e'.names :=
  distinct_of_walkBelow h

section

variable {β : Type} {follow : Bool} {visit visit' : WalkEntry → Except UpdateError (Visit β)}
  {room : Nat} {names : List FileName} {trail : Trail}

/-- Visitors that do the same with whatever lies below a directory have the same walk there. -/
theorem walkBelow_congr (fs : FileSystem) (dir : DiskPath)
    (hsame : ∀ e : WalkEntry, names.length < e.depth → visit e = visit' e) :
    fs.walkBelow follow visit room dir names trail =
      fs.walkBelow follow visit' room dir names trail := by
  induction room generalizing dir names trail with
  | zero => rfl
  | succ room ih =>
    rw [walkBelow_visit, walkBelow_visit]
    congr 1
    funext entries
    congr 1
    funext ⟨name, node⟩
    dsimp only
    cases hmet : fs.meet follow trail (dir.child name) (names ++ [name]) node with
    | error e => rfl
    | ok e =>
      have hdepth : e.depth = names.length + 1 := by
        rw [WalkEntry.depth, (place_of_meet hmet).2, List.length_append, List.length_singleton]
      have hbelow : fs.walkBelow follow visit room e.path e.names (fs.extendTrail e.path trail) =
          fs.walkBelow follow visit' room e.path e.names (fs.extendTrail e.path trail) := by
        apply ih
        intro e' he'
        apply hsame
        rw [WalkEntry.depth] at hdepth
        omega
      dsimp only [bind, Except.bind, tour]
      rw [hsame e (by omega), hbelow]

end

end FileSystem

end ArchiveUpdate
