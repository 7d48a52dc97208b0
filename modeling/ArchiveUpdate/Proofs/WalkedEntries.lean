import ArchiveUpdate.FileSystem.Walk
import ArchiveUpdate.Proofs.Collecting

/-!
# What a walk that enters everything finds

A walk interleaves its own steps with those of its visitor.  When the visitor enters every directory
the two can be told apart: such a walk succeeds exactly if the plain walk does and the visitor
succeeds on each of its entries, and it finds what the visitor finds on them, in the order of the
walk (`walkWith_noting`).  What a walk meets lies below the directory (`liesBelow_of_walkBelow`).
-/

set_option autoImplicit false

namespace ArchiveUpdate

/-- An entry lies below the directory at a path that the given names lead to: more names lead to the
entry, and its path extends that of the directory by them. -/
def WalkEntry.LiesBelow (dir : DiskPath) (names : List FileName) (e : WalkEntry) : Prop :=
  ∃ more, more ≠ [] ∧ e.names = names ++ more ∧ e.path = more.foldl DiskPath.child dir

namespace FileSystem

variable {β : Type}

/-- The visitor that finds something on each entry, or fails on it, and enters every directory. -/
def noting (found : WalkEntry → Except UpdateError (List β)) (e : WalkEntry) :
    Except UpdateError (Visit β) :=
  (found e).map fun l => ⟨l, true⟩

/-- What a walk that enters everything finds at an entry and below it. -/
def explore (fs : FileSystem) (follow : Bool) (found : WalkEntry → Except UpdateError (List β))
    (room : Nat) (trail : Trail) (e : WalkEntry) : Except UpdateError (List β) := do
  let part ← found e
  if e.node.isDirectory then
    let below ← fs.walkBelow follow (noting found) room e.path e.names (fs.extendTrail e.path trail)
    pure (part ++ below)
  else pure part

/-- What a walk finds at an entry and, if its visitor enters it, below. -/
def tour (fs : FileSystem) (follow : Bool) (visit : WalkEntry → Except UpdateError (Visit β))
    (room : Nat) (trail : Trail) (e : WalkEntry) : Except UpdateError (List β) := do
  let v ← visit e
  if v.enter ∧ e.node.isDirectory then
    let below ← fs.walkBelow follow visit room e.path e.names (fs.extendTrail e.path trail)
    pure (v.found ++ below)
  else pure v.found

/-- A walk takes the entries of the directory one after the other. -/
theorem walkBelow_visit (fs : FileSystem) (follow : Bool)
    (visit : WalkEntry → Except UpdateError (Visit β)) (room : Nat) (dir : DiskPath)
    (names : List FileName) (trail : Trail) :
    fs.walkBelow follow visit (room + 1) dir names trail = (do
      let entries ← fs.sortedEntries dir
      entries |> gather fun (name, node) => do
        let e ← fs.meet follow trail (dir.child name) (names ++ [name]) node
        fs.tour follow visit room trail e) := by
  rw [walkBelow]
  cases fs.sortedEntries dir with
  | error e => rfl
  | ok entries =>
    show gather _ entries = gather _ entries
    congr 1
    funext ⟨name, node⟩
    dsimp only
    cases fs.meet follow trail (dir.child name) (names ++ [name]) node with
    | error e => rfl
    | ok e =>
      dsimp only [bind, Except.bind, tour]
      cases visit e with
      | error e => rfl
      | ok v =>
        dsimp only
        split
        · cases fs.walkBelow follow visit room e.path e.names (fs.extendTrail e.path trail) <;> rfl
        · rfl

/-- A tour succeeds if the visit does, and what is below if it is entered. -/
theorem tour_eq_ok_iff {fs : FileSystem} {follow : Bool}
    {visit : WalkEntry → Except UpdateError (Visit β)} {room : Nat} {trail : Trail} {e : WalkEntry}
    {l : List β} : fs.tour follow visit room trail e = .ok l ↔
      ∃ v, visit e = .ok v ∧ if v.enter ∧ e.node.isDirectory then
        ∃ below, fs.walkBelow follow visit room e.path e.names (fs.extendTrail e.path trail) =
          .ok below ∧ v.found ++ below = l
      else v.found = l := by
  unfold tour
  rw [bind_eq_ok_iff]
  apply exists_congr
  intro v
  split
  · rw [bind_eq_ok_iff]
    simp only [pure, Except.pure, Except.ok.injEq]
  · simp only [pure, Except.pure, Except.ok.injEq]

/-- The tour of a visitor that enters everything explores everything. -/
theorem tour_noting (fs : FileSystem) (follow : Bool)
    (found : WalkEntry → Except UpdateError (List β)) (room : Nat) (trail : Trail)
    (e : WalkEntry) :
    fs.tour follow (noting found) room trail e = fs.explore follow found room trail e := by
  unfold tour explore
  conv => lhs; arg 1; unfold noting
  cases found e with
  | error cause => rfl
  | ok part =>
    dsimp only [bind, Except.bind, Except.map]
    simp only [true_and]

/-- Everything below a directory is explored entry by entry, in the order of the names. -/
theorem walkBelow_succ (fs : FileSystem) (follow : Bool)
    (found : WalkEntry → Except UpdateError (List β)) (room : Nat) (dir : DiskPath)
    (names : List FileName) (trail : Trail) :
    fs.walkBelow follow (noting found) (room + 1) dir names trail = (do
      let entries ← fs.sortedEntries dir
      entries |> gather fun (name, node) => do
        let e ← fs.meet follow trail (dir.child name) (names ++ [name]) node
        fs.explore follow found room trail e) := by
  rw [walkBelow_visit]
  simp only [tour_noting]

/-- Exploring succeeds if something is found on the entry, and below it if it is a directory. -/
theorem explore_eq_ok_iff {fs : FileSystem} {follow : Bool}
    {found : WalkEntry → Except UpdateError (List β)} {room : Nat} {trail : Trail} {e : WalkEntry}
    {l : List β} : fs.explore follow found room trail e = .ok l ↔
      ∃ part, found e = .ok part ∧ if e.node.isDirectory then
        ∃ below, fs.walkBelow follow (noting found) room e.path e.names
          (fs.extendTrail e.path trail) = .ok below ∧ part ++ below = l
      else part = l := by
  unfold explore
  rw [bind_eq_ok_iff]
  cases e.node.isDirectory with
  | true =>
    simp only [if_true]
    apply exists_congr
    intro part
    rw [bind_eq_ok_iff]
    simp only [pure, Except.pure, Except.ok.injEq]
  | false =>
    simp only [Bool.false_eq_true, if_false, pure, Except.pure, Except.ok.injEq]

/-- What the plain walk meets at an entry and below it begins with the entry. -/
theorem explore_all_eq_ok_iff {fs : FileSystem} {follow : Bool} {room : Nat} {trail : Trail}
    {e : WalkEntry} {es : List WalkEntry} :
    fs.explore follow (fun e => .ok [e]) room trail e = .ok es ↔
      ∃ below, es = e :: below ∧ if e.node.isDirectory then
        fs.walkBelow follow (noting fun e => .ok [e]) room e.path e.names
          (fs.extendTrail e.path trail) = .ok below
      else below = [] := by
  rw [explore_eq_ok_iff]
  simp only [Except.ok.injEq, exists_eq_left']
  cases e.node.isDirectory with
  | true =>
    simp only [if_true, List.singleton_append]
    apply exists_congr
    intro below
    rw [and_comm, eq_comm]
  | false => simp [eq_comm]

/-- The walk below a directory can be done first and its entries be looked at afterwards.  The
induction is on the depth that is left. -/
theorem walkBelow_noting (fs : FileSystem) (follow : Bool)
    (found : WalkEntry → Except UpdateError (List β)) (room : Nat) (dir : DiskPath)
    (names : List FileName) (trail : Trail) (l : List β) :
    fs.walkBelow follow (noting found) room dir names trail = .ok l ↔
      ∃ es, fs.walkBelow follow (noting fun e => .ok [e]) room dir names trail = .ok es ∧
        gather found es = .ok l := by
  induction room generalizing dir names trail l with
  | zero => simp [walkBelow]
  | succ room ih =>
    rw [walkBelow_succ, walkBelow_succ]
    cases fs.sortedEntries dir with
    | error e => simp [bind, Except.bind]
    | ok entries =>
      apply gather_fuse
      rintro ⟨name, node⟩ l
      dsimp only
      cases fs.meet follow trail (dir.child name) (names ++ [name]) node with
      | error e => simp [bind, Except.bind]
      | ok e =>
        show fs.explore follow found room trail e = .ok l ↔
          ∃ es, fs.explore follow (fun e => .ok [e]) room trail e = .ok es ∧ gather found es = .ok l
        simp only [explore_eq_ok_iff, ih, Except.ok.injEq, exists_eq_left']
        cases e.node.isDirectory with
        | true =>
          simp only [if_true]
          constructor
          · rintro ⟨part, hpart, below, ⟨es, hes, hbelow⟩, hl⟩
            exact ⟨[e] ++ es, ⟨es, hes, rfl⟩,
              gather_cons_eq_ok_iff.2 ⟨part, below, hpart, hbelow, hl⟩⟩
          · rintro ⟨_, ⟨es, hes, rfl⟩, hg⟩
            obtain ⟨part, below, hpart, hbelow, hl⟩ := gather_cons_eq_ok_iff.1 hg
            exact ⟨part, hpart, below, ⟨es, hes, hbelow⟩, hl⟩
        | false =>
          simp only [Bool.false_eq_true, if_false, exists_eq_left']
          rw [gather_cons_eq_ok_iff]
          simp [eq_comm]

/-- A walk that enters everything finds what there is to find on the entries of the plain walk. -/
theorem walkWith_noting (fs : FileSystem) (follow : Bool)
    (found : WalkEntry → Except UpdateError (List β)) (dir : DiskPath) (l : List β) :
    fs.walkWith follow (noting found) dir = .ok l ↔
      ∃ es, fs.walk follow dir = .ok es ∧ gather found es = .ok l :=
  walkBelow_noting fs follow found _ dir [] _ l

/-- A walk meets an entry at the path and by the names that it came along. -/
theorem place_of_meet {fs : FileSystem} {follow : Bool} {trail : Trail} {path : DiskPath}
    {names : List FileName} {node : Node} {e : WalkEntry}
    (h : fs.meet follow trail path names node = .ok e) : e.path = path ∧ e.names = names := by
  unfold meet at h
  split at h
  · split at h
    · cases h
    · split at h
      · cases h
      · cases h
        exact ⟨rfl, rfl⟩
  · cases h
    exact ⟨rfl, rfl⟩

/-- What a walk meets in a directory that the given names lead to lies below it: more names lead
there, and they extend the path of the directory.  The induction is on the depth that is left. -/
theorem liesBelow_of_walkBelow {fs : FileSystem} {follow : Bool} {room : Nat} {dir : DiskPath}
    {names : List FileName} {trail : Trail} {es : List WalkEntry}
    (h : fs.walkBelow follow (noting fun e => .ok [e]) room dir names trail = .ok es) :
    ∀ e ∈ es, e.LiesBelow dir names := by
  induction room generalizing dir names trail es with
  | zero => cases h
  | succ room ih =>
    rw [walkBelow_succ, bind_eq_ok_iff] at h
    obtain ⟨entries, -, h⟩ := h
    intro e he
    obtain ⟨⟨name, node⟩, -, part, hpart, he⟩ := mem_of_gather h he
    obtain ⟨met, hmet, hpart⟩ := bind_eq_ok_iff.1 hpart
    obtain ⟨below, rfl, hbelow⟩ := explore_all_eq_ok_iff.1 hpart
    obtain ⟨hpath, hnames⟩ := place_of_meet hmet
    rcases List.mem_cons.1 he with rfl | he
    · exact ⟨[name], List.cons_ne_nil _ _, hnames, hpath⟩
    · split at hbelow
      · obtain ⟨more, -, hnames', hpath'⟩ := ih hbelow e he
        refine ⟨name :: more, List.cons_ne_nil _ _, ?_, ?_⟩
        · rw [hnames', hnames, List.append_assoc, List.singleton_append]
        · rw [hpath', hpath, List.foldl_cons]
      · rw [hbelow] at he
        cases he

/-- What is explored from an entry has the names of the entry in front. -/
theorem names_of_explore {fs : FileSystem} {follow : Bool} {room : Nat} {trail : Trail}
    {met : WalkEntry} {es : List WalkEntry}
    (h : fs.explore follow (fun e => .ok [e]) room trail met = .ok es) :
    ∀ e ∈ es, met.names <+: e.names := by
  obtain ⟨below, rfl, hbelow⟩ := explore_all_eq_ok_iff.1 h
  intro e he
  rcases List.mem_cons.1 he with rfl | he
  · exact List.prefix_rfl
  · split at hbelow
    · obtain ⟨more, -, hnames, -⟩ := liesBelow_of_walkBelow hbelow e he
      rw [hnames]
      apply List.prefix_append
    · rw [hbelow] at he
      cases he

/-- What a walk meets has a name. -/
theorem names_ne_nil_of_walk {fs : FileSystem} {follow : Bool} {dir : DiskPath}
    {es : List WalkEntry} (h : fs.walk follow dir = .ok es) : ∀ e ∈ es, e.names ≠ [] := by
  intro e he
  obtain ⟨more, hmore, hnames, -⟩ := liesBelow_of_walkBelow h e he
  rw [hnames]
  exact hmore

/-- A directory whose only entry is no directory itself and no link either. -/
theorem walk_of_one_entry {fs : FileSystem} {follow : Bool} {dir : DiskPath} {name : FileName}
    {node : Node} (hentries : fs.entries dir = .ok [(name, node)])
    (hfile : node.isDirectory = false) (hlink : node.target? = none) :
    fs.walk follow dir = .ok [⟨dir.child name, [name], node, false⟩] := by
  have hsorted : fs.sortedEntries dir = .ok [(name, node)] := by
    unfold sortedEntries
    rw [hentries]
    simp
  have hmeet : ∀ trail, fs.meet follow trail (dir.child name) [name] node =
      .ok ⟨dir.child name, [name], node, false⟩ := by
    intro trail
    unfold meet
    rw [hlink]
    simp
  show fs.walkBelow follow (noting fun e => .ok [e]) (4095 + 1) dir [] _ = _
  rw [walkBelow_succ]
  refine bind_eq_ok_iff.2 ⟨_, hsorted, gather_cons_eq_ok_iff.2 ⟨_, [], ?_, rfl, List.append_nil _⟩⟩
  refine bind_eq_ok_iff.2 ⟨_, hmeet _, explore_eq_ok_iff.2 ⟨_, rfl, ?_⟩⟩
  rw [hfile]
  rfl

end FileSystem

end ArchiveUpdate
