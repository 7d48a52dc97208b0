import ArchiveUpdate.Proofs.TextsOnDisk

/-!
# Detours in paths

What a path on disk stands for is what its steps make of the empty path or of the root, one after
the other, and the steps of bytes joined by a slash are those of the parts (`DiskPath.steps_slash`).
So a text whose steps cancel each other can be written between any two components without changing
the normal form, and with it what the names of the path make
(`ItemPath.detours_leave_derived_path`).
-/

set_option autoImplicit false

namespace ArchiveUpdate

namespace DiskPath

open Component

/-- The components that bytes between two parts of a path stand for, without single dots. -/
def steps (bytes : Bytes) : List Component :=
  ((Segments.split slashByte bytes).filterMap ofPiece?).filter (· ≠ .here)

/-- Single dots do not count among the steps. -/
theorem foldl_push_filter (kept cs : List Component) :
    (cs.filter (· ≠ .here)).foldl push kept = cs.foldl push kept := by
  induction cs generalizing kept with
  | nil => rfl
  | cons c cs ih =>
    cases c with
    | here => exact ih kept
    | root => exact ih _
    | up => exact ih _
    | name bytes => exact ih _

/-- What the steps of a path begin with. -/
def origin (p : DiskPath) : List Component := if p.isAbsolute then [.root] else []

/-- The normal form comes of the root, if there is one, and the steps: single dots do not count,
wherever they stand. -/
theorem normal_eq (p : DiskPath) : p.normal = ((steps p.bytes).foldl push p.origin).reverse := by
  unfold normal components steps origin
  congr 1
  dsimp only
  split
  · rfl
  · split
    · rename_i rest hrest
      rw [hrest]
      exact (foldl_push_filter [] rest).trans (foldl_push_filter [] rest).symm
    · rfl

/-- The steps of two parts with a slash between them are those of each. -/
theorem steps_slash (front back : Bytes) :
    steps (front ++ slashByte :: back) = steps front ++ steps back := by
  unfold steps
  rw [Segments.split_append_cons, List.filterMap_append, List.filter_append]

/-- Whether a part that follows these bytes is a component of its own. -/
def Closed (front : Bytes) : Prop := front = [] ∨ front.getLast? = some slashByte

/-- Whether a part that precedes these bytes is a component of its own. -/
def Opened (back : Bytes) : Prop := back = [] ∨ back.head? = some slashByte

instance (front : Bytes) : Decidable (Closed front) := inferInstanceAs (Decidable (_ ∨ _))

instance (back : Bytes) : Decidable (Opened back) := inferInstanceAs (Decidable (_ ∨ _))

/-- The same holds without the slash where one of the parts brings it. -/
theorem steps_append {front back : Bytes} (h : Closed front ∨ Opened back) :
    steps (front ++ back) = steps front ++ steps back := by
  rcases h with (rfl | hlast) | (rfl | hhead)
  · rfl
  · obtain ⟨rest, rfl⟩ := List.getLast?_eq_some_iff.1 hlast
    rw [List.append_assoc, List.singleton_append, steps_slash, steps_slash]
    exact (congrArg (· ++ steps back) (List.append_nil (steps rest))).symm
  · rw [List.append_nil]
    exact (List.append_nil (steps front)).symm
  · obtain ⟨rest, rfl⟩ := List.head?_eq_some_iff.1 hhead
    rw [steps_slash]
    rfl

/-- A place between two components of a path, behind its root if it has one. -/
structure Boundary (p : DiskPath) (front back : Bytes) : Prop where
  bytes_eq : p.bytes = front ++ back
  below_root : p.isAbsolute = true → front ≠ []
  between : Closed front ∨ Opened back

/-- The path with a text written into it at such a place, with slashes around it where they are
needed. -/
def written (front text back : Bytes) : DiskPath :=
  ⟨(if Closed front then front else front ++ [slashByte]) ++ text ++
    if Opened back then back else slashByte :: back⟩

/-- What is written in between two parts adds its own steps. -/
theorem steps_written (front text back : Bytes) :
    steps (written front text back).bytes = steps front ++ steps text ++ steps back := by
  have hfront : steps ((if Closed front then front else front ++ [slashByte]) ++ text) =
      steps front ++ steps text := by
    split
    · rename_i hclosed
      exact steps_append (.inl hclosed)
    · rw [List.append_assoc, List.singleton_append, steps_slash]
  by_cases hopened : Opened back
  · simp only [written, if_pos hopened]
    rw [steps_append (.inr hopened), hfront]
  · simp only [written, if_neg hopened]
    rw [steps_slash, hfront]

/-- What is written in at a boundary does not make a path begin at the root or cease to. -/
theorem isAbsolute_written {p : DiskPath} {front back text : Bytes} (h : p.Boundary front back)
    (htext : text ≠ [] ∧ text.head? ≠ some slashByte) :
    (written front text back).isAbsolute = p.isAbsolute := by
  obtain ⟨b, rest, rfl⟩ := List.exists_cons_of_ne_nil htext.1
  cases front with
  | nil =>
    have hrelative : p.isAbsolute = false := by
      cases habsolute : p.isAbsolute with
      | false => rfl
      | true => exact absurd rfl (h.below_root habsolute)
    rw [hrelative]
    simpa [written, Closed, isAbsolute] using htext.2
  | cons c front =>
    unfold written isAbsolute
    rw [h.bytes_eq]
    split <;> simp

/-- A text whose steps cancel each other where it is written leaves the normal form as it is. -/
theorem normal_written {p : DiskPath} {front back text : Bytes} (h : p.Boundary front back)
    (htext : text ≠ [] ∧ text.head? ≠ some slashByte)
    (hcancels : (steps text).foldl push ((steps front).foldl push p.origin) =
      (steps front).foldl push p.origin) :
    (written front text back).normal = p.normal := by
  have horigin : (written front text back).origin = p.origin := by
    rw [origin, isAbsolute_written h htext, origin]
  rw [normal_eq, normal_eq, steps_written, horigin, h.bytes_eq, steps_append h.between,
    List.foldl_append, List.foldl_append, List.foldl_append, hcancels]

/-- A piece between slashes is a single step. -/
theorem steps_of_piece {piece : Bytes} (h : slashByte ∉ piece) :
    steps piece = (ofPiece? piece).toList.filter (· ≠ .here) := by
  unfold steps
  rw [Segments.split_of_not_mem h]
  cases hpiece : ofPiece? piece <;> simp [hpiece]

/-- The bytes of a name with a double dot behind it. -/
def detour (name : Bytes) : Bytes := name ++ slashByte :: [dotByte, dotByte]

/-- A detour is a step to the name and a step back. -/
theorem steps_detour {name : Bytes} (hname : IsName name) (hslash : slashByte ∉ name) :
    steps (detour name) = [.name name, .up] := by
  have hpiece : ofPiece? name = some (.name name) := by
    unfold ofPiece?
    rw [if_neg hname.1, if_neg hname.2.1, if_neg hname.2.2]
  rw [detour, steps_slash, steps_of_piece hslash, hpiece]
  rfl

/-- A name and a double dot behind it cancel each other on whatever was kept so far. -/
theorem foldl_push_detour (kept : List Component) (name : Bytes) :
    [.name name, .up].foldl push kept = kept := rfl

/-- Slashes are no steps. -/
theorem steps_of_slashes {front : Bytes} (h : ∀ b ∈ front, b = slashByte) : steps front = [] := by
  induction front with
  | nil => rfl
  | cons b front ih =>
    obtain ⟨rfl, hrest⟩ := List.forall_mem_cons.1 h
    exact (steps_slash [] front).trans (ih hrest)

section

variable {p : DiskPath} {front back : Bytes}

/-- A detour into a directory and out of it again does not change where a path leads. -/
theorem normal_written_detour (h : p.Boundary front back) {name : Bytes} (hname : IsName name)
    (hslash : slashByte ∉ name) : (written front (detour name) back).normal = p.normal := by
  apply normal_written h
  · obtain ⟨b, rest, rfl⟩ := List.exists_cons_of_ne_nil hname.1
    refine ⟨nofun, fun hhead => hslash ?_⟩
    rw [← Option.some.inj hhead]
    exact List.mem_cons_self
  · rw [steps_detour hname hslash, foldl_push_detour]

/-- A single dot that is written in does not change the normal form. -/
theorem normal_written_dot (h : p.Boundary front back) :
    (written front [dotByte] back).normal = p.normal :=
  normal_written h ⟨nofun, by decide⟩ rfl

/-- Nothing lies above the root. -/
theorem normal_written_dots (h : p.Boundary front back) (hne : front ≠ [])
    (hslashes : ∀ b ∈ front, b = slashByte) :
    (written front [dotByte, dotByte] back).normal = p.normal := by
  have habsolute : p.isAbsolute = true := by
    obtain ⟨b, rest, rfl⟩ := List.exists_cons_of_ne_nil hne
    obtain rfl := hslashes b List.mem_cons_self
    rw [isAbsolute, h.bytes_eq]
    rfl
  refine normal_written h ⟨List.cons_ne_nil _ _, by decide⟩ ?_
  rw [steps_of_slashes hslashes, origin, if_pos habsolute]
  rfl

end

end DiskPath

namespace ItemPath

variable {p q : DiskPath}

/-- All names of a path have a text if each is read as one. -/
theorem diskNames_eq_ok_iff {texts : List String} : diskNames p = .ok texts ↔
    List.Forall₂ (fun bytes text => Utf8.decode? bytes = some text) p.names texts := by
  have hnames : diskNames p = p.names.mapM (nameText p) := rfl
  rw [hnames, mapM_eq_ok_iff]
  simp only [nameText_eq_ok_iff]

/-- Paths with the same normal form have the same names make a path, or they all fail to. -/
theorem toOption_ofDiskNames? (h : q.normal = p.normal) :
    (ofDiskNames? q).toOption = (ofDiskNames? p).toOption := by
  have hnames : q.names = p.names := by
    rw [DiskPath.names, h, DiskPath.names]
  have hok : ∀ found, ofDiskNames? q = .ok found ↔ ofDiskNames? p = .ok found := by
    intro found
    unfold ofDiskNames?
    simp only [bind_eq_ok_iff, diskNames_eq_ok_iff, hnames]
  cases hp : ofDiskNames? p with
  | ok found =>
    rw [(hok found).2 hp]
  | error e =>
    cases hq : ofDiskNames? q with
    | ok found =>
      rw [(hok found).1 hq] at hp
      cases hp
    | error e' => rfl

/-- It makes no difference to a path whether these bytes are written in between two parts of it: the
normal form stays, and all names still make the same path inside the archive or still fail to. -/
def NoDifference (p : DiskPath) (front text back : Bytes) : Prop :=
  (DiskPath.written front text back).normal = p.normal ∧
    (ofDiskNames? (DiskPath.written front text back)).toOption = (ofDiskNames? p).toOption

/-- What does not change the normal form makes no difference. -/
theorem noDifference_of_normal {front text back : Bytes}
    (h : (DiskPath.written front text back).normal = p.normal) : NoDifference p front text back :=
  ⟨h, toOption_ofDiskNames? h⟩

open DiskPath in
/-- Wherever a path on disk may go on with another component, a name with a double dot behind it, or
a single dot, can be written in: the normal form stays, and all names still make the same path, or
still fail to make one.  Right behind the root a double dot alone can be written in.  The text of a
path inside an archive, taken as a path on disk, is a fixed point of both derivations. -/
theorem detours_leave_derived_path :
    (∀ (p : DiskPath) (front back : Bytes), p.Boundary front back →
      (∀ name, IsName name → slashByte ∉ name → NoDifference p front (detour name) back) ∧
        NoDifference p front [dotByte] back ∧
        (front ≠ [] → (∀ b ∈ front, b = slashByte) →
          NoDifference p front [dotByte, dotByte] back)) ∧
    ∀ a : ItemPath, ofDiskNames? (DiskPath.ofString a.text) = .ok (some a) ∧
      ofDisk? (DiskPath.ofString a.text) none = .ok (some a) := by
  refine ⟨?_, ?_⟩
  · intro p front back h
    refine ⟨?_, ?_, ?_⟩
    · intro name hname hslash
      exact noDifference_of_normal (normal_written_detour h hname hslash)
    · exact noDifference_of_normal (normal_written_dot h)
    · intro hne hslashes
      exact noDifference_of_normal (normal_written_dots h hne hslashes)
  · intro a
    have hfixed := a.ofDiskNames?_ofString
    exact ⟨hfixed, (ofDisk?_of_isPlain a.isPlain_ofString).trans hfixed⟩

open DiskPath in
/-- In `/a//b` a name that is no text can be entered and left between the two slashes, and behind
the root a double dot can be put: all names make `a/b` as before. -/
theorem detours_leave_derived_path_of_absolute :
    let p : DiskPath := ⟨[slashByte, 0x61, slashByte, slashByte, 0x62]⟩
    let q : DiskPath := ⟨[slashByte, 0x61, slashByte, 0xFF, slashByte, dotByte, dotByte, slashByte,
      0x62]⟩
    let r : DiskPath := ⟨[slashByte, dotByte, dotByte, slashByte, 0x61, slashByte, slashByte, 0x62]⟩
    p.Boundary [slashByte, 0x61, slashByte] [slashByte, 0x62] ∧
      p.Boundary [slashByte] [0x61, slashByte, slashByte, 0x62] ∧ IsName [0xFF] ∧
      ∃ a : ItemPath, a.text = "a/b" ∧ (ofDiskNames? q).toOption = some (some a) ∧
        (ofDiskNames? r).toOption = some (some a) := by
  intro p q r
  have hbetween : p.Boundary [slashByte, 0x61, slashByte] [slashByte, 0x62] :=
    ⟨rfl, fun _ => List.cons_ne_nil _ _, by decide⟩
  have hroot : p.Boundary [slashByte] [0x61, slashByte, slashByte, 0x62] :=
    ⟨rfl, fun _ => List.cons_ne_nil _ _, by decide⟩
  have hname : IsName [0xFF] := by decide
  obtain ⟨hdetours, -⟩ := detours_leave_derived_path
  obtain ⟨hdetour, -, -⟩ := hdetours p _ _ hbetween
  obtain ⟨-, -, hdots⟩ := hdetours p _ _ hroot
  obtain ⟨a, ha, hp⟩ : ∃ a : ItemPath, a.text = "a/b" ∧
      (ofDiskNames? p).toOption = some (some a) :=
    ⟨⟨"a/b", by decide, (PathFault.of?_eq_none_iff.1 rfl).2⟩, rfl, rfl⟩
  refine ⟨hbetween, hroot, hname, a, ha, ?_, ?_⟩
  · exact (hdetour [0xFF] hname (by decide)).2.trans hp
  · exact (hdots (List.cons_ne_nil _ _) (List.forall_mem_singleton.2 rfl)).2.trans hp

end ItemPath

end ArchiveUpdate
