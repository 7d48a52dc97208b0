/-!
# Lists cut at a separator

`split` cuts a list at every separator and `join` puts the pieces together again.  They undo each
other: joining what was split gives the list back (`join_split`), and splitting what was joined
gives the pieces back when no piece holds the separator (`split_join`).
-/

set_option autoImplicit false

namespace ArchiveUpdate.Segments

variable {α : Type}

/-- The pieces between the separators; always at least one. -/
def split [DecidableEq α] (sep : α) : List α → List (List α)
  | [] => [[]]
  | x :: xs =>
    if x = sep then [] :: split sep xs
    else match split sep xs with
      | [] => [[x]]
      | piece :: rest => (x :: piece) :: rest

/-- The pieces in a row, with a separator between neighbours. -/
def join (sep : α) : List (List α) → List α
  | [] => []
  | [piece] => piece
  | piece :: next :: rest => piece ++ sep :: join sep (next :: rest)

section

variable [DecidableEq α]

/-- There is at least one piece. -/
theorem split_ne_nil (sep : α) (xs : List α) : split sep xs ≠ [] := by
  cases xs with
  | nil => simp [split]
  | cons x xs =>
    unfold split
    split
    · simp
    · split <;> simp

/-- Joining what was split gives the list back. -/
theorem join_split (sep : α) (xs : List α) : join sep (split sep xs) = xs := by
  induction xs with
  | nil => rfl
  | cons x xs ih =>
    unfold split
    cases h : split sep xs with
    | nil => exact absurd h (split_ne_nil sep xs)
    | cons piece rest =>
      rw [h] at ih
      by_cases hx : x = sep
      · simp [hx, join, ih]
      · cases rest <;> simp_all [join]

/-- No piece holds the separator. -/
theorem not_mem_of_mem_split {sep : α} {xs piece : List α} (h : piece ∈ split sep xs) :
    sep ∉ piece := by
  induction xs generalizing piece with
  | nil => simp_all [split]
  | cons x xs ih =>
    unfold split at h
    cases hs : split sep xs with
    | nil => exact absurd hs (split_ne_nil sep xs)
    | cons head rest =>
      rw [hs] at h ih
      by_cases hx : x = sep
      · simp only [hx, if_true, List.mem_cons] at h
        rcases h with rfl | h
        · simp
        · exact ih (List.mem_cons.2 h)
      · simp only [hx, if_false, List.mem_cons] at h
        rcases h with rfl | h
        · have hd : sep ∉ head := ih (List.mem_cons_self ..)
          simp only [List.mem_cons, not_or]
          exact ⟨fun e => hx e.symm, hd⟩
        · exact ih (List.mem_cons_of_mem _ h)

/-- Without a separator there is one piece. -/
theorem split_of_not_mem {sep : α} {xs : List α} (h : sep ∉ xs) : split sep xs = [xs] := by
  induction xs with
  | nil => rfl
  | cons x xs ih =>
    simp only [List.mem_cons, not_or] at h
    simp [split, ih h.2, Ne.symm h.1]

/-- A separator cuts a list into two, whatever lies around it. -/
theorem split_append_cons (sep : α) (xs ys : List α) :
    split sep (xs ++ sep :: ys) = split sep xs ++ split sep ys := by
  induction xs with
  | nil => simp [split]
  | cons x xs ih =>
    rw [List.cons_append, split, split, ih]
    by_cases hx : x = sep
    · simp [hx]
    · obtain ⟨piece, rest, hrest⟩ := List.exists_cons_of_ne_nil (split_ne_nil sep xs)
      simp [hx, hrest]

/-- The first piece ends at the first separator. -/
theorem split_append {sep : α} {xs ys : List α} (h : sep ∉ xs) :
    split sep (xs ++ sep :: ys) = xs :: split sep ys := by
  rw [split_append_cons, split_of_not_mem h, List.singleton_append]

/-- Splitting what was joined gives the pieces back. -/
theorem split_join {sep : α} {pieces : List (List α)} (hne : pieces ≠ [])
    (h : ∀ piece ∈ pieces, sep ∉ piece) : split sep (join sep pieces) = pieces := by
  induction pieces with
  | nil => exact absurd rfl hne
  | cons piece rest ih =>
    cases rest with
    | nil => simpa [join] using split_of_not_mem (h piece (by simp))
    | cons next rest =>
      rw [join, split_append (h piece (by simp)), ih (by simp) fun q hq => h q (by simp [hq])]

end

/-- Two lists of pieces are joined by a separator between what they make. -/
theorem join_append {sep : α} {pieces pieces' : List (List α)} (hne : pieces ≠ [])
    (hne' : pieces' ≠ []) :
    join sep (pieces ++ pieces') = join sep pieces ++ sep :: join sep pieces' := by
  induction pieces with
  | nil => exact absurd rfl hne
  | cons piece rest ih =>
    cases rest with
    | nil =>
      obtain ⟨next, rest, rfl⟩ := List.exists_cons_of_ne_nil hne'
      rfl
    | cons next rest => simpa [join] using ih (by simp)

/-- One piece more is joined behind a separator. -/
theorem join_concat {sep : α} {pieces : List (List α)} (hne : pieces ≠ []) (last : List α) :
    join sep (pieces ++ [last]) = join sep pieces ++ sep :: last :=
  join_append hne (List.cons_ne_nil last [])

/-- What is in a piece is in what the pieces make. -/
theorem mem_join_of_mem {sep x : α} {pieces : List (List α)} {piece : List α}
    (hp : piece ∈ pieces) (hx : x ∈ piece) : x ∈ join sep pieces := by
  induction pieces with
  | nil => simp at hp
  | cons head rest ih =>
    cases rest with
    | nil => simp_all [join]
    | cons next rest =>
      simp only [join, List.mem_append, List.mem_cons]
      rcases List.mem_cons.1 hp with rfl | hp
      · exact .inl hx
      · exact .inr (.inr (ih hp))

/-- What pieces make holds nothing but separators and what is in them. -/
theorem mem_join {sep x : α} {pieces : List (List α)} (h : x ∈ join sep pieces) :
    x = sep ∨ ∃ piece ∈ pieces, x ∈ piece := by
  induction pieces with
  | nil => simp [join] at h
  | cons piece rest ih =>
    cases rest with
    | nil => exact .inr ⟨piece, by simp, by simpa [join] using h⟩
    | cons next rest =>
      simp only [join, List.mem_append, List.mem_cons] at h
      rcases h with h | h | h
      · exact .inr ⟨piece, by simp, h⟩
      · exact .inl h
      · rcases ih h with h | ⟨q, hq, hx⟩
        · exact .inl h
        · exact .inr ⟨q, List.mem_cons_of_mem _ hq, hx⟩

end ArchiveUpdate.Segments
