/-!
# Collecting with failure

`gather` runs a function over a list and puts its answers in a row; the first failure is the answer
of the whole.
-/

set_option autoImplicit false

namespace ArchiveUpdate

variable {ε α β : Type}

/-- The answers for all elements, in order, or the first failure. -/
def gather (f : α → Except ε (List β)) : List α → Except ε (List β)
  | [] => .ok []
  | a :: as =>
    match f a with
    | .error e => .error e
    | .ok found =>
      match gather f as with
      | .error e => .error e
      | .ok more => .ok (found ++ more)

/-- From nothing nothing is gathered. -/
@[simp] theorem gather_nil (f : α → Except ε (List β)) : gather f [] = .ok [] := rfl

/-- Gathering from two lists is gathering from the first and then from the second, up to the first
failure. -/
theorem gather_append (f : α → Except ε (List β)) (as bs : List α) :
    gather f (as ++ bs) = match gather f as with
      | .error e => .error e
      | .ok found => match gather f bs with
        | .error e => .error e
        | .ok more => .ok (found ++ more) := by
  induction as with
  | nil => simp only [List.nil_append, gather_nil]; cases gather f bs <;> simp
  | cons a as ih =>
    simp only [List.cons_append, gather, ih]
    cases f a with
    | error e => rfl
    | ok found =>
      cases gather f as with
      | error e => rfl
      | ok more => cases gather f bs <;> simp

end ArchiveUpdate
