import ArchiveUpdate.Run.Session

/-!
# Engines

An `Engine` is what drives a run: it either is done with a result or asks something and goes on as
the answer says.  Every engine can be run against every session.
-/

set_option autoImplicit false

namespace ArchiveUpdate

/-- A course of requests that ends with a result. -/
inductive Engine (β : Type) where
  | done (result : β)
  | ask (request : Request) (next : request.Reply → Engine β)

namespace Engine

variable {β γ : Type}

/-- Goes on with another course when the first is done. -/
def bind (e : Engine β) (f : β → Engine γ) : Engine γ :=
  match e with
  | done b => f b
  | ask q next => ask q fun r => (next r).bind f

instance : Monad Engine where
  pure := done
  bind := bind

instance [Inhabited β] : Inhabited (Engine β) := ⟨done default⟩

/-- The course that asks one thing and ends with the answer. -/
def request (q : Request) : Engine q.Reply := ask q done

/-- Reads on from the data handed out last until `want` bytes have come, nothing more comes or a
read fails, in at most `rounds` reads: the bytes and the failure, if any. -/
def fetch (want : Nat) : (rounds : Nat) → Engine (Bytes × Option IoError)
  | 0 => done ([], none)
  | rounds + 1 =>
    if want = 0 then done ([], none)
    else ask (.read want) fun
      | .error e => done ([], some e)
      | .ok [] => done ([], none)
      | .ok got => (fetch (want - got.length) rounds).bind fun (more, fault) =>
        done (got ++ more, fault)

/-- Runs an engine against a session. -/
def run {α ρ : Type} [Archive α] [Reporter ρ] (e : Engine β) (s : Session α ρ) :
    β × Session α ρ :=
  match e with
  | done b => (b, s)
  | ask q next =>
    let (r, s) := s.answer q
    (next r).run s

end Engine

end ArchiveUpdate
