import ArchiveUpdate.Proofs.RunWindow
import ArchiveUpdate.Proofs.SourceFrames
import Mathlib.Algebra.Ring.Nat
import Mathlib.Data.List.Nodup

/-!
# What a run hands out

Each request for data that is granted starts a `Delivery`: the answer, and the reads that follow
before anything else is asked.  All other requests give back what was read last and open nothing
(`givesBack_answer`), so whatever is read belongs to a delivery, and the bytes of the deliveries are
what a run streams (`streamed_after`).
-/

set_option autoImplicit false

namespace ArchiveUpdate

/-- Data that was handed out, with the reads that followed. -/
structure Delivery where
  index : OutputIndex
  answer : DataAnswer
  reads : List Read

/-- The bytes and the failure, if any, that were read. -/
def Delivery.content (d : Delivery) : Content := gathered d.reads

/-- The position whose data was handed out, and how. -/
def Exchange.grant? : Exchange → Option (OutputIndex × DataAnswer)
  | ⟨.data i, .ok answer⟩ => some (i, answer)
  | _ => none

/-- Data was handed out if a request for it was answered. -/
theorem Exchange.grant?_eq_some_iff {e : Exchange} {i : OutputIndex} {answer : DataAnswer} :
    e.grant? = some (i, answer) ↔ e = ⟨.data i, .ok answer⟩ := by
  constructor
  · intro h
    unfold grant? at h
    split at h
    · cases h
      rfl
    · cases h
  · rintro rfl
    rfl

/-- The reads with which a log begins. -/
def leadingReads : List Exchange → List Read
  | ⟨.read n, answer⟩ :: log => (n, answer) :: leadingReads log
  | _ => []

/-- The data that was handed out, in the order of the requests. -/
def deliveries : List Exchange → List Delivery
  | [] => []
  | e :: log =>
    match e.grant? with
    | some (i, answer) => ⟨i, answer, leadingReads log⟩ :: deliveries log
    | none => deliveries log

/-- The first `n` output positions. -/
def positions (n : Nat) : List OutputIndex := (List.range n).map OutputIndex.mk

/-- The positions are different. -/
theorem nodup_positions (n : Nat) : (positions n).Nodup :=
  List.Nodup.map (fun _ _ h => congrArg OutputIndex.val h) List.nodup_range

/-- The data of each of the first `n` positions was handed out once and, if it is a stream, was read
to its end. -/
structure TakesAll (n : Nat) (log : List Exchange) : Prop where
  once : ((deliveries log).map Delivery.index).Perm (positions n)
  ends : ∀ d ∈ deliveries log, d.answer = .stream → Ends d.reads

instance (n : Nat) (log : List Exchange) : Decidable (TakesAll n log) :=
  decidable_of_iff (((deliveries log).map Delivery.index).Perm (positions n) ∧
    ∀ d ∈ deliveries log, d.answer = .stream → Ends d.reads)
    ⟨fun h => ⟨h.1, h.2⟩, fun h => ⟨h.once, h.ends⟩⟩

/-- What depends on the position only is taken once for each position. -/
theorem TakesAll.map_perm {n : Nat} {log : List Exchange} (hall : TakesAll n log) {γ : Type}
    {f : OutputIndex → γ} {g : Delivery → γ} (h : ∀ d ∈ deliveries log, g d = f d.index) :
    ((deliveries log).map g).Perm ((positions n).map f) := by
  have hperm := hall.once.map f
  rw [List.map_map] at hperm
  rw [List.map_congr_left h]
  exact hperm

namespace Session

variable {α ρ : Type}

/-- What there still is to read of the data handed out last. -/
def remaining (s : Session α ρ) : Content :=
  match s.reading with
  | none => ⟨[], none⟩
  | some r => r.content s.host

/-- Between the two states what was read last was given back, and nothing was opened or read. -/
structure GivesBack (s s' : Session α ρ) : Prop where
  host : s'.host = s.release.host
  reading : s'.reading = none
  archive : s'.archive = s.archive
  failures : s'.failures = s.failures
  streamed : s'.streamed = s.streamed

section

variable {s : Session α ρ}

/-- Giving back the source read last does just that. -/
theorem givesBack_release (s : Session α ρ) : s.GivesBack s.release := by
  obtain ⟨h, reading, heq⟩ := s.release_eq
  refine ⟨rfl, ?_, s.archive_release, s.failures_release, ?_⟩
  · unfold release
    cases hreading : s.reading with
    | none => exact hreading
    | some r => rfl
  · rw [heq]

/-- Where nothing is open nothing is left to read. -/
theorem remaining_of_reading (hreading : s.reading = none) : s.remaining = ⟨[], none⟩ := by
  rw [remaining, hreading]

/-- A read where nothing is open changes nothing. -/
theorem read_of_none (hreading : s.reading = none) (n : Nat) : (s.read n).2 = s := by
  simp only [read, hreading]

/-- A read goes on with the source that is open, and changes the world as that source does. -/
theorem read_of_some {r : Reader} (hreading : s.reading = some r) (n : Nat) :
    (s.read n).2.host = (r.read s.host n).2.2 ∧
      (s.read n).2.reading = some (r.read s.host n).2.1 := by
  simp only [read, hreading]
  rcases r.read s.host n with ⟨_ | taken, r', h⟩ <;> exact ⟨rfl, rfl⟩

/-- A read records no failure. -/
theorem failures_read (s : Session α ρ) (n : Nat) : (s.read n).2.failures = s.failures := by
  unfold read
  split
  · rfl
  · split <;> rfl

/-- A read takes its part from the front of what is left. -/
theorem gives_read (s : Session α ρ) (n : Nat) :
    s.remaining.Gives (n, (s.read n).1) (s.read n).2.remaining := by
  cases hreading : s.reading with
  | none =>
    simp only [read, remaining, hreading]
    exact .ends n
  | some r =>
    have hgives := r.gives_read s.host n
    simp only [read, remaining, hreading]
    rcases hread : r.read s.host n with ⟨_ | taken, r', h⟩ <;> rw [hread] at hgives <;>
      exact hgives

/-- A read counts the bytes that it takes. -/
theorem streamed_read (s : Session α ρ) (n : Nat) (reads : List Read) :
    s.streamed + (gathered ((n, (s.read n).1) :: reads)).bytes.length =
      (s.read n).2.streamed + (gathered reads).bytes.length := by
  cases hreading : s.reading with
  | none => simp [read, hreading, gathered]
  | some r =>
    simp only [read, hreading]
    rcases r.read s.host n with ⟨_ | taken, r', h⟩
    · rfl
    · simp only [gathered, List.length_append]
      omega

end

variable [Archive α] [Reporter ρ]

/-- Nothing that can be read is changed from outside in the course of events. -/
def Undisturbed (s : Session α ρ) : List RunEvent → Prop
  | [] => True
  | .ask q :: course => (s.answer q).2.Undisturbed course
  | .world h :: course => s.host.Alike (fun _ => False) h ∧ { s with host := h }.Undisturbed course

/-- As long as something is being read, what is left of it is not changed from outside. -/
def Spared (s : Session α ρ) : List RunEvent → Prop
  | [] => True
  | .ask (.read n) :: course => (s.answer (.read n)).2.Spared course
  | .ask _ :: _ => True
  | .world h :: course =>
    ({ s with host := h } : Session α ρ).remaining = s.remaining ∧
      { s with host := h }.Spared course

section

variable {s : Session α ρ} {q : Request}

omit [Archive α] in
/-- Asking whether to cancel gives back the source read last and does nothing else but ask. -/
theorem givesBack_asked (s : Session α ρ) : s.GivesBack s.asked := by
  have hback := s.givesBack_release
  exact ⟨rfl, hback.reading, hback.archive, hback.failures, hback.streamed⟩

/-- A request that is no read and does not hand out data gives back what was read last. -/
theorem givesBack_answer (hread : ∀ n, q ≠ .read n)
    (hgrant : Exchange.grant? ⟨q, (s.answer q).1⟩ = none) : s.GivesBack (s.answer q).2 := by
  have hback := s.givesBack_release
  cases q with
  | read n => exact absurd rfl (hread n)
  | data i =>
    have hasked := s.givesBack_asked
    rcases s.answer_data_cases i with ⟨e, h⟩ | h | h | ⟨item, h⟩
    · rw [h]
      exact hback
    · rw [h]
      exact ⟨hasked.host, hasked.reading, hasked.archive, hasked.failures, hasked.streamed⟩
    · rw [h] at hgrant
      cases hgrant
    · rw [h] at hgrant
      cases hgrant
  | countItems =>
    simp only [answer, countItems]
    split
    · exact hback
    · split
      · exact hback
      · exact ⟨hback.host, hback.reading, hback.archive, hback.failures, hback.streamed⟩
  | reportRun outcome =>
    simp only [answer, reportRun]
    split
    · exact hback
    · exact ⟨hback.host, hback.reading, hback.archive, hback.failures, hback.streamed⟩
  | reportItem i outcome =>
    simp only [answer, reportItem]
    split
    · exact hback
    · cases outcome <;>
        exact ⟨hback.host, hback.reading, hback.archive, hback.failures, hback.streamed⟩
  | setCompleted bytes =>
    simp only [answer, setCompleted]
    split
    · exact hback
    · split <;> exact ⟨hback.host, hback.reading, hback.archive, hback.failures, hback.streamed⟩
  | _ => exact ⟨hback.host, hback.reading, hback.archive, hback.failures, hback.streamed⟩

variable {i : OutputIndex} {answer : DataAnswer}

/-- Where something was handed out, data was asked for and the request answered. -/
theorem data_of_grant (hgrant : Exchange.grant? ⟨q, (s.answer q).1⟩ = some (i, answer)) :
    q = .data i ∧ (s.answer (.data i)).1 = .ok answer := by
  have hexchange := Exchange.grant?_eq_some_iff.1 hgrant
  obtain rfl : q = .data i := congrArg Exchange.request hexchange
  exact ⟨rfl, by simpa using hexchange⟩

/-- Where data is handed out, the source is known to have failed before, or it is opened now. -/
theorem answer_of_grant (hfits : s.phase = .active → s.total ≤ maxItems)
    (hgrant : (s.answer (.data i)).1 = .ok answer) :
    ∃ item, s.outputs[i.val]? = some item ∧
      ((s.failures.get? i).isSome ∧ s.answer (.data i) = (.ok .unavailable, s.asked) ∨
        s.failures.get? i = none ∧ s.answer (.data i) =
          (.ok (s.asked.openSource i item).1, (s.asked.openSource i item).2)) := by
  by_cases hrefused : s.phase = .active → s.outputs[i.val]? = none
  · obtain ⟨e, hanswer, -⟩ := answer_data_refused hrefused hfits
    rw [hanswer] at hgrant
    cases hgrant
  · obtain ⟨hphase, hat⟩ := Classical.not_imp.1 hrefused
    obtain ⟨item, hat⟩ := Option.ne_none_iff_exists'.1 hat
    refine ⟨item, hat, ?_⟩
    have hanswer := answer_data hphase (hfits hphase) hat
    cases hstop : s.wantsStop with
    | true =>
      rw [hanswer, if_pos hstop] at hgrant
      cases hgrant
    | false =>
      rw [hstop, if_neg Bool.false_ne_true] at hanswer
      cases hlog : s.failures.get? i with
      | some f => exact .inl ⟨rfl, by rw [hanswer, hlog]; rfl⟩
      | none => exact .inr ⟨rfl, by rw [hanswer, hlog]; rfl⟩

/-- Handing out data streams nothing yet. -/
theorem streamed_grant (hgrant : (s.answer (.data i)).1 = .ok answer) :
    (s.answer (.data i)).2.streamed = s.streamed := by
  have hasked : s.asked.streamed = s.streamed := s.givesBack_asked.streamed
  rcases s.answer_data_cases i with ⟨e, h⟩ | h | h | ⟨item, h⟩
  · rw [h] at hgrant
    cases hgrant
  · rw [h] at hgrant
    cases hgrant
  · rw [h]
    exact hasked
  · rw [h, ← hasked]
    simp only [openSource]
    split <;> rfl

variable {course : List RunEvent}

/-- What is being read is spared if nothing at all is changed from outside. -/
theorem Undisturbed.spared (hquiet : s.Undisturbed course) : s.Spared course := by
  induction course generalizing s with
  | nil => trivial
  | cons event course ih =>
    cases event with
    | world h =>
      refine ⟨?_, ih hquiet.2⟩
      unfold remaining
      cases s.reading with
      | none => rfl
      | some r => exact r.content_eq hquiet.1 fun _ _ => id
    | ask q =>
      cases q with
      | read n => exact ih hquiet
      | _ => trivial

/-- Reads take from the data handed out last, one after the other. -/
theorem delivers_of_spared (hspared : s.Spared course) :
    s.remaining.Delivers (leadingReads (s.exchanges course)) := by
  induction course generalizing s with
  | nil => exact .nil _
  | cons event course ih =>
    cases event with
    | world h =>
      rw [← hspared.1]
      exact ih hspared.2
    | ask q =>
      cases q with
      | read n => exact .cons (s.gives_read n) (ih hspared)
      | _ => exact .nil _

/-- If nothing is changed from outside, the reads that come first take from what is left. -/
theorem delivers_leadingReads (hquiet : s.Undisturbed course) :
    s.remaining.Delivers (leadingReads (s.exchanges course)) :=
  delivers_of_spared hquiet.spared

/-- While nothing is open, reads bring nothing, whatever the world around becomes. -/
theorem gathered_leadingReads_of_none (hreading : s.reading = none) (course : List RunEvent) :
    gathered (leadingReads (s.exchanges course)) = ⟨[], none⟩ := by
  induction course generalizing s with
  | nil => rfl
  | cons event course ih =>
    cases event with
    | world h => exact ih (s := { s with host := h }) hreading
    | ask q =>
      cases q with
      | read n =>
        have hread : s.answer (.read n) = (.ok [], s) := by
          simp only [Session.answer, read, hreading]
        simp only [exchanges, hread, leadingReads, gathered, ih hreading, List.append_nil]
      | _ => rfl

/-- A run streams what it streams into its deliveries; the reads that come first belong to what was
handed out before. -/
theorem streamed_after (s : Session α ρ) (course : List RunEvent) :
    (s.after course).streamed = s.streamed +
      (gathered (leadingReads (s.exchanges course))).bytes.length +
      ((deliveries (s.exchanges course)).map (·.content.bytes.length)).sum := by
  induction course generalizing s with
  | nil => rfl
  | cons event course ih =>
    cases event with
    | world h => exact ih _
    | ask q =>
      have hafter : s.after (.ask q :: course) = (s.answer q).2.after course := rfl
      rw [hafter, ih]
      by_cases hread : ∃ n, q = .read n
      · obtain ⟨n, rfl⟩ := hread
        have hcount := s.streamed_read n (leadingReads ((s.answer (.read n)).2.exchanges course))
        exact congrArg (· + _) hcount.symm
      · have hread := not_exists.1 hread
        have hfirst : leadingReads (s.exchanges (.ask q :: course)) = [] := by
          cases q with
          | read n => exact absurd rfl (hread n)
          | _ => rfl
        rw [hfirst]
        cases hgrant : Exchange.grant? ⟨q, (s.answer q).1⟩ with
        | some grant =>
          obtain ⟨rfl, hok⟩ := data_of_grant hgrant
          simp only [exchanges, deliveries, hgrant, streamed_grant hok, List.map_cons,
            List.sum_cons, Delivery.content]
          exact Nat.add_assoc _ _ _
        | none =>
          -- Nothing is being read any more, so the reads that follow bring nothing.
          have hback := givesBack_answer hread hgrant
          rw [gathered_leadingReads_of_none hback.reading, hback.streamed]
          simp only [exchanges, deliveries, hgrant]
          rfl

end

end Session

end ArchiveUpdate
