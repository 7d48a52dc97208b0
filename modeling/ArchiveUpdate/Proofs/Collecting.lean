import ArchiveUpdate.Gather
import Mathlib.Data.List.Forall2

/-!
# What a collection with failure yields

A collection succeeds exactly if each of its parts does, and then it is the parts in a row
(`mapM_eq_ok_iff`, `gather_eq_ok_iff`).  So one collection can be carried out in two rounds, where
the second looks at what the first found, if that is so on every single element (`gather_fuse`).
-/

set_option autoImplicit false

namespace ArchiveUpdate

variable {ε α β γ : Type}

/-- Two steps succeed if the first does and the second does with its result. -/
theorem bind_eq_ok_iff {x : Except ε α} {f : α → Except ε β} {b : β} :
    (x >>= f) = .ok b ↔ ∃ a, x = .ok a ∧ f a = .ok b := by
  cases x with
  | error e =>
    constructor
    · intro h
      cases h
    · rintro ⟨a, h, -⟩
      cases h
  | ok a =>
    constructor
    · intro h
      exact ⟨a, rfl, h⟩
    · rintro ⟨a', h, h'⟩
      cases h
      exact h'

/-- A mapped computation succeeds if the computation does. -/
theorem map_eq_ok_iff {x : Except ε α} {f : α → β} {b : β} :
    f <$> x = .ok b ↔ ∃ a, x = .ok a ∧ f a = b := by
  cases x with
  | error e => simp [Functor.map, Except.map]
  | ok a => simp [Functor.map, Except.map]

/-- A map with a failing function succeeds if it does so on every element, with the results in
order. -/
theorem mapM_eq_ok_iff {f : α → Except ε β} {as : List α} {bs : List β} :
    as.mapM f = .ok bs ↔ List.Forall₂ (fun a b => f a = .ok b) as bs := by
  induction as generalizing bs with
  | nil => simp [pure, Except.pure, eq_comm]
  | cons a as ih =>
    rw [List.mapM_cons, bind_eq_ok_iff]
    constructor
    · rintro ⟨b, hb, h⟩
      obtain ⟨rest, hrest, h⟩ := bind_eq_ok_iff.1 h
      cases h
      exact .cons hb (ih.1 hrest)
    · intro h
      cases h with
      | cons hb hrest => exact ⟨_, hb, bind_eq_ok_iff.2 ⟨_, ih.2 hrest, rfl⟩⟩

/-- If a map fails, it is with the failure on one of the elements. -/
theorem exists_of_mapM_eq_error {f : α → Except ε β} {as : List α} {e : ε}
    (h : as.mapM f = .error e) : ∃ a ∈ as, f a = .error e := by
  induction as with
  | nil => cases h
  | cons a as ih =>
    rw [List.mapM_cons] at h
    cases ha : f a with
    | error e' =>
      rw [ha] at h
      cases h
      exact ⟨a, List.mem_cons_self, ha⟩
    | ok b =>
      rw [ha] at h
      cases hrest : as.mapM f with
      | error e' =>
        rw [hrest] at h
        cases h
        obtain ⟨a', ha', herror⟩ := ih hrest
        exact ⟨a', List.mem_cons_of_mem a ha', herror⟩
      | ok bs =>
        rw [hrest] at h
        cases h

/-- Each element of the second list has its partner in the first. -/
theorem exists_of_forall₂ {R : α → β → Prop} {as : List α} {bs : List β}
    (h : List.Forall₂ R as bs) {b : β} (hb : b ∈ bs) : ∃ a ∈ as, R a b := by
  obtain ⟨hlength, hrelated⟩ := List.forall₂_iff_get.1 h
  obtain ⟨i, hi, rfl⟩ := List.mem_iff_getElem.1 hb
  have hi' : i < as.length := by rwa [hlength]
  exact ⟨as.get ⟨i, hi'⟩, List.get_mem as _, hrelated i hi' hi⟩

/-- The last elements of two lists are partners. -/
theorem getLast?_of_forall₂ {R : α → β → Prop} {as : List α} {bs : List β}
    (h : List.Forall₂ R as bs) {a : α} (ha : as.getLast? = some a) :
    ∃ b, bs.getLast? = some b ∧ R a b := by
  have hreverse : List.Forall₂ R as.reverse bs.reverse := List.forall₂_reverse_iff.2 h
  rw [← List.head?_reverse] at ha ⊢
  obtain ⟨rest, hrest⟩ := List.head?_eq_some_iff.1 ha
  rw [hrest] at hreverse
  obtain ⟨b, rest', hab, -, hbs⟩ := List.forall₂_cons_left_iff.1 hreverse
  exact ⟨b, by rw [hbs, List.head?_cons], hab⟩

/-- What holds of pairs on one side of a relation of two lists holds of the pairs on the other, if
it carries over from elements to related ones. -/
theorem pairwise_of_forall₂ {R : α → β → Prop} {S : α → α → Prop} {T : β → β → Prop}
    {as : List α} {bs : List β} (h : List.Forall₂ R as bs) (hpairs : as.Pairwise S)
    (hcarry : ∀ {a a' b b'}, R a b → R a' b' → S a a' → T b b') : bs.Pairwise T := by
  obtain ⟨hlength, hrelated⟩ := List.forall₂_iff_get.1 h
  rw [List.pairwise_iff_getElem] at hpairs ⊢
  intro i j hi hj hij
  have hi' : i < as.length := by rwa [hlength]
  have hj' : j < as.length := by rwa [hlength]
  exact hcarry (hrelated i hi' hi) (hrelated j hj' hj) (hpairs i j hi' hj' hij)

/-- From one element is gathered what is found there. -/
theorem gather_singleton (f : α → Except ε (List β)) (a : α) :
    gather f [a] = f a := by
  cases ha : f a with
  | error e => simp only [gather, ha]
  | ok found => simp only [gather, ha, List.append_nil]

/-- What is gathered depends on the elements only. -/
theorem gather_congr {f g : α → Except ε (List β)} {as : List α} (h : ∀ a ∈ as, f a = g a) :
    gather f as = gather g as := by
  induction as with
  | nil => rfl
  | cons a as ih =>
    rw [List.forall_mem_cons] at h
    rw [gather, gather, h.1, ih h.2]

/-- What is gathered is the find at the first element and then what is gathered from the others. -/
theorem gather_cons_eq_ok_iff {f : α → Except ε (List β)} {a : α} {as : List α} {l : List β} :
    gather f (a :: as) = .ok l ↔
      ∃ part rest, f a = .ok part ∧ gather f as = .ok rest ∧ part ++ rest = l := by
  rw [gather]
  cases f a with
  | error e => simp
  | ok part => cases gather f as <;> simp

/-- What is gathered from two lists is what is gathered from each, in order. -/
theorem gather_append_eq_ok_iff {f : α → Except ε (List β)} {as bs : List α} {l : List β} :
    gather f (as ++ bs) = .ok l ↔
      ∃ found more, gather f as = .ok found ∧ gather f bs = .ok more ∧ found ++ more = l := by
  rw [gather_append]
  cases gather f as with
  | error e => simp
  | ok found => cases gather f bs <;> simp

/-- A collection succeeds exactly if each part does, and is all the parts in a row. -/
theorem gather_eq_ok_iff {f : α → Except ε (List β)} {as : List α} {l : List β} :
    gather f as = .ok l ↔
      ∃ parts, List.Forall₂ (fun a part => f a = .ok part) as parts ∧ parts.flatten = l := by
  induction as generalizing l with
  | nil => simp [gather, eq_comm]
  | cons a as ih =>
    rw [gather_cons_eq_ok_iff]
    constructor
    · rintro ⟨part, rest, hpart, hrest, rfl⟩
      obtain ⟨parts, hparts, rfl⟩ := ih.1 hrest
      exact ⟨part :: parts, .cons hpart hparts, rfl⟩
    · rintro ⟨parts, hparts, rfl⟩
      cases hparts with
      | cons hpart hparts => exact ⟨_, _, hpart, ih.2 ⟨_, hparts, rfl⟩, rfl⟩

/-- Whatever was gathered was found at one of the elements. -/
theorem mem_of_gather {f : α → Except ε (List β)} {as : List α} {l : List β} {b : β}
    (h : gather f as = .ok l) (hb : b ∈ l) : ∃ a ∈ as, ∃ part, f a = .ok part ∧ b ∈ part := by
  induction as generalizing l with
  | nil =>
    cases h
    cases hb
  | cons a as ih =>
    obtain ⟨part, rest, hpart, hrest, rfl⟩ := gather_cons_eq_ok_iff.1 h
    rcases List.mem_append.1 hb with hb | hb
    · exact ⟨a, List.mem_cons_self, part, hpart, hb⟩
    · obtain ⟨a', ha', hfound⟩ := ih hrest hb
      exact ⟨a', List.mem_cons_of_mem a ha', hfound⟩

/-- What was collected is in pairs as wanted if the parts are, each by itself and across. -/
theorem pairwise_of_gather {f : α → Except ε (List β)} {R : β → β → Prop} {as : List α}
    {l : List β} (h : gather f as = .ok l)
    (hpart : ∀ a ∈ as, ∀ part, f a = .ok part → part.Pairwise R)
    (hacross : as.Pairwise fun a a' => ∀ part part', f a = .ok part → f a' = .ok part' →
      ∀ b ∈ part, ∀ b' ∈ part', R b b') : l.Pairwise R := by
  induction as generalizing l with
  | nil =>
    cases h
    exact .nil
  | cons a as ih =>
    obtain ⟨part, rest, hfound, hrest, rfl⟩ := gather_cons_eq_ok_iff.1 h
    obtain ⟨hfirst, hothers⟩ := List.pairwise_cons.1 hacross
    rw [List.pairwise_append]
    refine ⟨hpart a List.mem_cons_self part hfound, ?_, ?_⟩
    · exact ih hrest (fun a' ha' => hpart a' (List.mem_cons_of_mem a ha')) hothers
    · intro b hb b' hb'
      obtain ⟨a', ha', part', hfound', hb'⟩ := mem_of_gather hrest hb'
      exact hfirst a' ha' part part' hfound hfound' b hb b' hb'

/-- Two collections in a row are one, if they are so on every element. -/
theorem gather_fuse {f : α → Except ε (List γ)} {w : α → Except ε (List β)}
    {g : β → Except ε (List γ)}
    (h : ∀ a l, f a = .ok l ↔ ∃ bs, w a = .ok bs ∧ gather g bs = .ok l) (as : List α)
    (l : List γ) :
    gather f as = .ok l ↔ ∃ bs, gather w as = .ok bs ∧ gather g bs = .ok l := by
  induction as generalizing l with
  | nil => simp [gather]
  | cons a as ih =>
    simp only [gather_cons_eq_ok_iff, h, ih]
    constructor
    · rintro ⟨part, rest, ⟨bs, hbs, hpart⟩, ⟨bs', hbs', hrest⟩, hl⟩
      exact ⟨bs ++ bs', ⟨bs, bs', hbs, hbs', rfl⟩,
        gather_append_eq_ok_iff.2 ⟨part, rest, hpart, hrest, hl⟩⟩
    · rintro ⟨_, ⟨bs, bs', hbs, hbs', rfl⟩, hg⟩
      obtain ⟨part, rest, hpart, hrest, hl⟩ := gather_append_eq_ok_iff.1 hg
      exact ⟨part, rest, ⟨bs, hbs, hpart⟩, ⟨bs', hbs', hrest⟩, hl⟩

/-- One round stands for two wherever it does so on the elements on which both succeed. -/
theorem gather_of_rounds {f : α → Except ε (List γ)} {w : α → Except ε (List β)}
    {g : β → Except ε (List γ)} (h : ∀ a bs l, w a = .ok bs → gather g bs = .ok l → f a = .ok l)
    {as : List α} {bs : List β} {l : List γ} (hw : gather w as = .ok bs)
    (hg : gather g bs = .ok l) : gather f as = .ok l := by
  induction as generalizing bs l with
  | nil =>
    cases hw
    exact hg
  | cons a as ih =>
    obtain ⟨part, rest, hpart, hrest, rfl⟩ := gather_cons_eq_ok_iff.1 hw
    obtain ⟨found, more, hfound, hmore, rfl⟩ := gather_append_eq_ok_iff.1 hg
    exact gather_cons_eq_ok_iff.2 ⟨found, more, h a part found hpart hfound, ih hrest hmore, rfl⟩

end ArchiveUpdate
