import ArchiveUpdate.Error

/-!
# Wildcard patterns

A pattern selects names.  A question mark stands for any character, a star for any run of
characters, brackets for one character of a set or, after an exclamation mark, one outside of it.
Two stars stand for any number of directories and have to fill the space between slashes.
`Wildcard.parse` reads a pattern and names the place of the first mistake; `Wildcard.accepts` tests
a name in time proportional to the pattern and the name.
-/

set_option autoImplicit false

namespace ArchiveUpdate

namespace Wildcard

/-- A part of a bracketed set. -/
inductive Member where
  | one (c : Char)
  | range (first last : Char)
  deriving DecidableEq, Repr

/-- A part of a pattern. -/
inductive Token where
  /-- This character. -/
  | char (c : Char)
  /-- Any character. -/
  | any
  /-- Any run of characters. -/
  | run
  /-- Any number of directories, or the whole rest. -/
  | directories
  /-- A character of the set. -/
  | within (set : List Member)
  /-- A character outside of the set. -/
  | outside (set : List Member)
  deriving DecidableEq, Repr

/-- A mistake in a pattern, with the number of characters before the place where it shows. -/
inductive Fault where
  | threeStars (position : Nat)
  | partialComponent (position : Nat)
  | badSet (position : Nat)
  deriving DecidableEq, Repr

namespace Fault

/-- What is said about a mistake. -/
def message : Fault → String
  | threeStars n =>
    s!"Pattern syntax error near position {n}: wildcards are either regular `*` or recursive `**`"
  | partialComponent n =>
    s!"Pattern syntax error near position {n}: recursive wildcards must form a single path component"
  | badSet n => s!"Pattern syntax error near position {n}: invalid range pattern"

end Fault

namespace Member

/-- Whether a character belongs to a part of a set. -/
def holds (c : Char) : Member → Bool
  | one d => c = d
  | range first last => first ≤ c && c ≤ last

/-- The parts of a set: a hyphen between two characters makes a range. -/
def readAll : List Char → List Member
  | a :: '-' :: b :: cs => range a b :: readAll cs
  | a :: cs => one a :: readAll cs
  | [] => []

end Member

/-- What stands before the first closing bracket, and what follows it. -/
def closing : List Char → Option (List Char × List Char)
  | [] => none
  | ']' :: cs => some ([], cs)
  | c :: cs => (closing cs).map fun (inner, rest) => (c :: inner, rest)

/-- What stands around a closing bracket is all but the bracket. -/
theorem length_closing {cs inner rest : List Char} (h : closing cs = some (inner, rest)) :
    inner.length + rest.length + 1 = cs.length := by
  induction cs generalizing inner with
  | nil => simp [closing] at h
  | cons c cs ih =>
    by_cases hc : c = ']'
    · subst hc
      simp only [closing, Option.some.injEq, Prod.mk.injEq] at h
      simp [← h.1, ← h.2]
    · unfold closing at h
      split at h
      · simp_all
      · simp_all
      · rename_i heq
        obtain ⟨rfl, rfl⟩ := List.cons.inj heq
        obtain ⟨⟨inner', rest'⟩, hr, he⟩ := Option.map_eq_some_iff.1 h
        obtain ⟨rfl, rfl⟩ := Prod.mk.inj he
        have := ih hr
        simp only [List.length_cons]
        omega

/-- Reads a set behind its opening bracket: the token, the number of characters read and the rest.
The first character of a set belongs to it even when it is a closing bracket. -/
def readSet : List Char → Option (Token × Nat × List Char)
  | '!' :: a :: cs => (closing cs).map fun (inner, rest) =>
    (.outside (Member.readAll (a :: inner)), inner.length + 3, rest)
  | '!' :: [] => none
  | a :: cs => (closing cs).map fun (inner, rest) =>
    (.within (Member.readAll (a :: inner)), inner.length + 2, rest)
  | [] => none

/-- Behind a set there is less to read than before it. -/
theorem length_readSet {cs rest : List Char} {t : Token} {n : Nat}
    (h : readSet cs = some (t, n, rest)) : rest.length < cs.length := by
  unfold readSet at h
  split at h
  · obtain ⟨⟨inner, rest'⟩, hc, he⟩ := Option.map_eq_some_iff.1 h
    have := length_closing hc
    simp only [Prod.mk.injEq] at he
    simp only [← he.2.2, List.length_cons]
    omega
  · exact absurd h (by simp)
  · obtain ⟨⟨inner, rest'⟩, hc, he⟩ := Option.map_eq_some_iff.1 h
    have := length_closing hc
    simp only [Prod.mk.injEq] at he
    simp only [← he.2.2, List.length_cons]
    omega
  · exact absurd h (by simp)

/-- Reads the rest of a pattern, given the character before it and its position. -/
def scan (before : Option Char) (position : Nat) : List Char → Except Fault (List Token)
  | [] => .ok []
  | '*' :: '*' :: '*' :: _ => .error (.threeStars (position + 2))
  | '*' :: '*' :: cs =>
    if before.all (· = '/') then
      match cs with
      | [] => .ok [.directories]
      | '/' :: rest => (.directories :: ·) <$> scan (some '/') (position + 3) rest
      | _ => .error (.partialComponent (position + 2))
    else .error (.partialComponent (position - 1))
  | '*' :: cs => (.run :: ·) <$> scan (some '*') (position + 1) cs
  | '?' :: cs => (.any :: ·) <$> scan (some '?') (position + 1) cs
  | '[' :: cs =>
    match h : readSet cs with
    | some (token, length, rest) =>
      have : rest.length < cs.length := length_readSet h
      (token :: ·) <$> scan (some ']') (position + 1 + length) rest
    | none => .error (.badSet position)
  | c :: cs => (.char c :: ·) <$> scan (some c) (position + 1) cs
termination_by cs => cs.length

/-- At each place, whether it or a later one holds. -/
def anyFrom : List Bool → List Bool
  | [] => []
  | f :: fs =>
    let later := anyFrom fs
    (f || later.headD false) :: later

/-- For a token that stands for one character: the test of that character. -/
def Token.test : Token → Char → Bool
  | .char d, c => c = d
  | .within set, c => set.any (·.holds c)
  | .outside set, c => !set.any (·.holds c)
  | _, _ => true

/-- From the places of a text where the rest of the pattern matches to those where a token and the
rest match.  There is one place before each character and one at the end. -/
def Token.before (text : List Char) (t : Token) (places : List Bool) : List Bool :=
  match t with
  | .run => anyFrom places
  | .directories =>
    let afterSlash := text.zipWith (fun c f => c = '/' && f) places.tail
    places.zipWith (· || ·) (anyFrom (afterSlash ++ [places.getLastD false]))
  | t => text.zipWith (fun c f => t.test c && f) places.tail ++ [false]

end Wildcard

/-- A pattern for names. -/
structure Wildcard where
  tokens : List Wildcard.Token
  deriving DecidableEq, Repr

namespace Wildcard

/-- Reads a pattern. -/
def parse (pattern : String) : Except UpdateError Wildcard :=
  match scan none 0 pattern.toList with
  | .ok tokens => .ok ⟨tokens⟩
  | .error fault => .error (.invalidPattern pattern fault.message)

/-- Whether a pattern matches a whole name. -/
def accepts (w : Wildcard) (name : String) : Bool :=
  let text := name.toList
  let ends := text.map (fun _ => false) ++ [true]
  (w.tokens.foldr (Token.before text) ends).headD false

end Wildcard

end ArchiveUpdate
