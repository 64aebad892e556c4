/-!
# Regular expressions

The syntax tree of a pattern.  A tree is built from atoms, which look at one character
or at the place between two, by sequence, alternation, character classes, negation,
capturing groups and repetition.  Groups carry the slot that remembers what they matched;
slots count from 0 in the order in which the groups open.

Trees need not come from a pattern text: any nesting is a tree.
-/

namespace Backtrack

/-- Escapes that stand for more than the escaped character.  Digits and blanks are ASCII ones;
`subjectEndNewline` is the end of the subject or the place before a newline that ends it. -/
inductive Metachar where
  | subjectStart
  | digit
  | space
  | nonSpace
  | subjectEnd
  | subjectEndNewline
deriving DecidableEq, Repr

namespace Metachar

def letter : Metachar → Char
  | subjectStart => 'A'
  | digit => 'd'
  | space => 's'
  | nonSpace => 'S'
  | subjectEnd => 'z'
  | subjectEndNewline => 'Z'

def ofLetter? : Char → Option Metachar
  | 'A' => some subjectStart
  | 'd' => some digit
  | 's' => some space
  | 'S' => some nonSpace
  | 'z' => some subjectEnd
  | 'Z' => some subjectEndNewline
  | _ => none

theorem ofLetter?_letter (m : Metachar) : ofLetter? m.letter = some m := by
  cases m <;> rfl

end Metachar

/-- The tests a pattern can make at one place of the subject.  A range includes its ends, and a
dot is any character but a newline. -/
inductive Atom where
  | char (c : Char)
  | range (first last : Char)
  | dot
  | metachar (m : Metachar)
  | lineStart
  | lineEnd
deriving DecidableEq, Repr

/-- How often something repeats, and whether few repetitions are tried before many. -/
structure Quantifier where
  least : Nat
  most : Option Nat
  lazy : Bool
deriving DecidableEq, Repr

/-- Regular expressions.  Earlier branches are tried before later ones, and a negation is one
character at which the body fails. -/
inductive Regex where
  | atom (a : Atom)
  | seq (items : List Regex)
  | alt (branches : List Regex)
  | charClass (members : List Regex)
  | negation (body : Regex)
  | group (slot : Nat) (body : Regex)
  | repeated (body : Regex) (count : Quantifier)

namespace Regex

abbrev char (c : Char) : Regex := .atom (.char c)

/-- Induction over trees: of a list of subtrees, the statement is known of each. -/
@[elab_as_elim, induction_eliminator]
theorem induction {motive : Regex → Prop}
    (atom : ∀ a, motive (.atom a))
    (seq : ∀ items, (∀ t ∈ items, motive t) → motive (.seq items))
    (alt : ∀ branches, (∀ t ∈ branches, motive t) → motive (.alt branches))
    (charClass : ∀ members, (∀ t ∈ members, motive t) → motive (.charClass members))
    (negation : ∀ body, motive body → motive (.negation body))
    (group : ∀ slot body, motive body → motive (.group slot body))
    (repeated : ∀ body count, motive body → motive (.repeated body count))
    (t : Regex) : motive t := by
  refine @Regex.rec motive (fun ts => ∀ t ∈ ts, motive t)
    atom seq alt charClass negation group repeated ?_ ?_ t
  · intro t ht
    cases ht
  · intro x xs hx hxs t ht
    cases ht with
    | head => exact hx
    | tail _ h => exact hxs t h

mutual

def decEq : (s t : Regex) → Decidable (s = t)
  | .atom a, .atom b =>
    if h : a = b then .isTrue (by rw [h]) else .isFalse (by simpa using h)
  | .seq xs, .seq ys =>
    match decEqList xs ys with
    | .isTrue h => .isTrue (by rw [h])
    | .isFalse h => .isFalse (by simpa using h)
  | .alt xs, .alt ys =>
    match decEqList xs ys with
    | .isTrue h => .isTrue (by rw [h])
    | .isFalse h => .isFalse (by simpa using h)
  | .charClass xs, .charClass ys =>
    match decEqList xs ys with
    | .isTrue h => .isTrue (by rw [h])
    | .isFalse h => .isFalse (by simpa using h)
  | .negation s, .negation t =>
    match decEq s t with
    | .isTrue h => .isTrue (by rw [h])
    | .isFalse h => .isFalse (by simpa using h)
  | .group i s, .group j t =>
    match decEq s t with
    | .isTrue h => if hij : i = j then .isTrue (by rw [h, hij]) else .isFalse (by simp [hij])
    | .isFalse h => .isFalse (by simp [h])
  | .repeated s m, .repeated t n =>
    match decEq s t with
    | .isTrue h => if hmn : m = n then .isTrue (by rw [h, hmn]) else .isFalse (by simp [hmn])
    | .isFalse h => .isFalse (by simp [h])
  | .atom _, .seq _ | .atom _, .alt _ | .atom _, .charClass _ | .atom _, .negation _
  | .atom _, .group .. | .atom _, .repeated ..
  | .seq _, .atom _ | .seq _, .alt _ | .seq _, .charClass _ | .seq _, .negation _
  | .seq _, .group .. | .seq _, .repeated ..
  | .alt _, .atom _ | .alt _, .seq _ | .alt _, .charClass _ | .alt _, .negation _
  | .alt _, .group .. | .alt _, .repeated ..
  | .charClass _, .atom _ | .charClass _, .seq _ | .charClass _, .alt _
  | .charClass _, .negation _ | .charClass _, .group .. | .charClass _, .repeated ..
  | .negation _, .atom _ | .negation _, .seq _ | .negation _, .alt _
  | .negation _, .charClass _ | .negation _, .group .. | .negation _, .repeated ..
  | .group .., .atom _ | .group .., .seq _ | .group .., .alt _ | .group .., .charClass _
  | .group .., .negation _ | .group .., .repeated ..
  | .repeated .., .atom _ | .repeated .., .seq _ | .repeated .., .alt _
  | .repeated .., .charClass _ | .repeated .., .negation _ | .repeated .., .group .. =>
    .isFalse nofun

def decEqList : (xs ys : List Regex) → Decidable (xs = ys)
  | [], [] => .isTrue rfl
  | [], _ :: _ | _ :: _, [] => .isFalse nofun
  | x :: xs, y :: ys =>
    match decEq x y with
    | .isFalse h => .isFalse (by simp [h])
    | .isTrue h =>
      match decEqList xs ys with
      | .isTrue hs => .isTrue (by rw [h, hs])
      | .isFalse hs => .isFalse (by simp [hs])

end

instance : DecidableEq Regex := decEq

end Regex

/-- A capturing group, known by its slot. -/
structure Capture where
  slot : Nat
deriving DecidableEq, Repr

namespace Capture

/-- The number of the group; the whole match has number 0. -/
def number (c : Capture) : Nat := c.slot + 1

def name (c : Capture) : String := c.number.repr

end Capture

end Backtrack
