import Backtrack.PatternError
import Backtrack.Regex.Basic

/-!
# Character classes, read character by character

A class is `[`, perhaps `^`, one or more members and `]`.  A member is a character, an
escape, or a range `x-y` of two literals; a dash that joins no two literals stands for
itself, and so does a closing bracket that comes first.  `OpenClass` holds what has been
read since the bracket.
-/

namespace Backtrack

/-- What an escape stands for: a metacharacter, or else the escaped character itself. -/
def Atom.ofEscape (c : Char) : Atom :=
  match Metachar.ofLetter? c with
  | some m => .metachar m
  | none => .char c

/-- The left end of a range and the offset of the dash after it. -/
structure RangeStart where
  first : Char
  dash : Nat
deriving DecidableEq, Repr

/-- What the next character of a class means.  After the bracket a circumflex negates; after a
literal and a dash another literal completes the range, also if it is escaped by the backslash at
`offset`. -/
inductive ClassMode where
  | opening
  | member
  | range (start : RangeStart)
  | escape (offset : Nat) (start : Option RangeStart)
deriving DecidableEq, Repr

/-- A character class that has been read in part, its members latest first. -/
structure OpenClass where
  opened : Nat
  negated : Bool
  members : List Atom
  mode : ClassMode
deriving DecidableEq, Repr

/-- What one more character makes of an open class. -/
inductive ClassStep where
  | reading (k : OpenClass)
  | complete (t : Regex)

namespace OpenClass

def start (opened : Nat) : OpenClass := ⟨opened, false, [], .opening⟩

def push (k : OpenClass) (a : Atom) : OpenClass :=
  { k with members := a :: k.members, mode := .member }

/-- The class with a literal and a dash for themselves. -/
def pushDash (k : OpenClass) (start : RangeStart) : OpenClass :=
  (k.push (.char start.first)).push (.char '-')

def close (k : OpenClass) : Regex :=
  let tree := .charClass (k.members.reverse.map .atom)
  if k.negated then .negation tree else tree

/-- The class with a range that ends with `last`. -/
def pushRange (k : OpenClass) (start : RangeStart) (last : Char) :
    Except PatternError ClassStep :=
  if last < start.first then .error (.invalidRange start.first last start.dash)
  else .ok (.reading (k.push (.range start.first last)))

/-- Reads the first character of a member. -/
def readMember (k : OpenClass) (offset : Nat) (c : Char) : ClassStep :=
  match c with
  | ']' => if k.members = [] then .reading (k.push (.char ']')) else .complete k.close
  | '-' =>
    match k.members with
    | .char first :: members =>
      .reading { k with members, mode := .range ⟨first, offset⟩ }
    | _ => .reading (k.push (.char '-'))
  | '\\' => .reading { k with mode := .escape offset none }
  | c => .reading (k.push (.char c))

/-- Reads the character at byte offset `offset` of the pattern. -/
def read (k : OpenClass) (offset : Nat) (c : Char) : Except PatternError ClassStep :=
  match k.mode with
  | .opening =>
    if c = '^' then .ok (.reading { k with negated := true, mode := .member })
    else .ok ({ k with mode := .member }.readMember offset c)
  | .member => .ok (k.readMember offset c)
  | .range start =>
    match c with
    | ']' => .ok (.complete (k.pushDash start).close)
    | '\\' => .ok (.reading { k with mode := .escape offset (some start) })
    | c => k.pushRange start c
  | .escape _ none => .ok (.reading (k.push (.ofEscape c)))
  | .escape _ (some start) =>
    match Metachar.ofLetter? c with
    | some m => .ok (.reading ((k.pushDash start).push (.metachar m)))
    | none => k.pushRange start c

/-- Why the pattern must not end here. -/
def unfinished (k : OpenClass) : PatternError :=
  match k.mode with
  | .escape offset _ => .unterminatedEscape offset
  | _ => .unclosedClass k.opened

end OpenClass

end Backtrack
