import Backtrack.Regex.Basic

/-!
# Quantifiers in braces

An opening brace after something that can repeat begins a quantifier `{m}`, `{m,}`, `{,n}`
or `{m,n}`, but only if all of it is there; otherwise the brace and what follows are
ordinary characters.  `Braces` holds what has been read of it, so that nothing has to be
decided before the closing brace.
-/

namespace Backtrack

/-- The greatest number a quantifier can hold. -/
def maxBound : Nat := 4294967295

/-- The number that decimal digits write, if a quantifier can hold it. -/
def boundOf? (digits : List Char) : Option Nat :=
  let n := Nat.ofDigitChars 10 digits 0
  if n ≤ maxBound then some n else none

/-- A quantifier in braces that has been read in part: the offset of the opening brace, the digits
before the comma, and those after it once there is one. -/
structure Braces where
  opened : Nat
  lower : List Char
  upper : Option (List Char)
deriving DecidableEq, Repr

namespace Braces

def start (opened : Nat) : Braces := ⟨opened, [], none⟩

def text (b : Braces) : List Char :=
  '{' :: b.lower ++
    match b.upper with
    | none => []
    | some upper => ',' :: upper

/-- Takes one more character: a digit, or the first comma. -/
def push? (b : Braces) (c : Char) : Option Braces :=
  match b.upper with
  | none =>
    if c.isDigit then some { b with lower := b.lower ++ [c] }
    else if c = ',' then some { b with upper := some [] }
    else none
  | some upper => if c.isDigit then some { b with upper := some (upper ++ [c]) } else none

/-- The bounds meant if the closing brace comes next: a missing lower bound is zero, a
missing upper bound is none, and at least one of them must be given. -/
def bounds? (b : Braces) : Option (Nat × Option Nat) :=
  match b.lower, b.upper with
  | [], none => none
  | [], some [] => none
  | [], some upper => (boundOf? upper).map fun n => (0, some n)
  | lower, none => (boundOf? lower).map fun m => (m, some m)
  | lower, some [] => (boundOf? lower).map fun m => (m, none)
  | lower, some upper => (boundOf? lower).bind fun m => (boundOf? upper).map fun n => (m, some n)

end Braces

end Backtrack
