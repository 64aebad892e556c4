import Backtrack.Regex.Basic
import Backtrack.State
import Backtrack.Text.Quoted

/-!
# The tests at the vertices of a graph

A test takes a state and gives the state after it, or fails.  Only the tests of a
character move on in the subject; the others look at the place that has been reached, or
keep the books on groups and loops.  An automaton is a test or its opposite.
-/

namespace Backtrack

def isBlank (c : Char) : Bool :=
  c == ' ' || c == '\t' || c == '\n' || c == '\r' || c == '\x0b' || c == '\x0c'

namespace Atom

/-- The characters an atom accepts; none at all for an atom that looks at a place. -/
def charSet? : Atom → Option (Char → Bool)
  | .char c => some (· == c)
  | .range first last => some fun c => decide (first ≤ c) && decide (c ≤ last)
  | .dot => some (· != '\n')
  | .metachar .digit => some Char.isDigit
  | .metachar .space => some isBlank
  | .metachar .nonSpace => some fun c => !isBlank c
  | .metachar .subjectStart | .metachar .subjectEnd | .metachar .subjectEndNewline
  | .lineStart | .lineEnd => none

/-- Whether an atom that looks at a place holds there. -/
def holds : Atom → State → Bool
  | .metachar .subjectStart, σ => σ.atStart
  | .metachar .subjectEnd, σ => σ.atEnd
  | .metachar .subjectEndNewline, σ => σ.atEnd || σ.beforeFinalNewline
  | .lineStart, σ => σ.atStart || σ.prev == some '\n'
  | .lineEnd, σ => σ.atEnd || σ.peek == some '\n'
  | _, _ => false

/-- The state after an atom: one character further on, or the same place. -/
def run (a : Atom) (σ : State) : Option State :=
  match a.charSet? with
  | some accepts => σ.consume accepts
  | none => if a.holds σ then some σ else none

def listing : Atom → String
  | .char c => s!"LIT {Text.quotedChar c}"
  | .range first last => s!"RANGE {Text.quotedChar first}-{Text.quotedChar last}"
  | .dot => "DOT"
  | .metachar m => s!"META \\{m.letter}"
  | .lineStart => "SOL"
  | .lineEnd => "EOL"

end Atom

/-- The tests a vertex can make.  Those that keep the books, when a group begins or ends or a
round of a loop begins, always pass, as `join` does.  `progressed` and `stalled` ask whether the
round of the loop has consumed anything. -/
inductive Test where
  | atom (a : Atom)
  | anyChar
  | openSlot (slot : Nat)
  | closeSlot (slot : Nat)
  | enterLoop (loop : Nat)
  | progressed (loop : Nat)
  | stalled (loop : Nat)
  | join
  | never
deriving DecidableEq, Repr

namespace Test

def run : Test → State → Option State
  | .atom a, σ => a.run σ
  | .anyChar, σ => σ.consume fun _ => true
  | .openSlot i, σ => some (σ.openSlot i)
  | .closeSlot i, σ => some (σ.closeSlot i)
  | .enterLoop k, σ => some (σ.mark k)
  | .progressed k, σ => if σ.progressed k then some σ else none
  | .stalled k, σ => if σ.progressed k then none else some σ
  | .join, σ => some σ
  | .never, _ => none

/-- Groups are listed by number, as in a match, and not by slot. -/
def listing : Test → String
  | .atom a => a.listing
  | .anyChar => "ANY"
  | .openSlot i => s!"OPEN {i + 1}"
  | .closeSlot i => s!"CLOSE {i + 1}"
  | .enterLoop k => s!"LOOP_ENTER {k}"
  | .progressed k => s!"PROGRESSED {k}"
  | .stalled k => s!"STALLED {k}"
  | .join => "JOIN"
  | .never => "NO_MATCH_ADVANCED"

end Test

/-- A test or, if negated, its opposite. -/
structure Automaton where
  test : Test
  negated : Bool
deriving DecidableEq, Repr

namespace Automaton

/-- A negated automaton passes exactly where its test fails, and does not move. -/
def run (a : Automaton) (σ : State) : Option State :=
  if a.negated then
    match a.test.run σ with
    | some _ => none
    | none => some σ
  else a.test.run σ

def listing (a : Automaton) : String :=
  if a.negated then "NOT " ++ a.test.listing else a.test.listing

end Automaton

end Backtrack
