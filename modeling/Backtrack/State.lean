import Backtrack.Text.Offset

/-!
# How far a match has come

A state is a snapshot of one attempt at a match: where the attempt began, how far it has
come, what each group has matched so far and where the current round of each loop began.
States are values: every transition gives a new state, and backtracking is going on with
an older one.
-/

namespace Backtrack

/-- A stretch of the subject, between two byte offsets. -/
structure Span where
  start : Nat
  stop : Nat
deriving DecidableEq, Hashable, Repr

/-- What is known of one group: where it was last begun, and what it matched when it was last
completed. -/
structure Slot where
  opened : Option Nat
  span : Option Span
deriving DecidableEq, Repr

namespace Slot

def unset : Slot := ⟨none, none⟩

/-- The group is completed at byte offset `offset`, if it has been begun. -/
def close (s : Slot) (offset : Nat) : Slot :=
  match s.opened with
  | some start => { s with span := some ⟨start, offset⟩ }
  | none => s

end Slot

/-- A snapshot of an attempt at a match.  The attempt began at `start` and has reached `offset`;
`marks` has, for each loop, the offset where its current round began. -/
structure State where
  subject : String
  start : Nat
  offset : Nat
  slots : Array Slot
  marks : Array Nat
deriving DecidableEq, Repr

namespace State

/-- The beginning of an attempt at byte offset `offset`, with every group unset. -/
def fresh (subject : String) (offset captures loops : Nat) : State where
  subject
  start := offset
  offset
  slots := Array.replicate captures .unset
  marks := Array.replicate loops offset

/-! ## Looking around -/

def peek (σ : State) : Option Char := Text.charAt? σ.subject σ.offset

def prev (σ : State) : Option Char := Text.charBefore? σ.subject σ.offset

def rest (σ : State) : String := Text.suffixFrom σ.subject σ.offset

def atStart (σ : State) : Bool := σ.offset == 0

def atEnd (σ : State) : Bool := decide (σ.subject.utf8ByteSize ≤ σ.offset)

/-- Whether only a newline, the last character of the subject, comes after the current
offset. -/
def beforeFinalNewline (σ : State) : Bool :=
  σ.peek == some '\n' && σ.offset + 1 == σ.subject.utf8ByteSize

/-- Whether the attempt began where the subject ends, so that no later one is possible. -/
def isLastAttempt (σ : State) : Bool := decide (σ.subject.utf8ByteSize ≤ σ.start)

/-- Whether the current round of loop `k` has consumed anything. -/
def progressed (σ : State) (k : Nat) : Bool :=
  match σ.marks[k]? with
  | some mark => decide (mark < σ.offset)
  | none => false

def capture (σ : State) (i : Nat) : Option Span := σ.slots[i]?.bind Slot.span

def captures (σ : State) : List (Option Span) := σ.slots.toList.map Slot.span

/-! ## Moving on -/

def advance (σ : State) (n : Nat) : State := { σ with offset := σ.offset + n }

def openSlot (σ : State) (i : Nat) : State :=
  { σ with slots := σ.slots.modify i fun s => { s with opened := some σ.offset } }

def closeSlot (σ : State) (i : Nat) : State :=
  { σ with slots := σ.slots.modify i (·.close σ.offset) }

/-- A round of loop `k` begins here. -/
def mark (σ : State) (k : Nat) : State := { σ with marks := σ.marks.setIfInBounds k σ.offset }

/-- The beginning of the attempt one character later, unless this is the last one. -/
def nextAttempt (σ : State) : Option State :=
  if σ.isLastAttempt then none
  else
    let width := ((Text.charAt? σ.subject σ.start).map Char.utf8Size).getD 1
    some (fresh σ.subject (σ.start + width) σ.slots.size σ.marks.size)

/-- One character further on, if there is one and it passes `accepts`. -/
def consume (σ : State) (accepts : Char → Bool) : Option State :=
  match σ.peek with
  | some c => if accepts c then some (σ.advance c.utf8Size) else none
  | none => none

end State

end Backtrack
