import Backtrack.Regex.Basic
import Backtrack.State
import Backtrack.Text.Quoted

/-!
# Matches

A match keeps the subject and the pattern it comes from, so that it can tell all its
texts.  Group 0 is the whole match and group `n` the `n`-th group of the pattern.
-/

namespace Backtrack

/-- A match of a pattern: the stretch of the subject that matched, and the stretch that each of
the groups `names` matched, if it took part. -/
structure Match where
  subject : String
  pattern : String
  names : List Capture
  span : Span
  groups : List (Option Span)

namespace Match

def ofState (pattern : String) (names : List Capture) (σ : State) : Match where
  subject := σ.subject
  pattern
  names
  span := ⟨σ.start, σ.offset⟩
  groups := σ.captures

def textOf (m : Match) (s : Span) : String := Text.slice m.subject s.start s.stop

def text (m : Match) : String := m.textOf m.span

def bytes (m : Match) : ByteArray := m.text.toUTF8

def before (m : Match) : String := m.textOf ⟨0, m.span.start⟩

def after (m : Match) : String := m.textOf ⟨m.span.stop, m.subject.utf8ByteSize⟩

/-- The number of groups, the whole match included. -/
def groupCount (m : Match) : Nat := m.groups.length + 1

/-- The stretch that group `n` matched, if there is such a group and it took part. -/
def groupSpan? (m : Match) : Nat → Option Span
  | 0 => some m.span
  | n + 1 => m.groups[n]?.join

def group? (m : Match) (n : Nat) : Option String := (m.groupSpan? n).map m.textOf

def named? (m : Match) (name : String) : Option String :=
  (m.names.find? (·.name == name)).bind fun c => m.group? c.number

def groupTexts (m : Match) : List (Option String) := m.groups.map (·.map m.textOf)

/-- The text of the whole match and the texts of the groups. -/
def texts (m : Match) : List (Option String) := some m.text :: m.groupTexts

/-- A short description, such as `#<Match "whole" 1:"first" 2:nil>`. -/
def describe (m : Match) : String :=
  let groups := (m.names.zip m.groupTexts).map fun (c, text) =>
    " " ++ c.name ++ ":" ++ (text.map Text.quoted).getD "nil"
  "#<Match " ++ Text.quoted m.text ++ String.join groups ++ ">"

instance : ToString Match := ⟨text⟩

/-- Matches are the same if subject, pattern and all texts are; where in the subject the
texts stand does not count. -/
instance : BEq Match :=
  ⟨fun m n => m.subject == n.subject && m.pattern == n.pattern && m.texts == n.texts⟩

instance : Hashable Match :=
  ⟨fun m => mixHash (hash m.subject) (mixHash (hash m.pattern) (hash m.texts))⟩

end Match

end Backtrack
