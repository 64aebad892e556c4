import Backtrack.Event
import Backtrack.Match
import Backtrack.Program
import Backtrack.Regex.Parser
import Backtrack.Regex.Printer

/-!
# Patterns

A pattern is read and compiled once and can then be searched for any number of times.
Two patterns are the same if their trees are written in the same way.
-/

namespace Backtrack

/-- A pattern that can be searched for: its tree, the program of the tree, the groups in the order
in which they open, and as `source` the tree written out again. -/
structure Pattern where
  source : String
  root : Regex
  captures : List Capture
  program : Program

namespace Pattern

/-- Reads and compiles a pattern, and tells what happened. -/
def build (text : String) : List Event × Except PatternError Pattern :=
  match Regex.parse text with
  | .error e => ([], .error e)
  | .ok ⟨root, groups⟩ =>
    match Program.compile root groups with
    | .error e => ([.parsed text groups], .error e)
    | .ok program =>
      let source := root.toPattern
      let graph := program.graph
      ([.parsed text groups, .compiled source graph.size graph.captures graph.loops],
        .ok ⟨source, root, Parsed.captures ⟨root, groups⟩, program⟩)

def ofString (text : String) : Except PatternError Pattern := (build text).2

/-- What a pattern is made of: the tree that was read, written anew and compiled. -/
theorem ofString_eq_ok_iff {text : String} {p : Pattern} :
    ofString text = .ok p ↔ ∃ groups, Regex.parse text = .ok ⟨p.root, groups⟩ ∧
      Program.compile p.root groups = .ok p.program ∧ p.source = p.root.toPattern ∧
      p.captures = Parsed.captures ⟨p.root, groups⟩ := by
  obtain ⟨source, root, captures, program⟩ := p
  unfold ofString build
  constructor
  · intro h
    cases hparse : Regex.parse text with
    | error e => rw [hparse] at h; cases h
    | ok parsed =>
      obtain ⟨t, groups⟩ := parsed
      cases hcompile : Program.compile t groups with
      | error e => simp only [hparse, hcompile] at h; cases h
      | ok compiled =>
        simp only [hparse, hcompile] at h
        cases h
        exact ⟨groups, rfl, hcompile, rfl, rfl⟩
  · rintro ⟨groups, hparse, hcompile, hsource, hcaptures⟩
    simp only [hparse, hcompile]
    rw [← hsource, ← hcaptures]

/-- A pattern that can be read is accepted if the estimate of its tree is within the limit. -/
theorem exists_ofString_eq_ok {text : String} {t : Regex} {groups : Nat}
    (h : Regex.parse text = .ok ⟨t, groups⟩) (hsize : saturatingAdd t.estimate 3 ≤ maxVertices) :
    ∃ p, ofString text = .ok p ∧ p.root = t ∧ p.captures = Parsed.captures ⟨t, groups⟩ := by
  let p : Pattern := ⟨t.toPattern, t, Parsed.captures ⟨t, groups⟩,
    ⟨t.graph groups, t.graph_halts groups⟩⟩
  have hcompile : Program.compile t groups = .ok p.program := if_neg (by omega)
  exact ⟨p, ofString_eq_ok_iff.2 ⟨groups, h, hcompile, rfl, rfl⟩, rfl, rfl⟩

instance : ToString Pattern := ⟨source⟩

instance : BEq Pattern := ⟨fun p q => p.source == q.source⟩

instance : Hashable Pattern := ⟨fun p => hash p.source⟩

/-! ## Searching -/

def events (report : Report) : List Event :=
  report.retries.map (fun (start, next) => .retried start next) ++
    (report.final.map fun σ => Event.matched ⟨σ.start, σ.offset⟩).toList

/-- The first match that begins at byte offset `start` or later, and what happens in the
search. -/
def trace (p : Pattern) (subject : String) (start : Nat) : List Event × Option Match :=
  let report := p.program.search subject start
  (events report, report.final.map (.ofState p.source p.captures))

/-- The first match that begins at byte offset `start` or later. -/
def findFrom (p : Pattern) (subject : String) (start : Nat) : Option Match :=
  (p.program.run subject start).map (.ofState p.source p.captures)

def find (p : Pattern) (subject : String) : Option Match := p.findFrom subject 0

/-- Where the first match from byte offset `start` on begins. -/
def positionFrom (p : Pattern) (subject : String) (start : Nat) : Option Nat :=
  (p.program.run subject start).map State.start

def position (p : Pattern) (subject : String) : Option Nat := p.positionFrom subject 0

def isMatch (p : Pattern) (subject : String) : Bool := (p.position subject).isSome

/-- At most `count` matches, the first one searched for from byte offset `start` on and
each other one from where the one before it ended, or one byte later if that was empty. -/
def take (p : Pattern) (subject : String) : (count start : Nat) → List Match
  | 0, _ => []
  | count + 1, start =>
    match p.findFrom subject start with
    | none => []
    | some m =>
      let ⟨first, stop⟩ := m.span
      m :: p.take subject count (if first = stop then stop + 1 else stop)

/-- All matches from byte offset `start` on.  Each is searched for at least one byte after
the one before it, and none begins after the end of the subject. -/
def findAll (p : Pattern) (subject : String) (start : Nat) : List Match :=
  p.take subject (subject.utf8ByteSize + 1 - start) start

end Pattern

/-- Whether a pattern text matches anywhere in `subject`. -/
def isMatch (subject pattern : String) : Except PatternError Bool :=
  (Pattern.ofString pattern).map (·.isMatch subject)

end Backtrack
