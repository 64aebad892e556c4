import Backtrack.Graph.Test

/-!
# Graphs of tests

A graph has one vertex per test.  A vertex names the vertices to go on with once its test
has passed, the one to try first in front; this order is the whole priority of
backtracking.  Vertices are known by their number.
-/

namespace Backtrack

/-- A test and the vertices to go on with once it has passed, in the order in which they are
tried. -/
structure Vertex where
  automaton : Automaton
  next : List Nat
deriving DecidableEq, Repr

namespace Vertex

def plain (test : Test) (next : List Nat) : Vertex := ⟨⟨test, false⟩, next⟩

end Vertex

/-- A graph of tests, with the numbers of groups and of loops whose books its tests keep.  Every
attempt begins at `start`, and a match is complete at `terminal`.  No edge leads to `failure`,
and its test never passes: it stands for the failure of an attempt. -/
structure Graph where
  vertices : Array Vertex
  start : Nat
  terminal : Nat
  failure : Nat
  captures : Nat
  loops : Nat
deriving DecidableEq, Repr

namespace Graph

def size (g : Graph) : Nat := g.vertices.size

def edges (g : Graph) : Nat := g.vertices.foldl (fun n v => n + v.next.length) 0

/-- How many vertices have a negated test. -/
def negated (g : Graph) : Nat := g.vertices.countP (·.automaton.negated)

def successors (g : Graph) (n : Nat) : List Nat :=
  match g.vertices[n]? with
  | some v => v.next
  | none => []

/-- The state after the test at vertex `n`, or nothing if it fails. -/
def run (g : Graph) (n : Nat) (σ : State) : Option State :=
  match g.vertices[n]? with
  | some v => v.automaton.run σ
  | none => none

/-! ## Listing -/

/-- A number, filled up with zeros to five digits. -/
def fiveDigits (n : Nat) : String :=
  String.ofList ((Nat.toDigits 10 n).leftpad 5 '0')

def listingLine (n : Nat) (v : Vertex) : String :=
  let arrow := if v.next.isEmpty then "" else " -> "
  fiveDigits n ++ ": " ++ v.automaton.listing ++ arrow ++
    String.intercalate ", " (v.next.map Nat.repr) ++ "\n"

/-- All vertices, one in a line, after an empty line. -/
def listing (g : Graph) : String :=
  (g.vertices.toList.zipIdx).foldl (fun text (v, n) => text ++ listingLine n v) "\n"

end Graph

end Backtrack
