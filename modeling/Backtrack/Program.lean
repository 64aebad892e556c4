import Backtrack.Graph.Estimate
import Backtrack.Graph.Halting
import Backtrack.PatternError

/-!
# Programs

A program is a graph on which every walk ends.  `Program.compile` makes one of any tree
whose estimate is within the limit, and `Program.search` looks for the leftmost match.
-/

namespace Backtrack

/-- A graph on which every walk ends. -/
structure Program where
  graph : Graph
  halts : graph.Halts

namespace Program

instance : DecidableEq Program := fun p q =>
  if h : p.graph = q.graph then .isTrue (by cases p; cases q; cases h; rfl)
  else .isFalse fun hpq => h (congrArg graph hpq)

/-- The program of a tree, with `captures` groups remembered.  A tree whose program could
be too large is refused before anything is built. -/
def compile (t : Regex) (captures : Nat) : Except PatternError Program :=
  if maxVertices < saturatingAdd t.estimate 3 then .error (.tooLarge maxVertices)
  else .ok ⟨t.graph captures, t.graph_halts captures⟩

theorem graph_of_compile {t : Regex} {captures : Nat} {p : Program}
    (h : compile t captures = .ok p) : p.graph = t.graph captures := by
  unfold compile at h
  split at h
  · cases h
  · cases h
    rfl

/-- Searches `subject` for the first match that begins at byte offset `start` or later.
An offset inside a character counts as that of the next one. -/
def search (p : Program) (subject : String) (start : Nat) : Report :=
  match Text.boundaryFrom? subject start with
  | some start =>
    let σ := State.fresh subject start p.graph.captures p.graph.loops
    p.graph.walk (p.graph.attempt σ) (p.halts.acc σ)
  | none => ⟨[], none⟩

/-- The state in which the first match from byte offset `start` on ends. -/
def run (p : Program) (subject : String) (start : Nat) : Option State :=
  (p.search subject start).final

end Program

end Backtrack
