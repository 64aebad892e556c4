import Backtrack.State
import Backtrack.Text.Quoted

/-!
# What happens while a pattern is built and searched for
-/

namespace Backtrack

/-- A pattern has been read, one has become a graph, the attempt at `start` has failed and the
one at `next` begins, or a match has been found. -/
inductive Event where
  | parsed (text : String) (groups : Nat)
  | compiled (pattern : String) (vertices captures loops : Nat)
  | retried (start next : Nat)
  | matched (span : Span)
deriving DecidableEq, Repr

namespace Event

def message : Event → String
  | parsed text groups => s!"parsed pattern {Text.quoted text} with {groups} capture(s)"
  | compiled pattern vertices captures loops =>
    s!"compiled `{pattern}` into {vertices} nodes ({captures} captures, {loops} loops)"
  | retried start next => s!"no match at {start}, retrying at {next}"
  | matched span => s!"match at {span.start}..{span.stop}"

end Event

end Backtrack
