import Backtrack.Regex.Braces

/-!
# How many vertices a tree may need

Before a graph is built, its size is estimated from above.  The estimate is made without
knowing in which mode a part of the tree will be read, and it is kept in a machine word,
where it stops at the greatest value instead of running over.
-/

namespace Backtrack

def maxVertices : Nat := 250000

def maxWord : Nat := 18446744073709551615

/-- The sum of two words, or the greatest word. -/
def saturatingAdd (m n : Nat) : Nat := min (m + n) maxWord

/-- The product of two words, or the greatest word. -/
def saturatingMul (m n : Nat) : Nat := min (m * n) maxWord

namespace Quantifier

/-- How many copies a repetition makes of its body.  Without an upper bound there is one
copy past the mandatory ones; their number never exceeds the greatest bound. -/
def copies (q : Quantifier) : Nat :=
  match q.most with
  | some most => max most q.least
  | none => min (q.least + 1) maxBound

end Quantifier

namespace Regex

mutual

/-- An upper bound of the number of vertices of a tree, in either mode. -/
def estimate : Regex → Nat
  | .atom _ => 1
  | .seq items => estimateAll items 2
  | .alt branches => estimateAll branches 2
  | .charClass members => estimateAll members 2
  | .negation body => saturatingAdd (estimate body) 1
  | .group _ body => saturatingAdd (estimate body) 2
  | .repeated body count =>
    saturatingAdd (saturatingMul count.copies (estimate body)) 6

/-- The estimates of several trees, added to `sum`. -/
def estimateAll : List Regex → Nat → Nat
  | [], sum => sum
  | t :: rest, sum => estimateAll rest (saturatingAdd sum (estimate t))

end

end Regex

end Backtrack
