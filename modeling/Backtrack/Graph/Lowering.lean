import Backtrack.Graph.Basic

/-!
# The graph of a tree

Every tree becomes a block of vertices with consecutive numbers.  The block is entered at
its first vertex, and it is left for a given list of vertices: which numbers the block
has, how its loops are numbered and where it leads are parameters (`Regex.block`), so the
copies that a repetition makes of its body differ in nothing else.

In negated mode each test becomes its opposite, which does not move, and branches change
places with sequences: where a class tries its members one after another until one
passes, a negated class checks that all of them fail.  A negation then consumes the
character that its body was checked against.
-/

namespace Backtrack.Regex

/-! ## How large a block is -/

mutual

/-- The number of vertices of the block of a tree. -/
def size (negated : Bool) : Regex → Nat
  | .atom _ => 1
  | .seq items => if negated then sizeSplit negated items else sizeChain negated items
  | .alt branches => if negated then sizeChain negated branches else sizeSplit negated branches
  | .charClass members =>
    if negated then sizeChain negated members else sizeSplit negated members
  | .group _ body => size negated body + 2
  | .negation body => if negated then size false body else size true body + 1
  | .repeated body ⟨lo, some hi, _⟩ => 2 + max lo hi * size negated body
  | .repeated body ⟨lo, none, _⟩ => 6 + (lo + 1) * size negated body

/-- The number of vertices of trees in a row, each of which must match. -/
def sizeChain (negated : Bool) : List Regex → Nat
  | [] => 1
  | [t] => size negated t
  | t :: u :: rest => size negated t + sizeChain negated (u :: rest)

/-- The number of vertices of trees side by side, one of which must match. -/
def sizeSplit (negated : Bool) : List Regex → Nat
  | [] => 2
  | t :: rest => size negated t + sizeSplit negated rest

end

mutual

/-- The number of loops without an upper bound in the block of a tree. -/
def loops : Regex → Nat
  | .atom _ => 0
  | .seq items => loopsOf items
  | .alt branches => loopsOf branches
  | .charClass members => loopsOf members
  | .group _ body => loops body
  | .negation body => loops body
  | .repeated body ⟨lo, some hi, _⟩ => max lo hi * loops body
  | .repeated body ⟨lo, none, _⟩ => lo * loops body + 1 + loops body

def loopsOf : List Regex → Nat
  | [] => 0
  | t :: rest => loops t + loopsOf rest

end

/-! ## The vertices of a block -/

/-- The two ways to go on when another round is possible: the lazy one prefers to stop. -/
def choice (isLazy : Bool) (more stop : Nat) : List Nat :=
  if isLazy then [stop, more] else [more, stop]

/-- Where to go on after `i` of `hi` rounds, `lo` of which are due: round `i` begins at
`base + i * width`, and after the last one the repetition goes on at `stop`. -/
def stage (lo hi : Nat) (isLazy : Bool) (base width stop i : Nat) : List Nat :=
  if i < lo then [base + i * width]
  else if i < hi then choice isLazy (base + i * width) stop
  else [stop]

/-- Blocks between a vertex that leads to the entries of each and a vertex to which they
lead. -/
def around (entries : List Nat) (next : List Nat) (inner : List Vertex) : List Vertex :=
  Vertex.plain .join entries :: inner ++ [Vertex.plain .join next]

/-- The first vertices of trees whose blocks follow each other from `base` on. -/
def entries (negated : Bool) (base : Nat) : List Regex → List Nat
  | [] => []
  | t :: rest => base :: entries negated (base + size negated t) rest

mutual

/-- The vertices of a tree: they are numbered from `base` on, its loops from `loop` on,
and the vertices that complete it lead on to `next`. -/
def block (negated : Bool) (base loop : Nat) (next : List Nat) : Regex → List Vertex
  | .atom a => [⟨⟨.atom a, negated⟩, next⟩]
  | .seq items =>
    if negated then
      around (entries negated (base + 1) items) next
        (branches negated (base + 1) loop [base + sizeSplit negated items - 1] items)
    else chain negated base loop next items
  | .alt alternatives =>
    if negated then chain negated base loop next alternatives
    else
      around (entries negated (base + 1) alternatives) next
        (branches negated (base + 1) loop [base + sizeSplit negated alternatives - 1]
          alternatives)
  | .charClass members =>
    if negated then chain negated base loop next members
    else
      around (entries negated (base + 1) members) next
        (branches negated (base + 1) loop [base + sizeSplit negated members - 1] members)
  | .group slot body =>
    [Vertex.plain (.openSlot slot) [base + 1]] ++
      block negated (base + 1) loop [base + 1 + size negated body] body ++
      [Vertex.plain (.closeSlot slot) next]
  | .negation body =>
    if negated then block false base loop next body
    else block true base loop [base + size true body] body ++ [Vertex.plain .anyChar next]
  | .repeated body ⟨lo, some hi, isLazy⟩ =>
    let width := size negated body
    let after := stage lo (max lo hi) isLazy (base + 2) width (base + 1)
    [Vertex.plain .join (after 0), Vertex.plain .join next] ++
      (List.range (max lo hi)).flatMap fun i =>
        block negated (base + 2 + i * width) (loop + i * loops body) (after (i + 1)) body
  | .repeated body ⟨lo, none, isLazy⟩ =>
    let width := size negated body
    let again := base + 2 + lo * width
    let mark := loop + lo * loops body
    let after := stage lo lo isLazy (base + 2) width again
    [Vertex.plain .join (after 0), Vertex.plain .join next] ++
      ((List.range lo).flatMap fun i =>
        block negated (base + 2 + i * width) (loop + i * loops body) (after (i + 1)) body) ++
      [Vertex.plain .join (choice isLazy (again + 1) (base + 1)),
        Vertex.plain (.enterLoop mark) [again + 2]] ++
      block negated (again + 2) (mark + 1) [again + 2 + width, again + 3 + width] body ++
      [Vertex.plain (.progressed mark) [again], Vertex.plain (.stalled mark) [base + 1]]

/-- The vertices of trees in a row, each leading on to the next one. -/
def chain (negated : Bool) (base loop : Nat) (next : List Nat) : List Regex → List Vertex
  | [] => [Vertex.plain .join next]
  | [t] => block negated base loop next t
  | t :: u :: rest =>
    block negated base loop [base + size negated t] t ++
      chain negated (base + size negated t) (loop + loops t) next (u :: rest)

/-- The vertices of trees side by side, each leading on to `next`. -/
def branches (negated : Bool) (base loop : Nat) (next : List Nat) : List Regex → List Vertex
  | [] => []
  | t :: rest =>
    block negated base loop next t ++
      branches negated (base + size negated t) (loop + loops t) next rest

end

/-- The graph of a tree, with `captures` groups remembered: a first vertex, the block of
the tree, the terminal and the vertex for failure. -/
def graph (t : Regex) (captures : Nat) : Graph where
  vertices :=
    ([Vertex.plain .join [1]] ++ block false 1 0 [1 + size false t] t ++
      [Vertex.plain .join [], Vertex.plain .never []]).toArray
  start := 0
  terminal := 1 + size false t
  failure := 2 + size false t
  captures
  loops := loops t

end Backtrack.Regex
