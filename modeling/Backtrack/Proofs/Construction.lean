import Backtrack.Graph.Block

/-!
# Building a graph step by step

`Regex.block` says what the vertices of a tree are.  Here they are made one after the other
(`Draft.build`): a part is built before it is known where it leads, the edges that lead on from it
are added when it is complete, and loops are numbered as they come.  A step fails if an edge is to
be added that is there already, or at a vertex that is not.

Main statements: `Regex.builds`, no step fails, and what has been built in the end is the block of
the tree; `Regex.graph_built`, the same of whole graphs.
-/

namespace Backtrack

/-- A graph under construction, and how many loops have been numbered. -/
structure Draft where
  vertices : List Vertex
  loops : Nat
deriving DecidableEq, Repr

/-- What is done to a graph under construction; it may fail. -/
abbrev Build := StateT Draft Option

/-- The vertex at which a part is entered and the one from which it is left. -/
structure Fragment where
  entry : Nat
  exit : Nat
deriving DecidableEq, Repr

namespace Draft

/-- The number of vertices, which is the number of the next one. -/
def size (d : Draft) : Nat := d.vertices.length

def empty : Draft := ⟨[], 0⟩

/-! ## Single steps -/

/-- A new vertex, from which no edge leads anywhere. -/
def push (a : Automaton) : Build Nat := fun d =>
  some (d.size, { d with vertices := d.vertices ++ [⟨a, []⟩] })

def pushPlain (test : Test) : Build Nat := push ⟨test, false⟩

/-- A new edge, tried after those that are there.  It fails if there is no such vertex, and also if
there is such an edge already. -/
def connect (m n : Nat) : Build Unit := fun d =>
  match d.vertices[m]? with
  | some v =>
    if n ∈ v.next then none
    else some ((), { d with vertices := d.vertices.set m { v with next := v.next ++ [n] } })
  | none => none

/-- New edges to `more` and to `stop`, in the order of the choice. -/
def connectChoice (isLazy : Bool) (m more stop : Nat) : Build Unit :=
  if isLazy then do
    connect m stop
    connect m more
  else do
    connect m more
    connect m stop

def connectAll : List Nat → Nat → Build Unit
  | [], _ => pure ()
  | m :: rest, n => do
    connect m n
    connectAll rest n

def newLoop : Build Nat := fun d => some (d.loops, { d with loops := d.loops + 1 })

/-- Copies one after the other: `link` leads from the last vertex so far to the first one of the
next copy. -/
def rounds (copy : Build Fragment) (link : Nat → Nat → Build Unit) : Nat → Nat → Build Nat
  | 0, last => pure last
  | n + 1, last => do
    let part ← copy
    link last part.entry
    rounds copy link n part.exit

/-- A loop that begins at `again`, a vertex that is there: a round of it is a copy, and after a
round it goes back to `again` if the round has progressed, and to `stop` if not. -/
def loopBack (copy : Build Fragment) (isLazy : Bool) (mark again stop : Nat) : Build Unit := do
  let enter ← pushPlain (.enterLoop mark)
  let part ← copy
  let progressed ← pushPlain (.progressed mark)
  let stalled ← pushPlain (.stalled mark)
  connect enter part.entry
  connect part.exit progressed
  connect part.exit stalled
  connect progressed again
  connect stalled stop
  connectChoice isLazy again enter stop

/-- Parts side by side: `parts` puts them behind the vertex it is given, and tells their last
vertices. -/
def sideBySide (parts : Nat → Build (List Nat)) : Build Fragment := do
  let split ← pushPlain .join
  let lasts ← parts split
  let join ← pushPlain .join
  connectAll lasts join
  return ⟨split, join⟩

/-! ## Trees -/

mutual

/-- Builds the part of a tree.  An edge that leads on from a part is added after the part is
complete. -/
def build (negated : Bool) : Regex → Build Fragment
  | .atom a => do
    let n ← push ⟨.atom a, negated⟩
    return ⟨n, n⟩
  | .seq items =>
    if negated then sideBySide fun split => buildBranches negated split items
    else buildAll negated items
  | .alt branches =>
    if negated then buildAll negated branches
    else sideBySide fun split => buildBranches negated split branches
  | .charClass members =>
    if negated then buildAll negated members
    else sideBySide fun split => buildBranches negated split members
  | .group slot body => do
    let opening ← pushPlain (.openSlot slot)
    let part ← build negated body
    let closing ← pushPlain (.closeSlot slot)
    connect opening part.entry
    connect part.exit closing
    return ⟨opening, closing⟩
  | .negation body =>
    if negated then build false body
    else do
      let part ← build true body
      let step ← pushPlain .anyChar
      connect part.exit step
      return ⟨part.entry, step⟩
  | .repeated body ⟨lo, some hi, isLazy⟩ => do
    let entry ← pushPlain .join
    let stop ← pushPlain .join
    let last ← rounds (build negated body) connect lo entry
    let last ← rounds (build negated body) (fun m more => connectChoice isLazy m more stop)
      (hi - lo) last
    connect last stop
    return ⟨entry, stop⟩
  | .repeated body ⟨lo, none, isLazy⟩ => do
    let entry ← pushPlain .join
    let stop ← pushPlain .join
    let last ← rounds (build negated body) connect lo entry
    let mark ← newLoop
    let again ← pushPlain .join
    connect last again
    loopBack (build negated body) isLazy mark again stop
    return ⟨entry, stop⟩

def buildAll (negated : Bool) : List Regex → Build Fragment
  | [] => do
    let n ← pushPlain .join
    return ⟨n, n⟩
  | t :: rest => do
    let part ← build negated t
    let last ← buildRow negated part.exit rest
    return ⟨part.entry, last⟩

/-- Builds trees one after the other, behind the vertex `last`. -/
def buildRow (negated : Bool) (last : Nat) : List Regex → Build Nat
  | [] => return last
  | t :: rest => do
    let part ← build negated t
    connect last part.entry
    buildRow negated part.exit rest

/-- Builds trees behind the vertex `split`, and tells their last vertices. -/
def buildBranches (negated : Bool) (split : Nat) : List Regex → Build (List Nat)
  | [] => return []
  | t :: rest => do
    let part ← build negated t
    connect split part.entry
    let lasts ← buildBranches negated split rest
    return part.exit :: lasts

end

/-- Builds a whole graph, and tells its first vertex, its terminal and its failure. -/
def buildWhole (t : Regex) : Build (Nat × Nat × Nat) := do
  let start ← pushPlain .join
  let part ← build false t
  let terminal ← pushPlain .join
  connect start part.entry
  connect part.exit terminal
  let failure ← pushPlain .never
  return (start, terminal, failure)

/-- The graph of a tree, built from nothing. -/
def graph (t : Regex) (captures : Nat) : Option Graph := do
  let ((start, terminal, failure), d) ← buildWhole t empty
  return ⟨d.vertices.toArray, start, terminal, failure, captures, d.loops⟩

end Draft

/-! ## The vertex from which a part is left -/

/-- In the vertices `f next`, those to go on with after vertex `n` are `next`, and nothing else
depends on them. -/
def OpenAt (n : Nat) (f : List Nat → List Vertex) : Prop :=
  ∃ us a vs, us.length = n ∧ ∀ next, f next = us ++ ⟨a, next⟩ :: vs

namespace OpenAt

variable {n : Nat} {f : List Nat → List Vertex}

theorem vertex (a : Automaton) : OpenAt 0 fun next => [⟨a, next⟩] :=
  ⟨[], a, [], rfl, fun _ => rfl⟩

theorem before (h : OpenAt n f) (ws : List Vertex) : OpenAt n fun next => f next ++ ws := by
  obtain ⟨us, a, vs, hlen, hf⟩ := h
  refine ⟨us, a, vs ++ ws, hlen, fun next => ?_⟩
  simp only [hf, List.append_assoc, List.cons_append]

theorem behind (h : OpenAt n f) (ws : List Vertex) :
    OpenAt (ws.length + n) fun next => ws ++ f next := by
  obtain ⟨us, a, vs, hlen, hf⟩ := h
  refine ⟨ws ++ us, a, vs, ?_, fun next => ?_⟩
  · rw [List.length_append, hlen]
  · simp only [hf, List.append_assoc]

end OpenAt

namespace Regex

mutual

/-- The vertex from which the block of a tree is left, counted from its first one. -/
def exit (negated : Bool) : Regex → Nat
  | .atom _ => 0
  | .seq items => if negated then sizeSplit negated items - 1 else exitChain negated items
  | .alt branches => if negated then exitChain negated branches else sizeSplit negated branches - 1
  | .charClass members =>
    if negated then exitChain negated members else sizeSplit negated members - 1
  | .group _ body => size negated body + 1
  | .negation body => if negated then exit false body else size true body
  | .repeated _ _ => 1

/-- The vertex from which trees in a row are left, counted from the first one. -/
def exitChain (negated : Bool) : List Regex → Nat
  | [] => 0
  | [t] => exit negated t
  | t :: u :: rest => size negated t + exitChain negated (u :: rest)

end

/-- The vertices from which trees are left whose blocks follow each other from `base` on. -/
def exits (negated : Bool) (base : Nat) : List Regex → List Nat
  | [] => []
  | t :: rest => (base + exit negated t) :: exits negated (base + size negated t) rest

theorem openAt_chain {negated : Bool} {ts : List Regex}
    (ih : ∀ t ∈ ts, ∀ base loop,
      OpenAt (exit negated t) fun next => block negated base loop next t) (base loop : Nat) :
    OpenAt (exitChain negated ts) fun next => chain negated base loop next ts := by
  induction ts generalizing base loop with
  | nil => exact .vertex _
  | cons t rest ihts =>
    cases rest with
    | nil => exact ih t List.mem_cons_self base loop
    | cons u rest =>
      have hrest := ihts (fun v hv => ih v (List.mem_cons_of_mem t hv))
        (base + size negated t) (loop + loops t)
      have hbehind := hrest.behind (block negated base loop [base + size negated t] t)
      rw [length_block] at hbehind
      exact hbehind

theorem openAt_around {negated : Bool} (ts : List Regex) (base loop : Nat) (entries : List Nat)
    (join : List Nat) :
    OpenAt (sizeSplit negated ts - 1) fun next =>
      around entries next (branches negated base loop join ts) := by
  have hlen := length_branches (fun t (_ : t ∈ ts) => length_block t negated) base loop join
  have hbehind := (OpenAt.vertex ⟨.join, false⟩).behind
    (Vertex.plain .join entries :: branches negated base loop join ts)
  rw [List.length_cons, show _ + 1 + 0 = sizeSplit negated ts - 1 by omega] at hbehind
  exact hbehind

/-- The block of a tree is left from one of its vertices. -/
theorem openAt_block (t : Regex) (negated : Bool) (base loop : Nat) :
    OpenAt (exit negated t) fun next => block negated base loop next t := by
  induction t generalizing negated base loop with
  | atom a => exact .vertex _
  | seq items ih =>
    cases negated with
    | false => exact openAt_chain (fun t ht => ih t ht false) base loop
    | true => exact openAt_around ..
  | alt branches ih =>
    cases negated with
    | false => exact openAt_around ..
    | true => exact openAt_chain (fun t ht => ih t ht true) base loop
  | charClass members ih =>
    cases negated with
    | false => exact openAt_around ..
    | true => exact openAt_chain (fun t ht => ih t ht true) base loop
  | negation body ih =>
    cases negated with
    | true => exact ih false base loop
    | false =>
      have hbehind := (OpenAt.vertex ⟨.anyChar, false⟩).behind
        (block true base loop [base + size true body] body)
      rw [length_block] at hbehind
      exact hbehind
  | group slot body ih =>
    have hbehind := (OpenAt.vertex ⟨.closeSlot slot, false⟩).behind
      ([Vertex.plain (.openSlot slot) [base + 1]] ++
        block negated (base + 1) loop [base + 1 + size negated body] body)
    rw [List.length_append, length_block, List.length_singleton, Nat.add_zero, Nat.add_comm]
      at hbehind
    exact hbehind
  | repeated body count ih =>
    obtain ⟨lo, hi, isLazy⟩ := count
    have hhead : ∀ first, OpenAt 1 fun next =>
        [Vertex.plain .join first, Vertex.plain .join next] := fun first =>
      (OpenAt.vertex ⟨.join, false⟩).behind [Vertex.plain .join first]
    cases hi with
    | some hi => exact (hhead _).before _
    | none => exact ((((hhead _).before _).before _).before _).before _

theorem exit_lt_size (t : Regex) (negated : Bool) : exit negated t < size negated t := by
  obtain ⟨us, a, vs, hlen, hblock⟩ := openAt_block t negated 0 0
  have hsize := congrArg List.length (hblock [])
  rw [length_block, List.length_append, List.length_cons] at hsize
  omega

end Regex

/-! ## What the steps come to -/

namespace Draft

variable {α β : Type} {d d' : Draft} {k m n : Nat} {f : List Nat → List Vertex} {next : List Nat}
  {vs : List Vertex}

/-- What comes after a step that succeeds. -/
theorem bind_of_eq {x : Build α} {a : α} (h : x d = some (a, d')) (y : α → Build β) :
    (x >>= y) d = y a d' := by
  show (x d).bind (fun r => y r.1 r.2) = _
  rw [h]
  rfl

theorem push_eq (a : Automaton) (vs : List Vertex) (k : Nat) :
    push a ⟨vs, k⟩ = some (vs.length, ⟨vs ++ [⟨a, []⟩], k⟩) := rfl

theorem newLoop_eq (vs : List Vertex) (k : Nat) : newLoop ⟨vs, k⟩ = some (k, ⟨vs, k + 1⟩) := rfl

/-- An edge that is not there is added behind those that are. -/
theorem connect_eq (h : OpenAt m f) (hn : n ∉ next) (k : Nat) :
    connect m n ⟨f next, k⟩ = some ((), ⟨f (next ++ [n]), k⟩) := by
  obtain ⟨us, a, vs, rfl, hf⟩ := h
  unfold connect
  simp only [hf, List.getElem?_append_right (Nat.le_refl _), Nat.sub_self, List.getElem?_cons_zero,
    if_neg hn, List.set_append_right _ _ (Nat.le_refl _), List.set_cons_zero]

theorem connectChoice_eq (h : OpenAt m f) {more stop : Nat} (hne : more ≠ stop) (isLazy : Bool)
    (k : Nat) : connectChoice isLazy m more stop ⟨f [], k⟩ =
      some ((), ⟨f (Regex.choice isLazy more stop), k⟩) := by
  cases isLazy with
  | false =>
    refine (bind_of_eq (connect_eq h List.not_mem_nil k) _).trans ?_
    exact connect_eq h (by simpa using hne.symm) k
  | true =>
    refine (bind_of_eq (connect_eq h List.not_mem_nil k) _).trans ?_
    exact connect_eq h (by simpa using hne) k

end Draft

/-! ## Trees in a row and side by side -/

namespace Regex

open Draft (build buildAll buildRow buildBranches connect connectAll connectChoice pushPlain push_eq
  newLoop newLoop_eq rounds loopBack sideBySide bind_of_eq connect_eq connectChoice_eq)

variable {negated : Bool} {t : Regex} {ts : List Regex}

/-- The block of a tree is built behind what is there, with nothing to go on with. -/
def Builds (negated : Bool) (t : Regex) : Prop :=
  ∀ vs k, build negated t ⟨vs, k⟩ = some (⟨vs.length, vs.length + exit negated t⟩,
    ⟨vs ++ block negated vs.length k [] t, k + loops t⟩)

/-- An edge is added that leads on from a block. -/
theorem connect_exit (us ws : List Vertex) (t : Regex) (negated : Bool) (loop n k : Nat) :
    connect (us.length + exit negated t) n ⟨us ++ block negated us.length loop [] t ++ ws, k⟩ =
      some ((), ⟨us ++ block negated us.length loop [n] t ++ ws, k⟩) :=
  connect_eq (((openAt_block t negated us.length loop).behind us).before ws) List.not_mem_nil k

theorem buildRow_eq {rest : List Regex} (ih : ∀ u ∈ rest, Builds negated u) (us : List Vertex)
    (loop : Nat) :
    buildRow negated (us.length + exit negated t) rest
        ⟨us ++ block negated us.length loop [] t, loop + loops t⟩ =
      some (us.length + exitChain negated (t :: rest),
        ⟨us ++ chain negated us.length loop [] (t :: rest), loop + loopsOf (t :: rest)⟩) := by
  induction rest generalizing t us loop with
  | nil => rfl
  | cons u rest ihrest =>
    rw [buildRow]
    refine (bind_of_eq (ih u List.mem_cons_self _ _) _).trans ?_
    refine (bind_of_eq (connect_exit ..) _).trans ?_
    have hlen : ∀ next, (us ++ block negated us.length loop next t).length =
        us.length + size negated t := fun next => by rw [List.length_append, length_block]
    have hrest := ihrest (t := u) (fun v hv => ih v (List.mem_cons_of_mem u hv))
      (us ++ block negated us.length loop [us.length + size negated t] t) (loop + loops t)
    rw [hlen] at hrest ⊢
    rw [hrest, exitChain, chain, loopsOf, List.append_assoc, Nat.add_assoc, Nat.add_assoc]
    rfl

theorem buildAll_eq (ih : ∀ t ∈ ts, Builds negated t) (vs : List Vertex) (k : Nat) :
    buildAll negated ts ⟨vs, k⟩ = some (⟨vs.length, vs.length + exitChain negated ts⟩,
      ⟨vs ++ chain negated vs.length k [] ts, k + loopsOf ts⟩) := by
  cases ts with
  | nil => rfl
  | cons t rest =>
    rw [buildAll]
    refine (bind_of_eq (ih t List.mem_cons_self vs k) _).trans ?_
    exact (bind_of_eq (buildRow_eq (fun u hu => ih u (List.mem_cons_of_mem t hu)) vs k) _).trans rfl

/-- Edges to each tree are added to those that the vertex in front of them has. -/
theorem buildBranches_eq (ih : ∀ t ∈ ts, Builds negated t) (us ws : List Vertex) (a : Automaton)
    (next : List Nat) (k : Nat) (hnext : ∀ n ∈ next, n < us.length + 1 + ws.length) :
    buildBranches negated us.length ts ⟨us ++ ⟨a, next⟩ :: ws, k⟩ =
      some (exits negated (us.length + 1 + ws.length) ts,
        ⟨us ++ ⟨a, next ++ entries negated (us.length + 1 + ws.length) ts⟩ ::
          (ws ++ branches negated (us.length + 1 + ws.length) k [] ts), k + loopsOf ts⟩) := by
  induction ts generalizing next ws k with
  | nil =>
    rw [entries, branches, List.append_nil, List.append_nil]
    rfl
  | cons t rest ihrest =>
    have hlen : (us ++ (⟨a, next⟩ : Vertex) :: ws).length = us.length + 1 + ws.length := by
      rw [List.length_append, List.length_cons]
      omega
    rw [buildBranches]
    refine (bind_of_eq (ih t List.mem_cons_self _ _) _).trans ?_
    rw [hlen, List.append_assoc, List.cons_append]
    have hopen : OpenAt us.length fun next => us ++ ⟨a, next⟩ ::
        (ws ++ block negated (us.length + 1 + ws.length) k [] t) := ⟨us, a, _, rfl, fun _ => rfl⟩
    refine (bind_of_eq (connect_eq hopen (fun hmem => ?_) _) _).trans ?_
    · exact Nat.lt_irrefl _ (hnext _ hmem)
    · have hwider : us.length + 1 +
            (ws ++ block negated (us.length + 1 + ws.length) k [] t).length =
          us.length + 1 + ws.length + size negated t := by
        rw [List.length_append, length_block]
        omega
      have hrest := ihrest (fun u hu => ih u (List.mem_cons_of_mem t hu))
        (ws ++ block negated (us.length + 1 + ws.length) k [] t)
        (next ++ [us.length + 1 + ws.length]) (k + loops t) ?_
      · rw [hwider] at hrest
        refine (bind_of_eq hrest _).trans ?_
        rw [entries, branches, exits, loopsOf, List.append_assoc ws, List.append_assoc next,
          ← Nat.add_assoc k]
        rfl
      · rw [hwider]
        intro n hn
        have hpos := exit_lt_size t negated
        rcases List.mem_append.1 hn with hn | hn
        · have := hnext n hn
          omega
        · rw [List.mem_singleton.1 hn]
          omega

/-- Edges are added that lead on from each tree. -/
theorem connectAll_eq (negated : Bool) (ts : List Regex) (us ws : List Vertex) (loop n k : Nat) :
    connectAll (exits negated us.length ts) n
        ⟨us ++ branches negated us.length loop [] ts ++ ws, k⟩ =
      some ((), ⟨us ++ branches negated us.length loop [n] ts ++ ws, k⟩) := by
  induction ts generalizing us loop with
  | nil => rfl
  | cons t rest ih =>
    rw [exits, branches, branches, connectAll, ← List.append_assoc, List.append_assoc _ _ ws]
    refine (bind_of_eq (connect_exit ..) _).trans ?_
    have hrest := ih (us ++ block negated us.length loop [n] t) (loop + loops t)
    rw [List.length_append, length_block] at hrest
    rw [← List.append_assoc, hrest, ← List.append_assoc]

theorem sideBySide_eq (ih : ∀ t ∈ ts, Builds negated t) (vs : List Vertex) (k : Nat) :
    sideBySide (fun split => buildBranches negated split ts) ⟨vs, k⟩ =
      some (⟨vs.length, vs.length + (sizeSplit negated ts - 1)⟩,
        ⟨vs ++ around (entries negated (vs.length + 1) ts) []
          (branches negated (vs.length + 1) k [vs.length + sizeSplit negated ts - 1] ts),
          k + loopsOf ts⟩) := by
  unfold sideBySide
  refine (bind_of_eq (push_eq ..) _).trans ?_
  have hparts := buildBranches_eq ih vs [] ⟨.join, false⟩ [] k fun n hn => by cases hn
  simp only [List.length_nil, Nat.add_zero, List.nil_append] at hparts
  refine (bind_of_eq hparts _).trans ?_
  refine (bind_of_eq (push_eq ..) _).trans ?_
  have hjoin : (vs ++ (⟨⟨.join, false⟩, entries negated (vs.length + 1) ts⟩ : Vertex) ::
      branches negated (vs.length + 1) k [] ts).length =
        vs.length + (sizeSplit negated ts - 1) := by
    have hlen := length_branches (fun t (_ : t ∈ ts) => length_block t negated) (vs.length + 1) k []
    rw [List.length_append, List.length_cons]
    omega
  rw [hjoin]
  have hlasts := connectAll_eq negated ts
    (vs ++ [⟨⟨.join, false⟩, entries negated (vs.length + 1) ts⟩]) [⟨⟨.join, false⟩, []⟩] k
    (vs.length + (sizeSplit negated ts - 1)) (k + loopsOf ts)
  rw [List.length_append, List.length_singleton, ← List.append_cons] at hlasts
  refine (bind_of_eq hlasts _).trans ?_
  have hpos := two_le_sizeSplit negated ts
  rw [← List.append_cons, List.append_assoc, Nat.add_sub_assoc (by omega)]
  rfl

/-! ## Copies -/

/-- `n` copies of `body`, numbered from `base` on, behind what `head` puts in front: copy `i` is
reached by `link i`, and the last one goes on with `next`. -/
def unrolled (negated : Bool) (base loop : Nat) (body : Regex) (head : List Nat → List Vertex)
    (link : Nat → List Nat) : Nat → List Nat → List Vertex
  | 0, next => head next
  | n + 1, next => unrolled negated base loop body head link n (link n) ++
      block negated (base + n * size negated body) (loop + n * loops body) next body

section

variable {base loop : Nat} {body : Regex} {head : List Nat → List Vertex} {link : Nat → List Nat}
  (hhead : ∀ next, (head next).length = base)

include hhead

theorem length_unrolled (n : Nat) (next : List Nat) :
    (unrolled negated base loop body head link n next).length = base + n * size negated body := by
  induction n generalizing next with
  | zero => rw [unrolled, hhead, Nat.zero_mul, Nat.add_zero]
  | succ n ih =>
    rw [unrolled, List.length_append, ih, length_block, Nat.succ_mul, Nat.add_assoc]

variable (loop) in
/-- Copies are built one after the other, if each is reached as it should be. -/
theorem rounds_eq (ih : Builds negated body) {connectTo : Nat → Nat → Build Unit}
    {count first last : Nat}
    (hlink : ∀ i m f k, first ≤ i → i < first + count → OpenAt m f →
      connectTo m (base + i * size negated body) ⟨f [], k⟩ = some ((), ⟨f (link i), k⟩))
    (hlast : OpenAt last (unrolled negated base loop body head link first)) :
    ∃ last', OpenAt last' (unrolled negated base loop body head link (first + count)) ∧
      rounds (build negated body) connectTo count last
        ⟨unrolled negated base loop body head link first [], loop + first * loops body⟩ =
      some (last', ⟨unrolled negated base loop body head link (first + count) [],
        loop + (first + count) * loops body⟩) := by
  induction count generalizing first last with
  | zero => exact ⟨last, hlast, rfl⟩
  | succ count ihcount =>
    have hopen : OpenAt (base + first * size negated body + exit negated body)
        (unrolled negated base loop body head link (first + 1)) := by
      have hbehind := (openAt_block body negated (base + first * size negated body)
        (loop + first * loops body)).behind
          (unrolled negated base loop body head link first (link first))
      rw [length_unrolled hhead] at hbehind
      exact hbehind
    obtain ⟨last', hlast', hrounds⟩ := ihcount
      (fun i m f k hle hlt => hlink i m f k (by omega) (by omega)) hopen
    rw [Nat.add_right_comm first 1 count] at hlast' hrounds
    refine ⟨last', hlast', ?_⟩
    rw [rounds]
    refine (bind_of_eq (ih _ _) _).trans ?_
    rw [length_unrolled hhead]
    refine (bind_of_eq (hlink first _ _ _ (Nat.le_refl _) (by omega) (hlast.before _)) _).trans ?_
    rw [Nat.succ_mul, ← Nat.add_assoc] at hrounds
    exact hrounds

end

/-- The copies of a repetition, listed one after the other. -/
theorem unrolled_eq {base loop : Nat} {body : Regex} {head : List Nat → List Vertex}
    {link : Nat → List Nat} (n : Nat) (next : List Nat) :
    unrolled negated base loop body head link n next =
      head (if 0 < n then link 0 else next) ++ (List.range n).flatMap fun i =>
        block negated (base + i * size negated body) (loop + i * loops body)
          (if i + 1 < n then link (i + 1) else next) body := by
  induction n generalizing next with
  | zero => rw [unrolled, List.range_zero, List.flatMap_nil, List.append_nil, if_neg (by omega)]
  | succ n ih =>
    have hfirst : (if 0 < n then link 0 else link n) = link 0 := by
      rcases Nat.eq_zero_or_pos n with rfl | hpos
      · rfl
      · rw [if_pos hpos]
    have hcopies : ∀ i ∈ List.range n,
        (if i + 1 < n then link (i + 1) else link n) =
          if i + 1 < n + 1 then link (i + 1) else next := by
      intro i hi
      have hlt := List.mem_range.1 hi
      rw [if_pos (show i + 1 < n + 1 by omega)]
      split
      · rfl
      · rw [show i + 1 = n by omega]
    rw [unrolled, ih, hfirst, List.range_succ, List.flatMap_append, List.flatMap_singleton,
      if_pos (Nat.succ_pos n), if_neg (Nat.lt_irrefl _), ← List.append_assoc]
    congr 2
    rw [List.flatMap_def, List.flatMap_def, List.map_congr_left]
    intro i hi
    rw [hcopies i hi]

theorem stage_last {lo hi : Nat} (hle : lo ≤ hi) (isLazy : Bool) (base width stop : Nat) :
    stage lo hi isLazy base width stop hi = [stop] := by
  rw [stage, if_neg (Nat.not_lt.2 hle), if_neg (Nat.lt_irrefl hi)]

/-- Copies that are reached by the stages of a repetition, up to the last of which one goes on at
`stop`. -/
theorem unrolled_stage {base loop lo hi stop : Nat} {body : Regex} {isLazy : Bool}
    {head : List Nat → List Vertex} (hle : lo ≤ hi) :
    unrolled negated base loop body head (stage lo hi isLazy base (size negated body) stop) hi
        [stop] =
      head (stage lo hi isLazy base (size negated body) stop 0) ++
        (List.range hi).flatMap fun i =>
          block negated (base + i * size negated body) (loop + i * loops body)
            (stage lo hi isLazy base (size negated body) stop (i + 1)) body := by
  have hstage : ∀ i, i ≤ hi → (if i < hi then stage lo hi isLazy base (size negated body) stop i
      else [stop]) = stage lo hi isLazy base (size negated body) stop i := by
    intro i hi'
    split
    · rfl
    · rw [show i = hi by omega, stage_last hle]
  rw [unrolled_eq, hstage 0 (Nat.zero_le hi)]
  congr 1
  rw [List.flatMap_def, List.flatMap_def, List.map_congr_left]
  intro i hi'
  rw [hstage (i + 1) (List.mem_range.1 hi')]

section

variable {body : Regex} {lo hi : Nat} {isLazy : Bool} (ih : Builds negated body)

include ih

/-- The vertices `vs` and behind them the first two of a repetition: it begins at one of them and
goes on with `next`, and it ends at the other. -/
def opening (vs : List Vertex) (next : List Nat) : List Vertex :=
  vs ++ [Vertex.plain .join next, Vertex.plain .join []]

omit ih in
theorem length_opening (vs : List Vertex) (next : List Nat) :
    (opening vs next).length = vs.length + 2 := List.length_append

omit ih in
theorem openAt_opening (vs : List Vertex) : OpenAt vs.length (opening vs) :=
  ⟨vs, ⟨.join, false⟩, [Vertex.plain .join []], rfl, fun _ => rfl⟩

/-- The copies that are due are built, each reached from the one before it. -/
theorem rounds_due (hi : Nat) (isLazy : Bool) (stop : Nat) {base loop last : Nat}
    {head : List Nat → List Vertex} (hhead : ∀ next, (head next).length = base) (hlast : OpenAt last head) :
    ∃ last', OpenAt last' (unrolled negated base loop body head
        (stage lo hi isLazy base (size negated body) stop) lo) ∧
      rounds (build negated body) connect lo last ⟨head [], loop⟩ =
      some (last', ⟨unrolled negated base loop body head
        (stage lo hi isLazy base (size negated body) stop) lo [], loop + lo * loops body⟩) := by
  have hlink : ∀ i m f k, 0 ≤ i → i < 0 + lo → OpenAt m f →
      connect m (base + i * size negated body) ⟨f [], k⟩ =
        some ((), ⟨f (stage lo hi isLazy base (size negated body) stop i), k⟩) := by
    intro i m f k _ hlt hopen
    rw [stage, if_pos (by omega)]
    exact connect_eq hopen List.not_mem_nil k
  have hrounds := rounds_eq loop hhead ih hlink hlast
  rw [Nat.zero_mul, Nat.add_zero, Nat.zero_add] at hrounds
  exact hrounds

/-- The copies that may be left out are built, each reached from the one before it by a choice. -/
theorem rounds_optional {base loop stop last : Nat} {head : List Nat → List Vertex}
    (hhead : ∀ next, (head next).length = base) (hstop : stop < base)
    (hlast : OpenAt last (unrolled negated base loop body head
      (stage lo (max lo hi) isLazy base (size negated body) stop) lo)) :
    ∃ last', OpenAt last' (unrolled negated base loop body head
        (stage lo (max lo hi) isLazy base (size negated body) stop) (max lo hi)) ∧
      rounds (build negated body) (fun m more => connectChoice isLazy m more stop) (hi - lo) last
        ⟨unrolled negated base loop body head
          (stage lo (max lo hi) isLazy base (size negated body) stop) lo [],
          loop + lo * loops body⟩ =
      some (last', ⟨unrolled negated base loop body head
        (stage lo (max lo hi) isLazy base (size negated body) stop) (max lo hi) [],
        loop + max lo hi * loops body⟩) := by
  have hsum : lo + (hi - lo) = max lo hi := by omega
  rw [← hsum] at hlast ⊢
  refine rounds_eq loop hhead ih (fun i m f k hle hlt hopen => ?_) hlast
  rw [stage, if_neg (by omega), if_pos hlt]
  exact connectChoice_eq hopen (by omega) isLazy k

theorem builds_bounded : Builds negated (.repeated body ⟨lo, some hi, isLazy⟩) := by
  intro vs k
  obtain ⟨due, hdue, hrounds⟩ := rounds_due ih (max lo hi) isLazy (vs.length + 1)
    (length_opening vs) (openAt_opening vs)
  obtain ⟨last, hlast, hrounds'⟩ := rounds_optional ih (length_opening vs)
    (Nat.lt_succ_self (vs.length + 1)) hdue
  rw [build]
  refine (bind_of_eq (push_eq ..) _).trans ?_
  refine (bind_of_eq (push_eq ..) _).trans ?_
  rw [List.append_assoc, List.length_append, List.length_singleton]
  refine (bind_of_eq hrounds _).trans ?_
  refine (bind_of_eq hrounds' _).trans ?_
  refine (bind_of_eq (connect_eq hlast List.not_mem_nil _) _).trans ?_
  rw [List.nil_append, unrolled_stage (Nat.le_max_left lo hi), block, loops, opening,
    List.append_assoc]
  rfl

/-- A loop behind the vertices `us`, with the vertices to go on with after its first vertex, where a
round begins, after its body, and after a round that has progressed and one that has not. -/
def looped (negated : Bool) (body : Regex) (us : List Vertex) (mark : Nat)
    (first enter after progressed stalled : List Nat) : List Vertex :=
  us ++ [Vertex.plain .join first, Vertex.plain (.enterLoop mark) enter] ++
    block negated (us.length + 2) (mark + 1) after body ++
    [Vertex.plain (.progressed mark) progressed, Vertex.plain (.stalled mark) stalled]

section

omit ih

variable (us : List Vertex) (mark : Nat) (first enter after progressed stalled : List Nat)

theorem openAt_first :
    OpenAt us.length (looped negated body us mark · enter after progressed stalled) := by
  refine ⟨us, ⟨.join, false⟩, Vertex.plain (.enterLoop mark) enter ::
    (block negated (us.length + 2) (mark + 1) after body ++
      [Vertex.plain (.progressed mark) progressed, Vertex.plain (.stalled mark) stalled]),
    rfl, fun next => ?_⟩
  simp only [looped, List.append_assoc, List.cons_append, List.nil_append]
  rfl

theorem openAt_enter :
    OpenAt (us.length + 1) (looped negated body us mark first · after progressed stalled) := by
  refine ⟨us ++ [Vertex.plain .join first], ⟨.enterLoop mark, false⟩,
    block negated (us.length + 2) (mark + 1) after body ++
      [Vertex.plain (.progressed mark) progressed, Vertex.plain (.stalled mark) stalled],
    List.length_append, fun next => ?_⟩
  simp only [looped, List.append_assoc, List.cons_append, List.nil_append]
  rfl

theorem openAt_after : OpenAt (us.length + 2 + exit negated body)
    (looped negated body us mark first enter · progressed stalled) := by
  have hbody := ((openAt_block body negated (us.length + 2) (mark + 1)).behind
    (us ++ [Vertex.plain .join first, Vertex.plain (.enterLoop mark) enter])).before
      [Vertex.plain (.progressed mark) progressed, Vertex.plain (.stalled mark) stalled]
  rw [List.length_append] at hbody
  exact hbody

theorem openAt_progressed : OpenAt (us.length + 2 + size negated body)
    (looped negated body us mark first enter after · stalled) := by
  refine ⟨us ++ [Vertex.plain .join first, Vertex.plain (.enterLoop mark) enter] ++
    block negated (us.length + 2) (mark + 1) after body, ⟨.progressed mark, false⟩,
    [Vertex.plain (.stalled mark) stalled], ?_, fun next => rfl⟩
  rw [List.length_append, List.length_append, length_block]
  rfl

theorem openAt_stalled : OpenAt (us.length + 3 + size negated body)
    (looped negated body us mark first enter after progressed ·) := by
  refine ⟨us ++ [Vertex.plain .join first, Vertex.plain (.enterLoop mark) enter] ++
    block negated (us.length + 2) (mark + 1) after body ++
    [Vertex.plain (.progressed mark) progressed], ⟨.stalled mark, false⟩, [], ?_, fun next => ?_⟩
  · simp only [List.length_append, List.length_cons, List.length_nil, length_block]
    omega
  · simp only [looped, List.append_assoc]
    rfl

end

theorem loopBack_eq (isLazy : Bool) {us : List Vertex} {stop : Nat} (hstop : stop < us.length)
    (mark : Nat) :
    loopBack (build negated body) isLazy mark us.length stop
        ⟨us ++ [⟨⟨.join, false⟩, []⟩], mark + 1⟩ =
      some ((), ⟨looped negated body us mark (choice isLazy (us.length + 1) stop) [us.length + 2]
        [us.length + 2 + size negated body, us.length + 3 + size negated body] [us.length] [stop],
        mark + 1 + loops body⟩) := by
  unfold loopBack
  refine (bind_of_eq (push_eq ..) _).trans ?_
  refine (bind_of_eq (ih _ _) _).trans ?_
  refine (bind_of_eq (push_eq ..) _).trans ?_
  refine (bind_of_eq (push_eq ..) _).trans ?_
  simp only [List.length_append, List.length_singleton, length_block]
  have hvertices : us ++ [⟨⟨.join, false⟩, []⟩] ++ [⟨⟨.enterLoop mark, false⟩, []⟩] ++
      block negated (us.length + 1 + 1) (mark + 1) [] body ++
      [⟨⟨.progressed mark, false⟩, []⟩] ++ [⟨⟨.stalled mark, false⟩, []⟩] =
      looped negated body us mark [] [] [] [] [] := by
    unfold looped
    simp only [List.append_assoc, List.cons_append, List.nil_append]
    rfl
  rw [hvertices, show us.length + 1 + 1 + size negated body + 1 =
    us.length + 3 + size negated body by omega]
  have hne : us.length + 3 + size negated body ∉ [us.length + 2 + size negated body] := by
    rw [List.mem_singleton]
    omega
  refine (bind_of_eq (connect_eq (openAt_enter ..) List.not_mem_nil _) _).trans ?_
  refine (bind_of_eq (connect_eq (openAt_after ..) List.not_mem_nil _) _).trans ?_
  refine (bind_of_eq (connect_eq (openAt_after ..) hne _) _).trans ?_
  refine (bind_of_eq (connect_eq (openAt_progressed ..) List.not_mem_nil _) _).trans ?_
  refine (bind_of_eq (connect_eq (openAt_stalled ..) List.not_mem_nil _) _).trans ?_
  exact connectChoice_eq (openAt_first ..) (by omega) isLazy _

theorem builds_unbounded : Builds negated (.repeated body ⟨lo, none, isLazy⟩) := by
  intro vs k
  obtain ⟨due, hdue, hrounds⟩ := rounds_due ih lo isLazy (vs.length + 2 + lo * size negated body)
    (length_opening vs) (openAt_opening vs)
  rw [build]
  refine (bind_of_eq (push_eq ..) _).trans ?_
  refine (bind_of_eq (push_eq ..) _).trans ?_
  rw [List.append_assoc, List.length_append, List.length_singleton]
  refine (bind_of_eq hrounds _).trans ?_
  refine (bind_of_eq (newLoop_eq ..) _).trans ?_
  refine (bind_of_eq (push_eq ..) _).trans ?_
  rw [length_unrolled (length_opening vs)]
  refine (bind_of_eq (connect_eq (hdue.before _) List.not_mem_nil _) _).trans ?_
  have hlen : (unrolled negated (vs.length + 2) k body (opening vs)
      (stage lo lo isLazy (vs.length + 2) (size negated body)
        (vs.length + 2 + lo * size negated body)) lo
      [vs.length + 2 + lo * size negated body]).length = vs.length + 2 + lo * size negated body :=
    length_unrolled (length_opening vs) ..
  have hstop : vs.length + 1 < vs.length + 2 + lo * size negated body := by omega
  rw [← hlen] at hstop
  have hloop := loopBack_eq ih isLazy hstop (k + lo * loops body)
  rw [hlen] at hloop
  refine (bind_of_eq hloop _).trans ?_
  rw [looped, hlen, unrolled_stage (Nat.le_refl lo), block, loops, opening]
  simp only [List.append_assoc, ← Nat.add_assoc]
  rfl

end

theorem builds_group {slot : Nat} {body : Regex} (ih : Builds negated body) :
    Builds negated (.group slot body) := by
  intro vs k
  rw [build]
  refine (bind_of_eq (push_eq ..) _).trans ?_
  refine (bind_of_eq (ih _ _) _).trans ?_
  refine (bind_of_eq (push_eq ..) _).trans ?_
  have hlen : ∀ next, (vs ++ [(⟨⟨.openSlot slot, false⟩, next⟩ : Vertex)]).length = vs.length + 1 :=
    fun next => List.length_append
  have hopen : OpenAt vs.length fun next => vs ++ [⟨⟨.openSlot slot, false⟩, next⟩] ++
      block negated (vs.length + 1) k [] body ++ [⟨⟨.closeSlot slot, false⟩, []⟩] :=
    (((OpenAt.vertex ⟨.openSlot slot, false⟩).behind vs).before _).before _
  have hexit := connect_exit (vs ++ [⟨⟨.openSlot slot, false⟩, [vs.length + 1]⟩])
    [⟨⟨.closeSlot slot, false⟩, []⟩] body negated k (vs.length + 1 + size negated body)
    (k + loops body)
  rw [hlen, List.length_append, hlen, length_block]
  rw [hlen] at hexit
  refine (bind_of_eq (connect_eq hopen List.not_mem_nil _) _).trans ?_
  refine (bind_of_eq hexit _).trans ?_
  rw [block, loops, exit, List.append_assoc, List.append_assoc, List.append_assoc]
  rw [Nat.add_assoc vs.length, Nat.add_comm 1]
  rfl

theorem builds_negation {body : Regex} (ih : ∀ negated, Builds negated body) :
    Builds negated (.negation body) := by
  intro vs k
  cases negated with
  | true => exact ih false vs k
  | false =>
    rw [build, if_neg Bool.false_ne_true]
    refine (bind_of_eq (ih true _ _) _).trans ?_
    refine (bind_of_eq (push_eq ..) _).trans ?_
    refine (bind_of_eq (connect_exit ..) _).trans ?_
    rw [List.length_append, length_block, List.append_assoc]
    rfl

/-- Every block is built, step by step. -/
theorem builds (t : Regex) (negated : Bool) : Builds negated t := by
  induction t generalizing negated with
  | atom a => exact fun vs k => rfl
  | seq items ih =>
    cases negated with
    | false => exact buildAll_eq fun t ht => ih t ht false
    | true => exact sideBySide_eq fun t ht => ih t ht true
  | alt branches ih =>
    cases negated with
    | false => exact sideBySide_eq fun t ht => ih t ht false
    | true => exact buildAll_eq fun t ht => ih t ht true
  | charClass members ih =>
    cases negated with
    | false => exact sideBySide_eq fun t ht => ih t ht false
    | true => exact buildAll_eq fun t ht => ih t ht true
  | negation body ih => exact builds_negation ih
  | group slot body ih => exact builds_group (ih negated)
  | repeated body count ih =>
    obtain ⟨lo, hi, isLazy⟩ := count
    cases hi with
    | some hi => exact builds_bounded (ih negated)
    | none => exact builds_unbounded (ih negated)

/-- **Step by step.**  The graph of a tree is what is built from nothing, one vertex and one edge
after the other; and there is no edge that is added twice. -/
theorem graph_built (t : Regex) (captures : Nat) :
    Draft.graph t captures = some (t.graph captures) := by
  have hwhole : Draft.buildWhole t .empty = some ((0, 1 + size false t, 2 + size false t),
      ⟨[Vertex.plain .join [1]] ++ block false 1 0 [1 + size false t] t ++
        [Vertex.plain .join [], Vertex.plain .never []], loops t⟩) := by
    unfold Draft.buildWhole
    refine (bind_of_eq (push_eq ..) _).trans ?_
    refine (bind_of_eq (builds t false _ _) _).trans ?_
    refine (bind_of_eq (push_eq ..) _).trans ?_
    have hopen : OpenAt 0 fun next => [⟨⟨.join, false⟩, next⟩] ++ block false 1 0 [] t ++
        [⟨⟨.join, false⟩, []⟩] := ((OpenAt.vertex ⟨.join, false⟩).before _).before _
    refine (bind_of_eq (connect_eq hopen List.not_mem_nil _) _).trans ?_
    refine (bind_of_eq (connect_exit [⟨⟨.join, false⟩, [1]⟩] _ ..) _).trans ?_
    refine (bind_of_eq (push_eq ..) _).trans ?_
    simp only [List.nil_append, List.length_append, List.length_singleton, List.length_nil,
      length_block, Nat.zero_add, List.append_assoc]
    rw [show 1 + (size false t + 1) = 2 + size false t by omega]
    rfl
  unfold Draft.graph
  rw [hwhole]
  rfl

end Regex

end Backtrack
