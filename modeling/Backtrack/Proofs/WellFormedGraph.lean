import Backtrack.Proofs.Paths
import Backtrack.Proofs.SizeLimit
import Backtrack.Pattern
import Backtrack.Proofs.Reading

/-!
# Compiled patterns are well-formed graphs

Main statement: `Pattern.graph_wellFormed`, the program of every pattern is a well-formed graph
(`Graph.WellFormed`).  That its paths and cycles are as they should be follows from its being a
region (`Regex.graph_region`).  How the loops are numbered is counted along the tree
(`count_block`): a block that numbers its loops from `loop` on has each test of each of them once.
-/

namespace Backtrack

/-- The loop whose book a test keeps. -/
def Test.loop? : Test → Option Nat
  | .enterLoop k | .progressed k | .stalled k => some k
  | _ => none

/-- How many of the vertices make a test. -/
def Vertex.count (test : Test) (vs : List Vertex) : Nat :=
  vs.countP fun v => decide (v.automaton.test = test)

namespace Graph

/-- How many vertices make a test. -/
def count (g : Graph) (test : Test) : Nat := Vertex.count test g.vertices.toList

/-- A graph as compiled patterns have them.  Paths may pass a vertex more than once, and a cycle is
any path from whose end an edge leads back to where it begins. -/
structure WellFormed (g : Graph) : Prop where
  start : g.start = 0
  terminal : g.terminal + 2 = g.size
  terminal_last : g.successors g.terminal = []
  failure : g.failure + 1 = g.size
  failure_last : g.successors g.failure = []
  edges : ∀ n, ∀ m ∈ g.successors n, m < g.size ∧ m ≠ g.failure
  nodup : ∀ n, (g.successors n).Nodup
  slots : ∀ n test slot, g.test? n = some test → test.slot? = some slot → slot < g.captures
  /-- Each test of each loop is made at one vertex, and no tests of other loops are made. -/
  loops : ∀ test k, test.loop? = some k → g.count test = if k < g.loops then 1 else 0
  /-- On every cycle a round of some loop begins and makes progress. -/
  cycles : ∀ m n path, g.Path m n path → m ∈ g.successors n → g.HasRound (· ∈ path)
  through : ∀ n, n < g.size → n ≠ g.failure →
    ∃ path, g.Path g.start g.terminal path ∧ n ∈ path
  /-- On every path from the first vertex to the terminal, groups are closed in the opposite order
  in which they are opened, and none is left open. -/
  nested : ∀ path, g.Path g.start g.terminal path → g.nest path [] = some []

end Graph

/-! ## From regions to graphs -/

namespace Graph

variable {g : Graph}

/-- No edge begins at vertex `n`, and its test opens and closes no slot. -/
def IsLast (g : Graph) (n : Nat) : Prop :=
  g.successors n = [] ∧ ∀ test, g.test? n = some test → test.slot? = none

theorem isLast_of_vertex {n : Nat} {test : Test} (hv : g.vertices[n]? = some (.plain test []))
    (htest : test.slot? = none) : g.IsLast n := by
  refine ⟨successors_of_vertex hv, fun test' htest' => ?_⟩
  rw [test?_of_vertex hv] at htest'
  cases htest'
  exact htest

/-- There are no edges and no tests but those at the vertices. -/
theorem isLast_of_size_le {n : Nat} (h : g.size ≤ n) : g.IsLast n := by
  have hnone : g.vertices[n]? = none := Array.getElem?_eq_none h
  constructor
  · rw [successors, hnone]
  · intro test htest
    rw [test?, hnone] at htest
    cases htest

/-- A graph is well formed if its last two vertices, at which no edge begins, are the terminal and
failure, and those before them are a region from the first vertex up to the terminal. -/
theorem wellFormed_of_region (hstart : g.start = 0) (hfailure : g.failure = g.terminal + 1)
    (hsize : g.size = g.terminal + 2)
    (hregion : g.Region [g.start] (Inside 0 g.terminal) [g.terminal])
    (hjoin : g.vertices[g.terminal]? = some (.plain .join []))
    (hnever : g.vertices[g.failure]? = some (.plain .never []))
    (hloops : ∀ test k, test.loop? = some k → g.count test = if k < g.loops then 1 else 0) :
    g.WellFormed := by
  have hcases : ∀ n, Inside 0 g.terminal n ∨ g.IsLast n := by
    intro n
    by_cases hn : n < g.terminal
    · exact .inl ⟨Nat.zero_le n, hn⟩
    · obtain rfl | rfl | hn : n = g.terminal ∨ n = g.failure ∨ g.size ≤ n := by omega
      · exact .inr (isLast_of_vertex hjoin rfl)
      · exact .inr (isLast_of_vertex hnever rfl)
      · exact .inr (isLast_of_size_le hn)
  exact {
    start := hstart
    terminal := hsize.symm
    terminal_last := successors_of_vertex hjoin
    failure := by omega
    failure_last := successors_of_vertex hnever
    edges := by
      intro n m hm
      rcases hcases n with hn | ⟨hn, -⟩
      · rcases (hregion.fits hn).inside m hm with hm | hm
        · have := hm.2
          omega
        · have := List.mem_singleton.1 hm
          omega
      · rw [hn] at hm
        cases hm
    nodup := by
      intro n
      rcases hcases n with hn | ⟨hn, -⟩
      · exact (hregion.fits hn).nodup
      · rw [hn]
        exact List.nodup_nil
    slots := by
      intro n test slot htest hslot
      rcases hcases n with hn | ⟨-, hn⟩
      · exact (hregion.fits hn).slots test slot htest hslot
      · rw [hn test htest] at hslot
        cases hslot
    loops := hloops
    cycles := by
      intro m n path hpath hedge
      have hm : ¬ g.IsLast m := by
        rintro ⟨hm, -⟩
        obtain ⟨l, hl, -⟩ := hpath.trap hedge m hpath.mem_first
        rw [hm] at hl
        cases hl
      refine hregion.hasRound_of_cycle (fun x hx => ?_) hpath hedge ((hcases m).resolve_right hm)
      rw [List.mem_singleton.1 hx]
      exact successors_of_vertex hjoin
    through := by
      intro n hn hne
      refine hregion.exists_path_through ?_
      unfold Inside
      omega
    nested := fun path hpath =>
      hregion.nest_of_path (fun h => Nat.lt_irrefl _ h.2) hjoin hpath [] }

end Graph

/-! ## The numbers of loops -/

/-- One, if `k` is among the `n` numbers from `lo` on, and otherwise zero. -/
def once (lo n k : Nat) : Nat := if lo ≤ k ∧ k < lo + n then 1 else 0

theorem once_zero (lo k : Nat) : once lo 0 k = 0 := if_neg (by omega)

theorem once_add (lo m n k : Nat) : once lo m k + once (lo + m) n k = once lo (m + n) k := by
  unfold once
  split <;> split <;> split <;> omega

namespace Vertex

variable {test : Test}

theorem count_append (us vs : List Vertex) :
    count test (us ++ vs) = count test us + count test vs := List.countP_append

theorem count_nil : count test [] = 0 := rfl

theorem count_cons (v : Vertex) (vs : List Vertex) :
    count test (v :: vs) = (if v.automaton.test = test then 1 else 0) + count test vs := by
  unfold count
  rw [List.countP_cons, Nat.add_comm]
  simp

/-- A vertex that keeps no book of a loop is not counted. -/
theorem count_cons_of_loop? {k : Nat} (h : test.loop? = some k) {v : Vertex}
    (hv : v.automaton.test.loop? = none) (vs : List Vertex) :
    count test (v :: vs) = count test vs := by
  rw [count_cons, if_neg, Nat.zero_add]
  intro heq
  rw [heq, h] at hv
  cases hv

end Vertex

namespace Regex

open Vertex (count count_append count_cons count_nil count_cons_of_loop?)

variable {test : Test} {k : Nat} {negated : Bool}

/-- In the block of a tree, the test of loop `k` is made once if the loop is one of the tree. -/
def Counts (test : Test) (k : Nat) (t : Regex) : Prop :=
  ∀ negated base loop next,
    count test (block negated base loop next t) = once loop (loops t) k

theorem count_chain (htest : test.loop? = some k) {ts : List Regex}
    (ih : ∀ t ∈ ts, Counts test k t) (base loop : Nat) (next : List Nat) :
    count test (chain negated base loop next ts) = once loop (loopsOf ts) k := by
  induction ts generalizing base loop with
  | nil =>
    rw [chain, count_cons_of_loop? htest rfl, loopsOf, once_zero]
    rfl
  | cons t rest ihts =>
    cases rest with
    | nil =>
      rw [chain, ih t (by simp)]
      rfl
    | cons u rest =>
      rw [chain, count_append, ih t (by simp), ihts fun t ht => ih t (by simp [ht]), once_add]
      rfl

theorem count_branches {ts : List Regex} (ih : ∀ t ∈ ts, Counts test k t) (base loop : Nat)
    (next : List Nat) :
    count test (branches negated base loop next ts) = once loop (loopsOf ts) k := by
  induction ts generalizing base loop with
  | nil => rw [branches, loopsOf, once_zero]; rfl
  | cons t rest ihts =>
    rw [branches, count_append, ih t (by simp), ihts fun t ht => ih t (by simp [ht]), once_add]
    rfl

theorem count_around (htest : test.loop? = some k) {ts : List Regex}
    (ih : ∀ t ∈ ts, Counts test k t) (base loop : Nat) (entries next next' : List Nat) :
    count test (around entries next (branches negated base loop next' ts)) =
      once loop (loopsOf ts) k := by
  rw [around, List.cons_append, count_cons_of_loop? htest rfl, count_append,
    count_cons_of_loop? htest rfl, count_nil, count_branches ih]
  rfl

/-- The rounds number their loops one after the other. -/
theorem count_rounds {body : Regex} (ih : Counts test k body) (n base loop : Nat)
    (after : Nat → List Nat) :
    count test ((List.range n).flatMap fun i => block negated (base + i * size negated body)
      (loop + i * loops body) (after (i + 1)) body) = once loop (n * loops body) k := by
  induction n with
  | zero => rw [Nat.zero_mul, once_zero]; rfl
  | succ n ihn =>
    rw [List.range_succ, List.flatMap_append, count_append, ihn, List.flatMap_singleton, ih,
      once_add, Nat.succ_mul]

/-- Before and after its body, a loop makes each of its tests at one vertex. -/
theorem count_own (htest : test.loop? = some k) (mark : Nat) (next next' next'' : List Nat) :
    count test [Vertex.plain (.enterLoop mark) next] +
      count test [Vertex.plain (.progressed mark) next', Vertex.plain (.stalled mark) next''] =
      once mark 1 k := by
  have hone : ∀ j, (mark = j) = (mark ≤ j ∧ j < mark + 1) := fun j => by
    rw [eq_iff_iff]
    omega
  cases test <;> cases htest <;> simp [count_cons, count_nil, Vertex.plain, once, hone]

theorem count_repeated (htest : test.loop? = some k) {body : Regex} (ih : Counts test k body)
    (q : Quantifier) : Counts test k (.repeated body q) := by
  obtain ⟨lo, hi, isLazy⟩ := q
  intro negated base loop next
  cases hi with
  | some hi =>
    rw [block, count_append, count_cons_of_loop? htest rfl, count_cons_of_loop? htest rfl,
      count_nil, count_rounds ih, Nat.zero_add, loops]
  | none =>
    rw [block]
    simp only [count_append]
    rw [count_cons_of_loop? htest rfl, count_cons_of_loop? htest rfl, count_nil, count_rounds ih,
      count_cons_of_loop? htest rfl, ih, Nat.zero_add, loops, ← once_add, ← once_add]
    have hown := count_own htest (loop + lo * loops body) [base + 2 + lo * size negated body + 2]
      [base + 2 + lo * size negated body] [base + 1]
    simp only [Nat.add_assoc] at hown ⊢
    omega

/-- **Loops are numbered one by one.**  In the block of a tree, each test of each of its loops is
made once. -/
theorem count_block (htest : test.loop? = some k) (t : Regex) : Counts test k t := by
  induction t with
  | atom a =>
    intro negated base loop next
    rw [block, count_cons_of_loop? htest rfl, count_nil, loops, once_zero]
  | seq items ih =>
    intro negated base loop next
    rw [block, loops]
    cases negated with
    | false => exact count_chain htest ih ..
    | true => exact count_around htest ih ..
  | alt branches ih =>
    intro negated base loop next
    rw [block, loops]
    cases negated with
    | false => exact count_around htest ih ..
    | true => exact count_chain htest ih ..
  | charClass members ih =>
    intro negated base loop next
    rw [block, loops]
    cases negated with
    | false => exact count_around htest ih ..
    | true => exact count_chain htest ih ..
  | negation body ih =>
    intro negated base loop next
    rw [block, loops]
    cases negated with
    | false =>
      rw [if_neg Bool.false_ne_true, count_append, ih, count_cons_of_loop? htest rfl]
      rfl
    | true => exact ih ..
  | group slot body ih =>
    intro negated base loop next
    rw [block, loops, count_append, count_append, ih, count_cons_of_loop? htest rfl,
      count_cons_of_loop? htest rfl, count_nil, Nat.zero_add, Nat.add_zero]
  | repeated body q ih => exact count_repeated htest ih q

/-! ## Graphs of trees -/

/-- The graph of a tree that a pattern can express is well formed. -/
theorem WellFormed.wellFormed_graph {t : Regex} {groups : Nat} (h : t.WellFormed groups) :
    (t.graph groups).WellFormed := by
  have hlast := (Graph.holds_toArray (g := t.graph groups) rfl).right
  simp only [List.length_append, List.length_singleton, length_block, Nat.zero_add] at hlast
  have hfailure : (t.graph groups).failure = (t.graph groups).terminal + 1 := by
    show 2 + size false t = 1 + size false t + 1
    omega
  have hsize : (t.graph groups).size = (t.graph groups).terminal + 2 := by
    rw [size_graph]
    show size false t + 3 = 1 + size false t + 2
    omega
  refine Graph.wellFormed_of_region rfl hfailure hsize (graph_region h) hlast.head ?_
    fun test k htest => ?_
  · rw [hfailure]
    exact hlast.tail.head
  · show count test ([Vertex.plain .join [1]] ++ block false 1 0 [1 + size false t] t ++
      [Vertex.plain .join [], Vertex.plain .never []]) = if k < loops t then 1 else 0
    rw [count_append, count_append, count_block htest, count_cons_of_loop? htest rfl,
      count_cons_of_loop? htest rfl, count_cons_of_loop? htest rfl, count_nil]
    simp [once]

end Regex

/-- **Compiled patterns are well-formed graphs.** -/
theorem Pattern.graph_wellFormed {text : String} {p : Pattern} (h : ofString text = .ok p) :
    p.program.graph.WellFormed := by
  obtain ⟨groups, hparse, hcompile, -, -⟩ := ofString_eq_ok_iff.1 h
  rw [Program.graph_of_compile hcompile]
  exact (Regex.wellFormed_of_parse hparse).wellFormed_graph

/-- Two copies of a group with a loop, and another one in a loop: four loops for two groups. -/
theorem Pattern.graph_wellFormed_copies :
    ∃ p, ofString "((a*|[^b])c?){2,}" = .ok p ∧ p.program.graph.WellFormed ∧
      p.program.graph.size = 63 ∧ p.program.graph.loops = 4 ∧ p.program.graph.captures = 2 := by
  let t : Regex := .seq [.repeated (.group 0 (.seq [
    .group 1 (.alt [.seq [.repeated (.char 'a') ⟨0, none, false⟩],
      .seq [.negation (.charClass [.char 'b'])]]),
    .repeated (.char 'c') ⟨0, some 1, false⟩])) ⟨2, none, false⟩]
  have hparse : Regex.parse "((a*|[^b])c?){2,}" = .ok ⟨t, 2⟩ := rfl
  obtain ⟨p, hp, -, -⟩ := exists_ofString_eq_ok hparse (by decide)
  obtain ⟨groups, hread, hcompile, -, -⟩ := ofString_eq_ok_iff.1 hp
  obtain ⟨hroot, rfl⟩ := Parsed.mk.inj (Except.ok.inj (hparse.symm.trans hread))
  have hwell := graph_wellFormed hp
  refine ⟨p, hp, hwell, ?_⟩
  rw [Program.graph_of_compile hcompile, ← hroot]
  decide

end Backtrack
