import Backtrack.Graph.Lowering

/-!
# Blocks inside a graph

`Regex.size` tells how many vertices a block really has (`length_block`), and
`Graph.Holds` says that a graph has given vertices from a given number on.  A graph that
holds a block holds the blocks it is made of, so what is said of a block can be said of
its parts: for each way to put a tree together, a lemma tells where the parts stand
(`parts_around`, `parts_group`, `parts_negation`, `parts_rounds`, `parts_loop`).
-/

namespace Backtrack

/-! ## The length of a block -/

namespace Regex

theorem length_chain {negated : Bool} {ts : List Regex}
    (h : ∀ t ∈ ts, ∀ base loop next, (block negated base loop next t).length = size negated t)
    (base loop : Nat) (next : List Nat) :
    (chain negated base loop next ts).length = sizeChain negated ts := by
  induction ts generalizing base loop with
  | nil => rfl
  | cons t rest ih =>
    cases rest with
    | nil => simpa [chain, sizeChain] using h t (by simp) base loop next
    | cons u rest =>
      rw [chain, sizeChain, List.length_append, h t (by simp), ih fun t ht => h t (by simp [ht])]

theorem length_branches {negated : Bool} {ts : List Regex}
    (h : ∀ t ∈ ts, ∀ base loop next, (block negated base loop next t).length = size negated t)
    (base loop : Nat) (next : List Nat) :
    (branches negated base loop next ts).length + 2 = sizeSplit negated ts := by
  induction ts generalizing base loop with
  | nil => rfl
  | cons t rest ih =>
    rw [branches, sizeSplit, List.length_append, h t (by simp), Nat.add_assoc,
      ih fun t ht => h t (by simp [ht])]

theorem length_around (entries next : List Nat) (inner : List Vertex) :
    (around entries next inner).length = inner.length + 2 := by
  simp [around]

theorem length_flatMap_range {α : Type} (n width : Nat) (f : Nat → List α)
    (h : ∀ i, (f i).length = width) : ((List.range n).flatMap f).length = n * width := by
  induction n with
  | zero => simp
  | succ n ih => simp [List.range_succ, ih, h, Nat.succ_mul]

/-- The block of a tree has as many vertices as `size` says. -/
theorem length_block (t : Regex) (negated : Bool) (base loop : Nat) (next : List Nat) :
    (block negated base loop next t).length = size negated t := by
  induction t generalizing negated base loop next with
  | atom a => rfl
  | seq items ih =>
    cases negated
    · simpa [block, size] using length_chain (fun t ht => ih t ht false) ..
    · simpa [block, size, length_around] using length_branches (fun t ht => ih t ht true) ..
  | alt alternatives ih =>
    cases negated
    · simpa [block, size, length_around] using length_branches (fun t ht => ih t ht false) ..
    · simpa [block, size] using length_chain (fun t ht => ih t ht true) ..
  | charClass members ih =>
    cases negated
    · simpa [block, size, length_around] using length_branches (fun t ht => ih t ht false) ..
    · simpa [block, size] using length_chain (fun t ht => ih t ht true) ..
  | negation body ih => cases negated <;> simp [block, size, ih]
  | group slot body ih => simp [block, size, ih]
  | repeated body count ih =>
    obtain ⟨lo, hi, isLazy⟩ := count
    cases hi with
    | some hi =>
      simp only [block, size, List.length_append]
      rw [length_flatMap_range _ _ _ fun _ => ih ..]
      simp
    | none =>
      simp only [block, size, List.length_append]
      rw [length_flatMap_range _ _ _ fun _ => ih .., ih]
      simp [Nat.add_mul]
      omega

/-- Trees side by side stand between two more vertices. -/
theorem two_le_sizeSplit (negated : Bool) (ts : List Regex) : 2 ≤ sizeSplit negated ts := by
  rw [← length_branches (fun t _ => length_block t negated) 0 0 []]
  exact Nat.le_add_left 2 _

end Regex

/-! ## Parts of a graph -/

namespace Graph

/-- The graph has the vertices `vs`, numbered from `base` on. -/
def Holds (g : Graph) (base : Nat) (vs : List Vertex) : Prop :=
  ∀ i v, vs[i]? = some v → g.vertices[base + i]? = some v

namespace Holds

variable {g : Graph} {base : Nat} {us vs : List Vertex}

/-- A part at the beginning. -/
theorem left (h : g.Holds base (us ++ vs)) : g.Holds base us := fun i v hv =>
  h i v (by rw [List.getElem?_append_left (List.getElem?_eq_some_iff.1 hv).1, hv])

/-- A part at the end. -/
theorem right (h : g.Holds base (us ++ vs)) : g.Holds (base + us.length) vs := fun i v hv => by
  rw [Nat.add_assoc]
  exact h _ v (by rw [List.getElem?_append_right (by omega), Nat.add_sub_cancel_left, hv])

/-- The first vertex. -/
theorem head {v : Vertex} (h : g.Holds base (v :: vs)) : g.vertices[base]? = some v :=
  h 0 v rfl

/-- All vertices but the first. -/
theorem tail {v : Vertex} (h : g.Holds base (v :: vs)) : g.Holds (base + 1) vs :=
  right (show g.Holds base ([v] ++ vs) from h)

/-- One of several parts of the same length. -/
theorem nth {width n i : Nat} {f : Nat → List Vertex} (hf : ∀ i, (f i).length = width)
    (h : g.Holds base ((List.range n).flatMap f)) (hi : i < n) :
    g.Holds (base + i * width) (f i) := by
  induction n with
  | zero => omega
  | succ n ih =>
    rw [List.range_succ, List.flatMap_append] at h
    rcases Nat.lt_succ_iff_lt_or_eq.1 hi with hlt | rfl
    · exact ih h.left hlt
    · have := h.right
      rw [Regex.length_flatMap_range _ _ _ hf] at this
      simpa using this

end Holds

/-- A graph holds its own vertices. -/
theorem holds_toArray {vs : List Vertex} {g : Graph} (h : g.vertices = vs.toArray) :
    g.Holds 0 vs := fun i v hv => by simpa [h] using hv

end Graph

/-! ## Where the parts of a block stand -/

namespace Regex

variable {g : Graph} {negated : Bool} {base loop : Nat} {next : List Nat}

theorem parts_around {ts : List Regex}
    (h : g.Holds base (around (entries negated (base + 1) ts) next
      (branches negated (base + 1) loop [base + sizeSplit negated ts - 1] ts))) :
    g.vertices[base]? = some (.plain .join (entries negated (base + 1) ts)) ∧
      g.Holds (base + 1)
        (branches negated (base + 1) loop [base + sizeSplit negated ts - 1] ts) ∧
      g.vertices[base + sizeSplit negated ts - 1]? = some (.plain .join next) := by
  have hlen := length_branches (fun t (_ : t ∈ ts) => length_block t negated) (base + 1) loop
    [base + sizeSplit negated ts - 1]
  have hjoin := h.right.head
  rw [List.length_cons,
    show base + (_ + 1) = base + sizeSplit negated ts - 1 by omega] at hjoin
  exact ⟨h.left.head, h.left.tail, hjoin⟩

theorem parts_group {slot : Nat} {body : Regex}
    (h : g.Holds base (block negated base loop next (.group slot body))) :
    g.vertices[base]? = some (.plain (.openSlot slot) [base + 1]) ∧
      g.Holds (base + 1)
        (block negated (base + 1) loop [base + 1 + size negated body] body) ∧
      g.vertices[base + 1 + size negated body]? = some (.plain (.closeSlot slot) next) := by
  rw [block] at h
  have hbody := h.left.right
  have hclose := h.right.head
  simp only [List.length_append, length_block, List.length_singleton, ← Nat.add_assoc]
    at hbody hclose
  exact ⟨h.left.left.head, hbody, hclose⟩

theorem parts_negation {body : Regex}
    (h : g.Holds base (block false base loop next (.negation body))) :
    g.Holds base (block true base loop [base + size true body] body) ∧
      g.vertices[base + size true body]? = some (.plain .anyChar next) := by
  rw [block, if_neg Bool.false_ne_true] at h
  have hstep := h.right.head
  rw [length_block] at hstep
  exact ⟨h.left, hstep⟩

/-- The rounds of a repetition stand one after the other from `base` on, the loops of the
first one being numbered from `loop` on; after the last one it goes on at `stop`. -/
def HoldsRounds (g : Graph) (negated : Bool) (base loop lo hi : Nat) (isLazy : Bool) (stop : Nat)
    (body : Regex) : Prop :=
  ∀ i, i < hi → g.Holds (base + i * size negated body)
    (block negated (base + i * size negated body) (loop + i * loops body)
      (stage lo hi isLazy base (size negated body) stop (i + 1)) body)

theorem parts_rounds {body : Regex} {lo hi : Nat} {isLazy : Bool}
    (h : g.Holds base (block negated base loop next (.repeated body ⟨lo, some hi, isLazy⟩))) :
    g.vertices[base]? = some (.plain .join
        (stage lo (max lo hi) isLazy (base + 2) (size negated body) (base + 1) 0)) ∧
      g.vertices[base + 1]? = some (.plain .join next) ∧
      HoldsRounds g negated (base + 2) loop lo (max lo hi) isLazy (base + 1) body := by
  rw [block] at h
  exact ⟨h.left.head, h.left.tail.head, fun i hi => h.right.nth (fun _ => length_block ..) hi⟩

/-- A loop without an upper bound stands at `again`: it goes on to another round of its body
or to `stop`. -/
structure HoldsLoop (g : Graph) (negated : Bool) (again mark : Nat) (isLazy : Bool) (stop : Nat)
    (body : Regex) : Prop where
  split : g.vertices[again]? = some (.plain .join (choice isLazy (again + 1) stop))
  enter : g.vertices[again + 1]? = some (.plain (.enterLoop mark) [again + 2])
  round : g.Holds (again + 2) (block negated (again + 2) (mark + 1)
    [again + 2 + size negated body, again + 3 + size negated body] body)
  progressed : g.vertices[again + 2 + size negated body]? =
    some (.plain (.progressed mark) [again])
  stalled : g.vertices[again + 3 + size negated body]? = some (.plain (.stalled mark) [stop])

theorem parts_loop {body : Regex} {lo : Nat} {isLazy : Bool}
    (h : g.Holds base (block negated base loop next (.repeated body ⟨lo, none, isLazy⟩))) :
    g.vertices[base]? = some (.plain .join (stage lo lo isLazy (base + 2) (size negated body)
        (base + 2 + lo * size negated body) 0)) ∧
      g.vertices[base + 1]? = some (.plain .join next) ∧
      HoldsRounds g negated (base + 2) loop lo lo isLazy
        (base + 2 + lo * size negated body) body ∧
      HoldsLoop g negated (base + 2 + lo * size negated body) (loop + lo * loops body) isLazy
        (base + 1) body := by
  rw [block] at h
  have hlen := length_flatMap_range lo (size negated body) (fun i =>
    block negated (base + 2 + i * size negated body) (loop + i * loops body)
      (stage lo lo isLazy (base + 2) (size negated body) (base + 2 + lo * size negated body)
        (i + 1)) body) fun _ => length_block ..
  have hsplit := h.left.left.right
  have hbody := h.left.right
  have hprogressed := h.right
  simp only [List.length_append, hlen, length_block, List.length_cons, List.length_nil,
    Nat.zero_add, Nat.reduceAdd, ← Nat.add_assoc] at hsplit hbody hprogressed
  have hstalled := hprogressed.tail.head
  rw [show base + 2 + lo * size negated body + 2 + size negated body + 1
    = base + 2 + lo * size negated body + 3 + size negated body by omega] at hstalled
  exact ⟨h.left.left.left.left.head, h.left.left.left.left.tail.head,
    fun i hi => h.left.left.left.right.nth (fun _ => length_block ..) hi,
    hsplit.head, hsplit.tail.head, hbody, hprogressed.head, hstalled⟩

end Regex

end Backtrack
