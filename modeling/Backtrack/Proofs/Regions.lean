import Backtrack.Graph.Halting
import Backtrack.Proofs.WellFormed

/-!
# Regions of a graph

A region is a part of a graph that is entered at some of its vertices and left for others.
It is a single vertex, or put together from regions in one of four ways: side by side, one
before the other, in a group, or in a loop (`Graph.Region`).  What every region has can be
shown by induction on how it is put together, and the numbers of its vertices do not matter.

Main statement: `Regex.graph_region`, the graph of a tree that a pattern can express is a
region from its first vertex up to its terminal.  It follows the tree:

    trees in a row                           (chain_region)
    trees side by side, at least one         (around_region)
    rounds, and a loop after them            (rounds_region, loop_region)
    any block                                (block_region)
-/

namespace Backtrack

/-- Whether a test keeps no books and can pass. -/
def Test.isPlain : Test → Bool
  | .atom _ | .anyChar | .join => true
  | _ => false

namespace Graph

/-- The vertices numbered from `lo` on, up to but not including `hi`. -/
def Inside (lo hi n : Nat) : Prop := lo ≤ n ∧ n < hi

/-- Vertices at which a part of a graph is entered, or for which it is left: at least one, each
named once. -/
structure Ports (X : List Nat) : Prop where
  ne_nil : X ≠ []
  nodup : X.Nodup

theorem ports_singleton (n : Nat) : Ports [n] := ⟨List.cons_ne_nil n [], by simp⟩

/-- Part `R` of the graph is entered at the vertices `E` and left for the vertices `X`. -/
inductive Region (g : Graph) : (E : List Nat) → (R : Nat → Prop) → (X : List Nat) → Prop
  | vertex {n : Nat} {a : Automaton} {X : List Nat} :
      g.vertices[n]? = some ⟨a, X⟩ → a.test.isPlain = true → Ports X → Region g [n] (· = n) X
  | beside {E E' X : List Nat} {R R' : Nat → Prop} :
      Region g E R X → Region g E' R' X → (∀ n ∈ E, n ∉ E') →
      Region g (E ++ E') (fun n => R n ∨ R' n) X
  /-- One region before another, which may also be passed by. -/
  | before {E E' X X' : List Nat} {R R' : Nat → Prop} :
      Region g E R X → Region g E' R' X' → (∀ n ∈ X, n ∈ E' ∨ n ∈ X') → (∀ n ∈ E', n ∈ X) →
      Region g E (fun n => R n ∨ R' n) X'
  | group {o c slot : Nat} {E X : List Nat} {R : Nat → Prop} :
      g.vertices[o]? = some (.plain (.openSlot slot) E) → Region g E R [c] →
      g.vertices[c]? = some (.plain (.closeSlot slot) X) → slot < g.captures → Ports X →
      Region g [o] (fun n => n = o ∨ R n ∨ n = c) X
  /-- A region that is entered any number of times.  A round begins at `e`; it ends at `p`,
  from where there may be another one, or at `q`, which is the end of the loop. -/
  | loop {s e p q stop k : Nat} {isLazy : Bool} {E : List Nat} {R : Nat → Prop} :
      g.vertices[s]? = some (.plain .join (Regex.choice isLazy e stop)) →
      g.vertices[e]? = some (.plain (.enterLoop k) E) → Region g E R [p, q] →
      g.vertices[p]? = some (.plain (.progressed k) [s]) →
      g.vertices[q]? = some (.plain (.stalled k) [stop]) → e ≠ stop →
      Region g [s] (fun n => n = s ∨ n = e ∨ R n ∨ n = p ∨ n = q) [stop]

namespace Region

variable {g : Graph} {E E' X X' : List Nat} {R R' : Nat → Prop}

/-- The same vertices can be told apart from the others in another way. -/
theorem of_iff (h : g.Region E R X) (hR : ∀ n, R n ↔ R' n) : g.Region E R' X := by
  obtain rfl : R = R' := funext fun n => propext (hR n)
  exact h

/-- A region is entered somewhere, and each entry is named once. -/
theorem entries (h : g.Region E R X) : Ports E := by
  induction h with
  | beside _ _ hdisjoint ih ih' =>
    refine ⟨List.append_ne_nil_of_left_ne_nil ih.ne_nil _,
      List.nodup_append.2 ⟨ih.nodup, ih'.nodup, fun n hn m hm heq => ?_⟩⟩
    exact hdisjoint n hn (heq ▸ hm)
  | before _ _ hX hE ih ih' => exact ih
  | _ => exact ports_singleton _

/-- A region is entered at vertices of its own. -/
theorem entries_inside (h : g.Region E R X) : ∀ n ∈ E, R n := by
  induction h with
  | vertex hv ht hX => exact fun n hn => List.mem_singleton.1 hn
  | beside _ _ hdisjoint ih ih' => exact fun n hn => (List.mem_append.1 hn).imp (ih n) (ih' n)
  | before _ _ hX hE ih ih' => exact fun n hn => .inl (ih n hn)
  | group ho _ hc hslot hX ih => exact fun n hn => .inl (List.mem_singleton.1 hn)
  | loop hs he _ hp hq hne ih => exact fun n hn => .inl (List.mem_singleton.1 hn)

/-- One region that leads to another. -/
theorem trans (h : g.Region E R X) (h' : g.Region X R' X') :
    g.Region E (fun n => R n ∨ R' n) X' :=
  before h h' (fun _ => .inl) fun _ => id

/-- Two parts numbered one after the other, the first of which leads to the second. -/
theorem trans_inside {a b c : Nat} (h : g.Region E (Inside a b) X)
    (h' : g.Region X (Inside b c) X') (hab : a ≤ b) (hbc : b ≤ c) : g.Region E (Inside a c) X' :=
  (h.trans h').of_iff fun n => by
    unfold Inside
    omega

/-- Two parts numbered one after the other, entered side by side. -/
theorem beside_inside {a b c : Nat} (h : g.Region E (Inside a b) X)
    (h' : g.Region E' (Inside b c) X) (hab : a ≤ b) (hbc : b ≤ c) :
    g.Region (E ++ E') (Inside a c) X := by
  refine (beside h h' fun n hn hn' => ?_).of_iff fun n => ?_
  · exact Nat.not_lt.2 (h'.entries_inside n hn').1 (h.entries_inside n hn).2
  · unfold Inside
    omega

end Region

end Graph

/-! ## Blocks -/

namespace Regex

open Backtrack.Graph (Inside Ports Region)

variable {g : Graph} {negated : Bool} {base loop : Nat} {next : List Nat}

/-- Trees in a row and trees side by side have vertices. -/
theorem size_list_pos {ts : List Regex} (ih : ∀ t ∈ ts, 0 < size negated t) :
    0 < sizeChain negated ts ∧ 0 < sizeSplit negated ts := by
  refine ⟨?_, Nat.lt_of_lt_of_le Nat.two_pos (two_le_sizeSplit negated ts)⟩
  cases ts with
  | nil => exact Nat.one_pos
  | cons t rest =>
    have ht := ih t (by simp)
    cases rest with
    | nil => exact ht
    | cons u rest => exact Nat.add_pos_left ht _

/-- Every block has a vertex. -/
theorem size_pos (t : Regex) (negated : Bool) : 0 < size negated t := by
  induction t generalizing negated with
  | atom a => exact Nat.one_pos
  | seq items ih =>
    have hlist := size_list_pos fun t ht => ih t ht negated
    rw [size]
    split
    · exact hlist.2
    · exact hlist.1
  | alt branches ih =>
    have hlist := size_list_pos fun t ht => ih t ht negated
    rw [size]
    split
    · exact hlist.1
    · exact hlist.2
  | charClass members ih =>
    have hlist := size_list_pos fun t ht => ih t ht negated
    rw [size]
    split
    · exact hlist.1
    · exact hlist.2
  | negation body ih =>
    rw [size]
    split
    · exact ih false
    · omega
  | group slot body ih => exact Nat.add_pos_right _ Nat.two_pos
  | repeated body count ih =>
    obtain ⟨lo, hi, isLazy⟩ := count
    cases hi <;> rw [size] <;> omega

/-- The block of a tree is a region that is entered at its first vertex. -/
def IsRegion (g : Graph) (negated : Bool) (t : Regex) : Prop :=
  ∀ base loop next, g.Holds base (block negated base loop next t) → Ports next →
    g.Region [base] (Inside base (base + size negated t)) next

/-- A vertex with a plain test. -/
theorem vertex_region {n : Nat} {a : Automaton} (hv : g.vertices[n]? = some ⟨a, next⟩)
    (ha : a.test.isPlain = true) (hnext : Ports next) :
    g.Region [n] (Inside n (n + 1)) next :=
  (Region.vertex hv ha hnext).of_iff fun m => by
    unfold Inside
    omega

theorem atom_region (g : Graph) (negated : Bool) (a : Atom) : IsRegion g negated (.atom a) :=
  fun _ _ _ hg hnext => vertex_region hg.head rfl hnext

theorem chain_region {ts : List Regex} (ih : ∀ t ∈ ts, IsRegion g negated t)
    (hg : g.Holds base (chain negated base loop next ts)) (hnext : Ports next) :
    g.Region [base] (Inside base (base + sizeChain negated ts)) next := by
  induction ts generalizing base loop with
  | nil => exact vertex_region hg.head rfl hnext
  | cons t rest ihts =>
    cases rest with
    | nil => exact ih t (by simp) _ _ _ hg hnext
    | cons u rest =>
      rw [chain] at hg
      have hrest := hg.right
      rw [length_block] at hrest
      have hfirst := ih t (by simp) _ _ _ hg.left (Graph.ports_singleton _)
      have hothers := ihts (fun t ht => ih t (by simp [ht])) hrest
      rw [sizeChain, ← Nat.add_assoc]
      exact hfirst.trans_inside hothers (by omega) (by omega)

theorem branches_region {ts : List Regex} (hne : ts ≠ []) (ih : ∀ t ∈ ts, IsRegion g negated t)
    (hg : g.Holds base (branches negated base loop next ts)) (hnext : Ports next) {stop : Nat}
    (hstop : stop + 2 = base + sizeSplit negated ts) :
    g.Region (entries negated base ts) (Inside base stop) next := by
  induction ts generalizing base loop with
  | nil => exact absurd rfl hne
  | cons t rest ihts =>
    have hsize := two_le_sizeSplit negated rest
    rw [sizeSplit] at hstop
    rw [branches] at hg
    have hrest := hg.right
    rw [length_block] at hrest
    have hfirst := ih t (by simp) _ _ _ hg.left hnext
    by_cases hlast : rest = []
    · subst hlast
      obtain rfl : stop = base + size negated t := by
        rw [sizeSplit] at hstop
        omega
      exact hfirst
    · have hothers := ihts hlast (fun t ht => ih t (by simp [ht])) hrest (by omega)
      exact hfirst.beside_inside hothers (by omega) (by omega)

/-- Trees side by side, at least one of them. -/
theorem around_region {ts : List Regex} (hne : ts ≠ []) (ih : ∀ t ∈ ts, IsRegion g negated t)
    (hg : g.Holds base (around (entries negated (base + 1) ts) next
      (branches negated (base + 1) loop [base + sizeSplit negated ts - 1] ts)))
    (hnext : Ports next) :
    g.Region [base] (Inside base (base + sizeSplit negated ts)) next := by
  have hsize := two_le_sizeSplit negated ts
  obtain ⟨stop, hstop⟩ : ∃ stop, base + sizeSplit negated ts = stop + 1 :=
    ⟨base + sizeSplit negated ts - 1, by omega⟩
  obtain ⟨hsplit, hinner, hjoin⟩ := parts_around hg
  rw [hstop] at hinner hjoin ⊢
  have hbranches := branches_region hne ih hinner (Graph.ports_singleton _)
    (show stop + 2 = _ by omega)
  have hfirst := vertex_region hsplit rfl hbranches.entries
  have hlast := vertex_region hjoin rfl hnext
  exact (hfirst.trans_inside hbranches (by omega) (by omega)).trans_inside hlast (by omega)
    (by omega)

theorem group_region {slot : Nat} {body : Regex} (ih : IsRegion g negated body)
    (hslot : slot < g.captures) : IsRegion g negated (.group slot body) := by
  intro base loop next hg hnext
  obtain ⟨hopen, hbody, hclose⟩ := parts_group hg
  have hinner := ih _ _ _ hbody (Graph.ports_singleton _)
  refine (Region.group hopen hinner hclose hslot hnext).of_iff fun n => ?_
  rw [size]
  unfold Inside
  omega

theorem negation_region {body : Regex} (ih : IsRegion g true body) :
    IsRegion g false (.negation body) := by
  intro base loop next hg hnext
  obtain ⟨hbody, hstep⟩ := parts_negation hg
  have hsize : base + size false (.negation body) = base + size true body + 1 := by
    simp [size, Nat.add_assoc]
  rw [hsize]
  have hinner := ih _ _ _ hbody (Graph.ports_singleton _)
  exact hinner.trans_inside (vertex_region hstep rfl hnext) (by omega) (by omega)

/-- A class, in either mode. -/
theorem class_region (g : Graph) (negated : Bool) {members : List Regex}
    (hmembers : isClass members = true) : IsRegion g negated (.charClass members) := by
  obtain ⟨hne, atoms, rfl, -⟩ := isClass_iff.1 hmembers
  have hatoms : ∀ t ∈ atoms.map Regex.atom, IsRegion g negated t := by
    intro t ht
    obtain ⟨a, -, rfl⟩ := List.mem_map.1 ht
    exact atom_region g negated a
  intro base loop next hg hnext
  rw [size]
  rw [block] at hg
  cases negated with
  | false => exact around_region hne hatoms hg hnext
  | true => exact chain_region hatoms hg hnext

section

variable {lo hi width stop i : Nat} {isLazy : Bool}

theorem ports_choice {more : Nat} (h : more ≠ stop) : Ports (choice isLazy more stop) := by
  cases isLazy with
  | false => exact ⟨List.cons_ne_nil _ _, by simp [choice, h]⟩
  | true => exact ⟨List.cons_ne_nil _ _, by simp [choice, h.symm]⟩

theorem ports_stage (h : i < hi → base + i * width ≠ stop) :
    Ports (stage lo hi isLazy base width stop i) := by
  unfold stage
  split
  · exact Graph.ports_singleton _
  · split
    · next hlt => exact ports_choice (h hlt)
    · exact Graph.ports_singleton _

/-- Before the last round there is always a round to go on with. -/
theorem more_mem_stage (h : i < hi) :
    base + i * width ∈ stage lo hi isLazy base width stop i := by
  unfold stage choice
  grind

/-- Once a repetition may end, it may end after the next round, too. -/
theorem mem_stage_succ {n : Nat} (h : n ∈ stage lo hi isLazy base width stop i) :
    n = base + i * width ∨ n ∈ stage lo hi isLazy base width stop (i + 1) := by
  unfold stage choice at *
  grind

end

/-- The first `i` rounds, with the vertex in front of them: after them comes the next round, or the
end. -/
theorem rounds_region {body : Regex} (ih : IsRegion g negated body) {start lo hi stop : Nat}
    {isLazy : Bool} (hstart : g.vertices[start]? =
      some (.plain .join (stage lo hi isLazy base (size negated body) stop 0)))
    (hg : HoldsRounds g negated base loop lo hi isLazy stop body)
    (hstop : ¬ Inside base (base + hi * size negated body) stop) {i : Nat} (hi' : i ≤ hi) :
    g.Region [start] (fun n => n = start ∨ Inside base (base + i * size negated body) n)
      (stage lo hi isLazy base (size negated body) stop i) := by
  have hports : ∀ i, Ports (stage lo hi isLazy base (size negated body) stop i) := by
    refine fun i => ports_stage fun hlt heq => hstop ?_
    have := round_loops_le (m := size negated body) hlt
    have := size_pos body negated
    unfold Inside
    omega
  -- Each round takes over where the ones before it may go on, and leaves the end to be reached.
  induction i with
  | zero =>
    refine (Region.vertex hstart rfl (hports 0)).of_iff fun n => ?_
    unfold Inside
    omega
  | succ i ihi =>
    have hround := ih _ _ _ (hg i hi') (hports (i + 1))
    refine (Region.before (ihi (by omega)) hround (fun n hn => ?_) fun n hn => ?_).of_iff
      fun n => ?_
    · exact (mem_stage_succ hn).imp_left List.mem_singleton.2
    · exact List.mem_singleton.1 hn ▸ more_mem_stage hi'
    · have : (i + 1) * size negated body = i * size negated body + size negated body :=
        Nat.succ_mul ..
      unfold Inside
      omega

theorem loop_region {body : Regex} (ih : IsRegion g negated body) {again mark stop : Nat}
    {isLazy : Bool} (hg : HoldsLoop g negated again mark isLazy stop body)
    (hstop : again + 1 ≠ stop) :
    g.Region [again] (Inside again (again + 4 + size negated body)) [stop] := by
  have hinner := ih _ _ _ hg.round ⟨List.cons_ne_nil _ _, by simp⟩
  refine (Region.loop hg.split hg.enter hinner hg.progressed hg.stalled hstop).of_iff
    fun n => ?_
  unfold Inside
  omega

theorem repeated_region {body : Regex} (ih : IsRegion g negated body) (count : Quantifier) :
    IsRegion g negated (.repeated body count) := by
  obtain ⟨lo, hi, isLazy⟩ := count
  intro base loop next hg hnext
  cases hi with
  | some hi =>
    obtain ⟨hstart, hend, hrounds⟩ := parts_rounds hg
    have hbody := rounds_region ih hstart hrounds (by unfold Inside; omega) (Nat.le_refl _)
    rw [stage, if_neg (by omega), if_neg (by omega)] at hbody
    refine (hbody.trans (vertex_region hend rfl hnext)).of_iff fun n => ?_
    rw [size]
    unfold Inside
    omega
  | none =>
    obtain ⟨hstart, hend, hrounds, hloop⟩ := parts_loop hg
    have hbody := rounds_region ih hstart hrounds (by unfold Inside; omega) (Nat.le_refl _)
    rw [stage, if_neg (by omega), if_neg (by omega)] at hbody
    have hagain := loop_region ih hloop (by omega)
    refine ((hbody.trans hagain).trans (vertex_region hend rfl hnext)).of_iff fun n => ?_
    rw [size, Nat.succ_mul]
    unfold Inside
    omega

theorem mem_slotsOf {t : Regex} {ts : List Regex} (ht : t ∈ ts) :
    ∀ slot ∈ t.slots, slot ∈ slotsOf ts := by
  intro slot hslot
  rw [slotsOf_eq_flatMap]
  exact List.mem_flatMap.2 ⟨t, ht, hslot⟩

/-- The block of a tree that can be an item or a body is a region. -/
theorem block_region {t : Regex} (h : isItem t = true ∨ isBody t = true)
    (hslots : ∀ slot ∈ t.slots, slot < g.captures) : IsRegion g false t := by
  induction t with
  | atom a => exact atom_region g false a
  | seq items ih =>
    have hitems : areItems items = true := h.resolve_left fun h => by cases h
    intro base loop next hg hnext
    refine chain_region (fun t ht => ?_) (by simpa [block] using hg) hnext
    exact ih t ht (.inl (areItems_iff.1 hitems t ht)) fun slot h =>
      hslots slot (mem_slotsOf ht slot h)
  | alt branches ih =>
    have hbody : isBody (.alt branches) = true := h.resolve_left fun h => by cases h
    rw [isBody, Bool.and_eq_true, decide_eq_true_eq] at hbody
    intro base loop next hg hnext
    refine around_region (List.ne_nil_of_length_pos (by omega)) (fun t ht => ?_)
      (by simpa [block] using hg) hnext
    obtain ⟨items, rfl, hitems⟩ := areBranches_iff.1 hbody.2 t ht
    exact ih _ ht (.inr hitems) fun slot h => hslots slot (mem_slotsOf ht slot h)
  | charClass members => exact class_region g false (h.resolve_right fun h => by cases h)
  | negation body =>
    cases body with
    | charClass members =>
      exact negation_region (class_region g true (h.resolve_right fun h => by cases h))
    | _ => rcases h with h | h <;> cases h
  | group slot body ih =>
    refine group_region (ih (.inr (h.resolve_right fun h => by cases h)) fun slot' h => ?_) ?_
    · exact hslots slot' (List.mem_cons_of_mem slot h)
    · exact hslots slot List.mem_cons_self
  | repeated body count ih =>
    have hitem : isItem (.repeated body count) = true := h.resolve_right fun h => by cases h
    rw [isItem, Bool.and_eq_true] at hitem
    exact repeated_region (ih (.inl hitem.1) hslots) count

/-- **The graph of a tree is a region.**  All vertices before the terminal belong to a region that
is entered at the first vertex and left for the terminal. -/
theorem graph_region {t : Regex} {groups : Nat} (h : t.WellFormed groups) :
    (t.graph groups).Region [0] (Inside 0 (t.graph groups).terminal)
      [(t.graph groups).terminal] := by
  have hg := Graph.holds_toArray (g := t.graph groups) rfl
  have hblock := hg.left.right
  simp only [List.length_singleton, Nat.zero_add] at hblock
  have hslots : ∀ slot ∈ t.slots, slot < (t.graph groups).captures := by
    rw [h.slots]
    exact fun slot hslot => List.mem_range.1 hslot
  have hfirst := vertex_region hg.left.left.head rfl (Graph.ports_singleton 1)
  have htree := block_region (.inr h.body) hslots _ _ _ hblock (Graph.ports_singleton _)
  exact hfirst.trans_inside htree (Nat.zero_le 1) (Nat.le_add_right ..)

end Regex

end Backtrack
