import Backtrack.Proofs.Construction
import Backtrack.Proofs.WellFormedGraph

/-!
# Parts can be built anywhere

A part that is built behind others is the one that is built from nothing, with its vertices and its
loops numbered from where the others end.

Main statement: `Draft.build_anywhere`, which tells what building a part does to what is there
(`Draft.Adds`), and what the copies are that a repetition unrolls (`Draft.Unrolls`).  Its parts are
shown of blocks, by induction on the tree:

    elsewhere, the same block renumbered     (relocates)
    no edge out of the block                 (leads_block)
    a block in the rounds of a repetition    (holds_places)
-/

namespace Backtrack

/-! ## Renumbering -/

/-- The test with its loop numbered `l` higher. -/
def Test.raised (l : Nat) : Test → Test
  | .enterLoop k => .enterLoop (k + l)
  | .progressed k => .progressed (k + l)
  | .stalled k => .stalled (k + l)
  | test => test

/-- The automaton with its loop numbered `l` higher. -/
def Automaton.raised (l : Nat) (a : Automaton) : Automaton := { a with test := a.test.raised l }

/-- The vertex with its edges leading `n` vertices further, and its loop numbered `l` higher. -/
def Vertex.raised (n l : Nat) (v : Vertex) : Vertex :=
  ⟨v.automaton.raised l, v.next.map (· + n)⟩

theorem Vertex.raised_plain (n l : Nat) (test : Test) (next : List Nat) :
    (plain test next).raised n l = plain (test.raised l) (next.map (· + n)) := rfl

theorem Test.slot?_raised (l : Nat) (test : Test) : (test.raised l).slot? = test.slot? := by
  cases test <;> rfl

namespace Regex

variable {n l : Nat} {negated : Bool}

theorem map_choice (isLazy : Bool) (more stop n : Nat) :
    (choice isLazy more stop).map (· + n) = choice isLazy (more + n) (stop + n) := by
  cases isLazy <;> rfl

theorem map_stage (lo hi : Nat) (isLazy : Bool) (base width stop i n : Nat) :
    (stage lo hi isLazy base width stop i).map (· + n) =
      stage lo hi isLazy (base + n) width (stop + n) i := by
  have hentry : base + i * width + n = base + n + i * width := Nat.add_right_comm ..
  unfold stage
  split
  · rw [List.map_singleton, hentry]
  · split
    · rw [map_choice, hentry]
    · rw [List.map_singleton]

theorem map_entries (ts : List Regex) (base n : Nat) :
    (entries negated base ts).map (· + n) = entries negated (base + n) ts := by
  induction ts generalizing base with
  | nil => rfl
  | cons t rest ih => rw [entries, entries, List.map_cons, ih, Nat.add_right_comm]

/-- Wherever the block of a tree begins, and whatever number its loops begin with, it is the same
but for these numbers. -/
def Relocates (n l : Nat) (t : Regex) : Prop :=
  ∀ negated base loop next, (block negated base loop next t).map (Vertex.raised n l) =
    block negated (base + n) (loop + l) (next.map (· + n)) t

theorem map_chain {ts : List Regex} (ih : ∀ t ∈ ts, Relocates n l t) (base loop : Nat)
    (next : List Nat) :
    (chain negated base loop next ts).map (Vertex.raised n l) =
      chain negated (base + n) (loop + l) (next.map (· + n)) ts := by
  induction ts generalizing base loop with
  | nil => rfl
  | cons t rest ihts =>
    cases rest with
    | nil => exact ih t List.mem_cons_self negated base loop next
    | cons u rest =>
      rw [chain, chain, List.map_append, ih t List.mem_cons_self,
        ihts fun v hv => ih v (List.mem_cons_of_mem t hv), List.map_singleton,
        Nat.add_right_comm base, Nat.add_right_comm loop]

theorem map_branches {ts : List Regex} (ih : ∀ t ∈ ts, Relocates n l t) (base loop : Nat)
    (next : List Nat) :
    (branches negated base loop next ts).map (Vertex.raised n l) =
      branches negated (base + n) (loop + l) (next.map (· + n)) ts := by
  induction ts generalizing base loop with
  | nil => rfl
  | cons t rest ihts =>
    rw [branches, branches, List.map_append, ih t List.mem_cons_self,
      ihts fun v hv => ih v (List.mem_cons_of_mem t hv), Nat.add_right_comm base,
      Nat.add_right_comm loop]

theorem map_around {ts : List Regex} (ih : ∀ t ∈ ts, Relocates n l t) (base loop : Nat)
    (next : List Nat) :
    (around (entries negated (base + 1) ts) next
        (branches negated (base + 1) loop [base + sizeSplit negated ts - 1] ts)).map
          (Vertex.raised n l) =
      around (entries negated (base + n + 1) ts) (next.map (· + n))
        (branches negated (base + n + 1) (loop + l) [base + n + sizeSplit negated ts - 1] ts) := by
  have hpos := two_le_sizeSplit negated ts
  rw [around, around, List.map_append, List.map_cons, map_branches ih, List.map_singleton,
    List.map_singleton, Nat.add_right_comm base n 1,
    show base + n + sizeSplit negated ts - 1 = base + sizeSplit negated ts - 1 + n by omega,
    ← map_entries ts (base + 1) n]
  rfl

theorem map_rounds {body : Regex} (ih : Relocates n l body) (count base loop : Nat)
    (after : Nat → List Nat) :
    ((List.range count).flatMap fun i => block negated (base + i * size negated body)
        (loop + i * loops body) (after (i + 1)) body).map (Vertex.raised n l) =
      (List.range count).flatMap fun i => block negated (base + n + i * size negated body)
        (loop + l + i * loops body) ((after (i + 1)).map (· + n)) body := by
  rw [List.map_flatMap]
  congr 1
  funext i
  rw [ih, Nat.add_right_comm base, Nat.add_right_comm loop]

theorem relocates_repeated {body : Regex} (ih : Relocates n l body) (count : Quantifier) :
    Relocates n l (.repeated body count) := by
  obtain ⟨lo, hi, isLazy⟩ := count
  intro negated base loop next
  cases hi with
  | some hi =>
    rw [block, block, List.map_append, map_rounds ih]
    simp only [List.map_cons, List.map_nil, Vertex.raised_plain, Test.raised, map_stage,
      Nat.add_right_comm _ _ n]
  | none =>
    rw [block, block]
    simp only [List.map_append, List.map_cons, List.map_nil, Vertex.raised_plain, Test.raised,
      map_rounds ih, ih negated, map_stage, map_choice, Nat.add_right_comm _ _ n,
      Nat.add_right_comm _ _ l]

/-- **Blocks can be moved.**  Nothing else depends on the numbers from which on the vertices and the
loops of a block are numbered. -/
theorem relocates (t : Regex) (n l : Nat) : Relocates n l t := by
  induction t with
  | atom a => exact fun negated base loop next => rfl
  | seq items ih =>
    intro negated base loop next
    cases negated with
    | false => exact map_chain ih base loop next
    | true => exact map_around ih base loop next
  | alt branches ih =>
    intro negated base loop next
    cases negated with
    | false => exact map_around ih base loop next
    | true => exact map_chain ih base loop next
  | charClass members ih =>
    intro negated base loop next
    cases negated with
    | false => exact map_around ih base loop next
    | true => exact map_chain ih base loop next
  | negation body ih =>
    intro negated base loop next
    cases negated with
    | true => exact ih false base loop next
    | false =>
      rw [block, block, if_neg Bool.false_ne_true, if_neg Bool.false_ne_true, List.map_append, ih,
        List.map_singleton, Nat.add_right_comm base]
      rfl
  | group slot body ih =>
    intro negated base loop next
    rw [block, block, List.map_append, List.map_append, ih, List.map_singleton, List.map_singleton,
      List.map_singleton, Nat.add_right_comm base n 1, Nat.add_right_comm (base + 1)]
    rfl
  | repeated body count ih => exact relocates_repeated ih count

/-! ## Where edges lead -/

/-- From the vertices `vs`, edges lead to vertices before `bound`, or on to `next`. -/
def Leads (bound : Nat) (next : List Nat) (vs : List Vertex) : Prop :=
  ∀ v ∈ vs, ∀ m ∈ v.next, m < bound ∨ m ∈ next

section

variable {base bound : Nat} {next : List Nat} {us vs : List Vertex}

theorem Leads.append (h : Leads bound next us) (h' : Leads bound next vs) :
    Leads bound next (us ++ vs) := fun v hv => (List.mem_append.1 hv).elim (h v) (h' v)

theorem leads_nil : Leads bound next [] := fun v hv => by cases hv

theorem Leads.cons {v : Vertex} (hv : ∀ m ∈ v.next, m < bound ∨ m ∈ next)
    (h : Leads bound next vs) : Leads bound next (v :: vs) := fun w hw => by
  rcases List.mem_cons.1 hw with rfl | hw
  · exact hv
  · exact h w hw

theorem Leads.mono {bound' : Nat} {next' : List Nat} (h : Leads bound next vs)
    (hle : bound ≤ bound') (hnext : ∀ m ∈ next, m < bound' ∨ m ∈ next') : Leads bound' next' vs :=
  fun v hv m hm => (h v hv m hm).elim (fun hlt => .inl (Nat.lt_of_lt_of_le hlt hle)) (hnext m)

/-- The edges of the block of a tree lead to vertices of the block, or on from it. -/
def EdgesIn (t : Regex) : Prop :=
  ∀ negated base loop next,
    Leads (base + size negated t) next (block negated base loop next t)

theorem leads_chain {ts : List Regex} (ih : ∀ t ∈ ts, EdgesIn t) (base loop : Nat) :
    Leads (base + sizeChain negated ts) next (chain negated base loop next ts) := by
  induction ts generalizing base loop with
  | nil => exact .cons (fun m => .inr) leads_nil
  | cons t rest ihts =>
    cases rest with
    | nil => exact ih t List.mem_cons_self negated base loop next
    | cons u rest =>
      have hfirst := ih t List.mem_cons_self negated base loop [base + size negated t]
      have hrest := ihts (fun v hv => ih v (List.mem_cons_of_mem t hv)) (base + size negated t)
        (loop + loops t)
      have hpos : 0 < sizeChain negated (u :: rest) :=
        (size_list_pos fun v _ => size_pos v negated).1
      rw [sizeChain, ← Nat.add_assoc]
      refine (hfirst.mono (by omega) fun m hm => .inl ?_).append hrest
      have := List.mem_singleton.1 hm
      omega

theorem leads_branches {ts : List Regex} (ih : ∀ t ∈ ts, EdgesIn t) (base loop : Nat)
    (h : base + sizeSplit negated ts ≤ bound + 2) :
    Leads bound next (branches negated base loop next ts) := by
  induction ts generalizing base loop with
  | nil => exact leads_nil
  | cons t rest ihts =>
    have hpos := two_le_sizeSplit negated rest
    rw [sizeSplit] at h
    have hfirst := ih t List.mem_cons_self negated base loop next
    exact (hfirst.mono (by omega) fun m => .inr).append
      (ihts (fun v hv => ih v (List.mem_cons_of_mem t hv)) _ _ (by omega))

theorem lt_of_mem_entries {ts : List Regex} {m : Nat} (hm : m ∈ entries negated base ts) :
    m + 2 < base + sizeSplit negated ts := by
  induction ts generalizing base with
  | nil => cases hm
  | cons t rest ih =>
    have hpos := size_pos t negated
    have hsplit := two_le_sizeSplit negated rest
    rw [sizeSplit]
    rcases List.mem_cons.1 hm with rfl | hm
    · omega
    · have := ih hm
      omega

theorem leads_around {ts : List Regex} (ih : ∀ t ∈ ts, EdgesIn t) (base loop : Nat) :
    Leads (base + sizeSplit negated ts) next
      (around (entries negated (base + 1) ts) next
        (branches negated (base + 1) loop [base + sizeSplit negated ts - 1] ts)) := by
  have hpos := two_le_sizeSplit negated ts
  have hinner : Leads (base + sizeSplit negated ts) [base + sizeSplit negated ts - 1]
      (branches negated (base + 1) loop [base + sizeSplit negated ts - 1] ts) :=
    leads_branches ih (base + 1) loop (by omega)
  refine .append (.cons (fun m hm => .inl ?_) (hinner.mono (Nat.le_refl _) fun m hm => .inl ?_))
    (.cons (fun m => .inr) leads_nil)
  · have := lt_of_mem_entries hm
    omega
  · have := List.mem_singleton.1 hm
    omega

theorem leads_rounds {body : Regex} (ih : EdgesIn body) {count : Nat} (base loop : Nat)
    {after : Nat → List Nat} (hafter : ∀ i, ∀ m ∈ after i, m < bound ∨ m ∈ next)
    (hbound : base + count * size negated body ≤ bound) :
    Leads bound next ((List.range count).flatMap fun i =>
      block negated (base + i * size negated body) (loop + i * loops body) (after (i + 1))
        body) := by
  intro v hv
  obtain ⟨i, hi, hv⟩ := List.mem_flatMap.1 hv
  have hround := round_loops_le (m := size negated body) (List.mem_range.1 hi)
  exact (ih negated _ _ _).mono (by omega) (hafter (i + 1)) v hv

/-- A way on after a round is the end, or a vertex of the rounds. -/
theorem lt_of_mem_stage {lo count width stop i m : Nat} {isLazy : Bool} (hle : lo ≤ count)
    (hwidth : 0 < width) (hm : m ∈ stage lo count isLazy base width stop i) :
    m = stop ∨ m < base + count * width := by
  refine (mem_stage hle hm).imp_right ?_
  rintro ⟨hlt, rfl⟩
  have hround := round_loops_le (m := width) hlt
  omega

theorem leads_repeated {body : Regex} (ih : EdgesIn body) (count : Quantifier) :
    EdgesIn (.repeated body count) := by
  obtain ⟨lo, hi, isLazy⟩ := count
  intro negated base loop next
  have hpos := size_pos body negated
  cases hi with
  | some hi =>
    have hafter : ∀ i, ∀ m ∈ stage lo (max lo hi) isLazy (base + 2) (size negated body)
          (base + 1) i,
        m < base + 2 + max lo hi * size negated body ∨ m ∈ next := fun i m hm => by
      have := lt_of_mem_stage (Nat.le_max_left lo hi) hpos hm
      omega
    rw [block, size, ← Nat.add_assoc]
    exact .append (.cons (hafter 0) (.cons (fun m => .inr) leads_nil))
      (leads_rounds ih _ _ hafter (Nat.le_refl _))
  | none =>
    have hsize : base + size negated (.repeated body ⟨lo, none, isLazy⟩) =
        base + 2 + lo * size negated body + 4 + size negated body := by
      rw [size, Nat.succ_mul]
      omega
    have hafter : ∀ i, ∀ m ∈ stage lo lo isLazy (base + 2) (size negated body)
          (base + 2 + lo * size negated body) i,
        m < base + 2 + lo * size negated body + 4 + size negated body ∨ m ∈ next :=
      fun i m hm => by
        have := lt_of_mem_stage (Nat.le_refl lo) hpos hm
        omega
    have hround := (ih negated (base + 2 + lo * size negated body + 2)
      (loop + lo * loops body + 1) [base + 2 + lo * size negated body + 2 + size negated body,
        base + 2 + lo * size negated body + 3 + size negated body]).mono
      (show _ ≤ base + 2 + lo * size negated body + 4 + size negated body by omega)
      fun m hm => show m < _ ∨ m ∈ next by
        simp only [List.mem_cons, List.not_mem_nil, or_false] at hm
        omega
    rw [block, hsize]
    refine .append (.append (.append (.append
      (.cons (hafter 0) (.cons (fun m => .inr) leads_nil))
      (leads_rounds ih _ _ hafter (by omega)))
      (.cons (fun m hm => .inl ?_) (.cons (fun m hm => .inl ?_) leads_nil)))
      hround)
      (.cons (fun m hm => .inl ?_) (.cons (fun m hm => .inl ?_) leads_nil))
    · rcases Graph.mem_choice.1 hm with rfl | rfl <;> omega
    all_goals
      have := List.mem_singleton.1 hm
      omega

/-- **No edge leads out of a block**, but those that lead on from it. -/
theorem leads_block (t : Regex) : EdgesIn t := by
  induction t with
  | atom a => exact fun negated base loop next => .cons (fun m => .inr) leads_nil
  | seq items ih =>
    intro negated base loop next
    cases negated with
    | false => exact leads_chain ih base loop
    | true => exact leads_around ih base loop
  | alt branches ih =>
    intro negated base loop next
    cases negated with
    | false => exact leads_around ih base loop
    | true => exact leads_chain ih base loop
  | charClass members ih =>
    intro negated base loop next
    cases negated with
    | false => exact leads_around ih base loop
    | true => exact leads_chain ih base loop
  | negation body ih =>
    intro negated base loop next
    cases negated with
    | true => exact ih false base loop next
    | false =>
      rw [block, size, if_neg Bool.false_ne_true, if_neg Bool.false_ne_true]
      refine ((ih true base loop _).mono (by omega) fun m hm => .inl ?_).append
        (.cons (fun m => .inr) leads_nil)
      have := List.mem_singleton.1 hm
      omega
  | group slot body ih =>
    intro negated base loop next
    rw [block, size]
    have hbody := (ih negated (base + 1) loop [base + 1 + size negated body]).mono
      (show _ ≤ base + (size negated body + 2) by omega) fun m hm => show m < _ ∨ m ∈ next by
        have := List.mem_singleton.1 hm
        omega
    refine .append (.append (.cons (fun m hm => .inl ?_) leads_nil) hbody)
      (.cons (fun m => .inr) leads_nil)
    have := List.mem_singleton.1 hm
    omega
  | repeated body count ih => exact leads_repeated ih count

end

/-! ## Copies of a block -/

/-- Wherever a block stands, it is the one that stands first, renumbered, and with edges added that
lead on from the vertex from which it is left. -/
theorem block_eq_raised (t : Regex) (negated : Bool) (p l : Nat) (next : List Nat) :
    ∃ us a vs, us.length = exit negated t ∧ block negated 0 0 [] t = us ++ ⟨a, []⟩ :: vs ∧
      block negated p l next t =
        us.map (Vertex.raised p l) ++ ⟨a.raised l, next⟩ :: vs.map (Vertex.raised p l) := by
  obtain ⟨us, a, vs, hlen, hblock⟩ := openAt_block t negated 0 0
  obtain ⟨us', a', vs', hlen', hblock'⟩ := openAt_block t negated p l
  dsimp only at hblock hblock'
  refine ⟨us, a, vs, hlen, hblock [], ?_⟩
  have hmap := relocates t p l negated 0 0 []
  rw [hblock, Nat.zero_add, Nat.zero_add, List.map_nil, hblock', List.map_append,
    List.map_cons] at hmap
  obtain ⟨rfl, htail⟩ := List.append_inj hmap (by rw [List.length_map, hlen, hlen'])
  obtain ⟨hvertex, rfl⟩ := List.cons.inj htail
  have hautomaton : a.raised l = a' := congrArg Vertex.automaton hvertex
  rw [hblock', hautomaton]

/-- The vertices of a block are those of the block that stands first, renumbered, and from the one
from which it is left edges lead on. -/
theorem getElem?_block (t : Regex) (negated : Bool) (p l : Nat) (next : List Nat) (i : Nat) :
    (block negated p l next t)[i]? = (block negated 0 0 [] t)[i]?.map fun v =>
      if i = exit negated t then ⟨v.automaton.raised l, next⟩ else v.raised p l := by
  obtain ⟨us, a, vs, hlen, hfirst, hblock⟩ := block_eq_raised t negated p l next
  rw [hfirst, hblock, ← hlen]
  -- In front of the vertex from which the block is left, at it, and behind it.
  rcases Nat.lt_trichotomy i us.length with hlt | rfl | hlt
  · rw [List.getElem?_append_left (by rwa [List.length_map]), List.getElem?_append_left hlt,
      List.getElem?_map]
    simp only [if_neg (Nat.ne_of_lt hlt)]
  · rw [List.getElem?_append_right (Nat.le_of_eq (List.length_map _)), List.length_map,
      Nat.sub_self, List.getElem?_append_right (Nat.le_refl _), Nat.sub_self,
      List.getElem?_cons_zero, List.getElem?_cons_zero, Option.map_some, if_pos rfl]
  · obtain ⟨j, rfl⟩ := Nat.exists_eq_add_of_lt hlt
    rw [List.getElem?_append_right (by rw [List.length_map]; omega), List.length_map,
      List.getElem?_append_right (by omega), show us.length + j + 1 - us.length = j + 1 by omega,
      List.getElem?_cons_succ, List.getElem?_cons_succ, List.getElem?_map]
    simp only [if_neg (Nat.ne_of_gt hlt)]

theorem exists_exit (t : Regex) (negated : Bool) (p l : Nat) :
    ∃ a, (block negated p l [] t)[exit negated t]? = some ⟨a, []⟩ := by
  obtain ⟨us, a, vs, hlen, hblock⟩ := openAt_block t negated p l
  dsimp only at hblock
  refine ⟨a, ?_⟩
  rw [hblock, ← hlen, List.getElem?_append_right (Nat.le_refl _), Nat.sub_self,
    List.getElem?_cons_zero]

/-- The tests of a block are about its own loops. -/
theorem loop_of_mem_block {t : Regex} {negated : Bool} {base loop k : Nat} {next : List Nat}
    {v : Vertex} (hv : v ∈ block negated base loop next t)
    (hk : v.automaton.test.loop? = some k) : loop ≤ k ∧ k < loop + loops t := by
  have hcount : 0 < Vertex.count v.automaton.test (block negated base loop next t) :=
    List.countP_pos_iff.2 ⟨v, hv, decide_eq_true rfl⟩
  rw [count_block hk, once] at hcount
  split at hcount
  · next h => exact h
  · cases hcount

end Regex

/-! ## Building anywhere -/

/-- The part with its vertices numbered `n` higher. -/
def Fragment.raised (n : Nat) (part : Fragment) : Fragment := ⟨part.entry + n, part.exit + n⟩

namespace Draft

/-- The block of a tree by itself. -/
def fresh (negated : Bool) (t : Regex) : Draft := ⟨t.block negated 0 0 [], t.loops⟩

/-- One graph behind another, its vertices and its loops renumbered. -/
def append (d new : Draft) : Draft :=
  ⟨d.vertices ++ new.vertices.map (Vertex.raised d.size d.loops), d.loops + new.loops⟩

/-- The slot that the test of vertex `n` opens or closes. -/
def slot? (d : Draft) (n : Nat) : Option Nat := d.vertices[n]?.bind (·.automaton.test.slot?)

/-- The loop whose book the test of vertex `n` keeps. -/
def loop? (d : Draft) (n : Nat) : Option Nat := d.vertices[n]?.bind (·.automaton.test.loop?)

/-- What has become of `d` when a part has been built and `d'` is there: the old vertices are there
with their edges, and from new vertices edges lead to new ones only. -/
structure Adds (d : Draft) (part : Fragment) (d' : Draft) : Prop where
  frame : ∀ n, n < d.size → d'.vertices[n]? = d.vertices[n]?
  edges : ∀ n v, d.size ≤ n → d'.vertices[n]? = some v → ∀ m ∈ v.next, d.size ≤ m ∧ m < d'.size
  entry : d.size ≤ part.entry ∧ part.entry < d'.size
  /-- The part is left from a new vertex, from which no edge leads anywhere yet. -/
  exit : d.size ≤ part.exit ∧ ∃ a, d'.vertices[part.exit]? = some ⟨a, []⟩
  /-- Each test of each new loop is made at one new vertex, and no tests of other loops are. -/
  marks : ∀ test k, test.loop? = some k →
    Vertex.count test (d'.vertices.drop d.size) = if d.loops ≤ k ∧ k < d'.loops then 1 else 0

/-- In `whole` stands a copy of `new`, which was left from the vertex `last`: its vertices are
numbered from `p` on, and its loops from `l` on. -/
structure IsCopy (last : Nat) (new whole : Draft) (p l : Nat) : Prop where
  /-- But for the last one, the vertices have the same tests and the same edges. -/
  inner : ∀ i v, i ≠ last → new.vertices[i]? = some v →
    whole.vertices[p + i]? = some (v.raised p l)
  /-- The last vertex has the same test, and all its edges lead out of the copy. -/
  outer : ∃ a next, new.vertices[last]? = some ⟨a, []⟩ ∧
    whole.vertices[p + last]? = some ⟨a.raised l, next⟩ ∧ ∀ m ∈ next, m < p ∨ p + new.size ≤ m
  slots : ∀ i, i < new.size → whole.slot? (p + i) = new.slot? i

/-- At each of the `places`, which are the numbers of a vertex and of a loop, stands a copy, and no
two copies share a vertex or a loop. -/
structure Unrolls (last : Nat) (new whole : Draft) (places : List (Nat × Nat)) : Prop where
  copies : ∀ x ∈ places, IsCopy last new whole x.1 x.2
  apart : places.Pairwise fun x y => x.1 + new.size ≤ y.1
  marks : places.Pairwise fun x y => ∀ i j k, i < new.size → j < new.size →
    whole.loop? (x.1 + i) = some k → whole.loop? (y.1 + j) ≠ some k

/-- Where a repetition that is built at `p` puts the copies of its body, and where the loops of each
begin, if those of the repetition begin with `l`: a loop without an upper bound has two vertices in
front of the last copy, and a number of its own. -/
def places (p l : Nat) (new : Draft) : Quantifier → List (Nat × Nat)
  | ⟨lo, some hi, _⟩ =>
    (List.range (max lo hi)).map fun i => (p + 2 + i * new.size, l + i * new.loops)
  | ⟨lo, none, _⟩ =>
    (List.range lo).map (fun i => (p + 2 + i * new.size, l + i * new.loops)) ++
      [(p + 2 + lo * new.size + 2, l + lo * new.loops + 1)]

end Draft

namespace Regex

open Draft (build fresh Adds IsCopy Unrolls places)

variable {negated : Bool} {t : Regex} {p l : Nat} {next : List Nat}

theorem size_fresh (negated : Bool) (t : Regex) : (fresh negated t).size = size negated t :=
  length_block t negated 0 0 []

theorem append_fresh (negated : Bool) (t : Regex) (d : Draft) : d.append (fresh negated t) =
    ⟨d.vertices ++ block negated d.size d.loops [] t, d.loops + loops t⟩ := by
  have hmap := relocates t d.size d.loops negated 0 0 []
  rw [Nat.zero_add, Nat.zero_add, List.map_nil] at hmap
  rw [Draft.append, fresh, hmap]

/-- What is built behind `d` is what is built from nothing, renumbered. -/
theorem build_eq (negated : Bool) (t : Regex) (d : Draft) : build negated t d =
    some ((⟨0, exit negated t⟩ : Fragment).raised d.size, d.append (fresh negated t)) := by
  rw [append_fresh, Fragment.raised, Nat.zero_add, Nat.add_comm (exit negated t)]
  exact builds t negated d.vertices d.loops

theorem size_append_fresh (negated : Bool) (t : Regex) (d : Draft) :
    (d.append (fresh negated t)).size = d.size + size negated t := by
  rw [append_fresh, Draft.size, List.length_append, length_block]
  rfl

/-- An edge of a new vertex is an edge of a vertex that is built from nothing, renumbered. -/
theorem edge_inside {d : Draft} {n m : Nat} {v : Vertex} (hn : d.size ≤ n)
    (hv : (d.append (fresh negated t)).vertices[n]? = some v) (hm : m ∈ v.next) :
    d.size ≤ m ∧ m < d.size + size negated t := by
  rw [Draft.append, List.getElem?_append_right hn, List.getElem?_map] at hv
  obtain ⟨w, hw, rfl⟩ := Option.map_eq_some_iff.1 hv
  obtain ⟨j, hj, rfl⟩ := List.mem_map.1 hm
  rcases leads_block t negated 0 0 [] w (List.mem_of_getElem? hw) j hj with hlt | hnil
  · omega
  · cases hnil

/-- The block of a tree is added behind `d`, and nothing else changes. -/
theorem adds (negated : Bool) (t : Regex) (d : Draft) :
    Adds d ((⟨0, exit negated t⟩ : Fragment).raised d.size) (d.append (fresh negated t)) where
  frame n hn := List.getElem?_append_left hn
  edges n v hn hv m hm := by
    rw [size_append_fresh]
    exact edge_inside hn hv hm
  entry := by
    have hpos := size_pos t negated
    rw [size_append_fresh, Fragment.raised, Nat.zero_add]
    exact ⟨Nat.le_refl _, Nat.lt_add_of_pos_right hpos⟩
  exit := by
    obtain ⟨a, ha⟩ := exists_exit t negated d.size d.loops
    refine ⟨Nat.le_add_left .., a, ?_⟩
    rw [append_fresh]
    refine (List.getElem?_append_right (Nat.le_add_left ..)).trans ?_
    rwa [Nat.add_sub_cancel]
  marks test k hk := by
    rw [append_fresh, Draft.size, List.drop_left, count_block hk]
    rfl

section

variable {g : Graph} {whole : Draft} (hg : g.vertices = whole.vertices.toArray)
  (h : g.Holds p (block negated p l next t))

include hg h

theorem getElem?_of_holds {i : Nat} {v : Vertex} (hv : (block negated p l next t)[i]? = some v) :
    whole.vertices[p + i]? = some v := by
  simpa [hg] using h i v hv

/-- Where a block stands there is a copy, if one goes on from it elsewhere. -/
theorem isCopy_of_holds (hnext : ∀ m ∈ next, m < p ∨ p + size negated t ≤ m) :
    IsCopy (exit negated t) (fresh negated t) whole p l where
  inner i v hi hv := getElem?_of_holds hg h (by
    rw [getElem?_block, show (block negated 0 0 [] t)[i]? = some v from hv, Option.map_some,
      if_neg hi])
  outer := by
    obtain ⟨a, ha⟩ := exists_exit t negated 0 0
    rw [size_fresh]
    refine ⟨a, next, ha, getElem?_of_holds hg h ?_, hnext⟩
    rw [getElem?_block, ha, Option.map_some, if_pos rfl]
  slots i hi := by
    obtain ⟨v, hv⟩ : ∃ v, (block negated 0 0 [] t)[i]? = some v := ⟨_, List.getElem?_eq_getElem hi⟩
    have hw := getElem?_of_holds hg h (by rw [getElem?_block, hv, Option.map_some])
    rw [Draft.slot?, Draft.slot?, hw, show (fresh negated t).vertices[i]? = some v from hv,
      Option.bind_some, Option.bind_some]
    split <;> exact Test.slot?_raised l v.automaton.test

/-- The loops of a block that stands in the whole are its own. -/
theorem loop_of_holds {i k : Nat} (hi : i < size negated t) (hk : whole.loop? (p + i) = some k) :
    l ≤ k ∧ k < l + loops t := by
  rw [← length_block t negated p l next] at hi
  rw [Draft.loop?, getElem?_of_holds hg h (List.getElem?_eq_getElem hi), Option.bind_some] at hk
  exact loop_of_mem_block (List.getElem_mem hi) hk

end

/-- Copies of a body come one after the other, and so do their loops. -/
theorem pairwise_places (p l : Nat) (new : Draft) (count : Quantifier) :
    (places p l new count).Pairwise fun x y =>
      x.1 + new.size ≤ y.1 ∧ x.2 + new.loops ≤ y.2 := by
  obtain ⟨lo, hi, isLazy⟩ := count
  have hrounds : ∀ n, ((List.range n).map fun i =>
      (p + 2 + i * new.size, l + i * new.loops)).Pairwise fun x y =>
        x.1 + new.size ≤ y.1 ∧ x.2 + new.loops ≤ y.2 := by
    intro n
    refine List.pairwise_map.2 (List.pairwise_lt_range.imp fun {i j} hlt => ?_)
    have hsize := round_loops_le (m := new.size) hlt
    have hloops := round_loops_le (m := new.loops) hlt
    dsimp only
    omega
  cases hi with
  | some hi => exact hrounds (max lo hi)
  | none =>
    refine List.pairwise_append.2 ⟨hrounds lo, List.pairwise_singleton .., fun x hx y hy => ?_⟩
    obtain ⟨i, hi, rfl⟩ := List.mem_map.1 hx
    have hlt := List.mem_range.1 hi
    have hsize := round_loops_le (m := new.size) hlt
    have hloops := round_loops_le (m := new.loops) hlt
    rw [List.mem_singleton.1 hy]
    dsimp only
    omega

/-- A way on after a round leads out of the round. -/
theorem outside_of_mem_stage {lo count width i m base stop : Nat} {isLazy : Bool}
    (hle : lo ≤ count) (hi : i < count) (hstop : stop < base ∨ base + count * width ≤ stop)
    (hm : m ∈ stage lo count isLazy base width stop (i + 1)) :
    m < base + i * width ∨ base + i * width + width ≤ m := by
  have hround := round_loops_le (m := width) hi
  rcases mem_stage hle hm with rfl | ⟨-, rfl⟩
  · omega
  · rw [Nat.succ_mul]
    omega

/-- At each place there is a block of the body, and one goes on from it elsewhere. -/
theorem holds_places {g : Graph} {count : Quantifier}
    (h : g.Holds p (block negated p l next (.repeated t count))) :
    ∀ x ∈ places p l (fresh negated t) count, ∃ next,
      g.Holds x.1 (block negated x.1 x.2 next t) ∧
        ∀ m ∈ next, m < x.1 ∨ x.1 + size negated t ≤ m := by
  obtain ⟨lo, hi, isLazy⟩ := count
  intro x hx
  cases hi with
  | some hi =>
    obtain ⟨-, -, hrounds⟩ := parts_rounds h
    rw [places, size_fresh] at hx
    obtain ⟨i, hi', rfl⟩ := List.mem_map.1 hx
    have hlt := List.mem_range.1 hi'
    exact ⟨_, hrounds i hlt, fun m hm =>
      outside_of_mem_stage (Nat.le_max_left ..) hlt (.inl (by omega)) hm⟩
  | none =>
    obtain ⟨-, -, hrounds, hloop⟩ := parts_loop h
    rw [places, size_fresh] at hx
    rcases List.mem_append.1 hx with hx | hx
    · obtain ⟨i, hi', rfl⟩ := List.mem_map.1 hx
      have hlt := List.mem_range.1 hi'
      exact ⟨_, hrounds i hlt, fun m hm =>
        outside_of_mem_stage (Nat.le_refl _) hlt (.inr (Nat.le_refl _)) hm⟩
    · rw [List.mem_singleton.1 hx]
      refine ⟨_, hloop.round, fun m hm => .inr ?_⟩
      simp only [List.mem_cons, List.not_mem_nil, or_false] at hm
      dsimp only
      omega

/-- What a repetition unrolls behind `d` are copies of its body, built from nothing. -/
theorem unrolls (negated : Bool) (t : Regex) (count : Quantifier) (d : Draft) :
    Unrolls (exit negated t) (fresh negated t) (d.append (fresh negated (.repeated t count)))
      (places d.size d.loops (fresh negated t) count) := by
  obtain ⟨whole, hwhole⟩ : ∃ whole, whole = d.append (fresh negated (.repeated t count)) := ⟨_, rfl⟩
  -- Where parts of a block stand is known of graphs; of this one nothing but the vertices matters.
  let g : Graph := ⟨whole.vertices.toArray, 0, 0, 0, 0, 0⟩
  have hblock : g.Holds d.size
      (block negated d.size d.loops [] (.repeated t count)) := by
    have hholds := Graph.holds_toArray (g := g) rfl
    rw [hwhole, append_fresh] at hholds
    have hbehind := hholds.right
    rwa [Nat.zero_add] at hbehind
  have hplaces := holds_places hblock
  have hpairwise := pairwise_places d.size d.loops (fresh negated t) count
  rw [← hwhole]
  refine ⟨fun x hx => ?_, hpairwise.imp And.left, hpairwise.imp_of_mem ?_⟩
  · obtain ⟨next, hx, hnext⟩ := hplaces x hx
    exact isCopy_of_holds rfl hx hnext
  · intro x y hx hy hxy i j k hi hj hik hjk
    obtain ⟨_, hx, -⟩ := hplaces x hx
    obtain ⟨_, hy, -⟩ := hplaces y hy
    rw [size_fresh] at hi hj
    have hbefore := loop_of_holds rfl hx hi hik
    have hafter := loop_of_holds rfl hy hj hjk
    have hle : x.2 + loops t ≤ y.2 := hxy.2
    omega

end Regex

/-- **Parts can be built anywhere.**  Whatever is there already, building the part of a tree
succeeds, and so never adds an edge that is there; it leaves what is there alone; and what it adds
is what is built from nothing, renumbered.  So a repetition unrolls copies of its body that are
alike in all but the numbers of their vertices and of their loops, which no two of them share. -/
theorem Draft.build_anywhere (negated : Bool) (t : Regex) :
    build negated t .empty = some (⟨0, t.exit negated⟩, .fresh negated t) ∧
      ∀ d, build negated t d =
          some (.raised d.size ⟨0, t.exit negated⟩, d.append (.fresh negated t)) ∧
        Adds d (.raised d.size ⟨0, t.exit negated⟩) (d.append (.fresh negated t)) ∧
        ∀ count, ∃ part whole, build negated (.repeated t count) d = some (part, whole) ∧
          Unrolls (t.exit negated) (.fresh negated t) whole
            (places d.size d.loops (.fresh negated t) count) := by
  have hfresh := Regex.builds t negated [] 0
  rw [List.length_nil, Nat.zero_add, Nat.zero_add, List.nil_append] at hfresh
  exact ⟨hfresh, fun d => ⟨Regex.build_eq negated t d, Regex.adds negated t d, fun count =>
    ⟨_, _, Regex.build_eq negated (.repeated t count) d, Regex.unrolls negated t count d⟩⟩⟩

/-- Three copies of `a*` in `(a*){2,}`, the last of them in a loop, which has number 2. -/
example : Draft.places 0 0 (.fresh false (.repeated (.char 'a') ⟨0, none, false⟩))
    ⟨2, none, false⟩ = [(2, 0), (9, 1), (18, 3)] := by decide

end Backtrack
