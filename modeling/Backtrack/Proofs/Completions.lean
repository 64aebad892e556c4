import Backtrack.Graph.Halting
import Backtrack.Proofs.Exploration
import Backtrack.Proofs.Repetition
import Backtrack.Proofs.Steps

/-!
# What the graph of a tree explores

`Regex.completions negated t σ` are the states in which tree `t` can be completed from
state `σ`, in the order in which they are tried; no graph, no stack and no marks of loops
are left in it.  Main statements:

    a block leads where the first of its completions leads      (block_leads)
    a search tells the first completion at the first boundary   (Program.run_of_compile)

The proof follows the tree, as that of `Regex.block_acc` does.  What comes after a block is
any function `after` of the unmarked state, so that a block is entered with what the
blocks after it will make of each completion.
-/

namespace Backtrack

def State.left (σ : State) : Nat := σ.subject.utf8ByteSize - σ.offset

namespace Regex

mutual

/-- The states in which a tree can be completed, the preferred one in front.  In negated
mode tests become their opposites, and branches change places with sequences. -/
def completions (negated : Bool) : Regex → State → List State
  | .atom a, σ => ((⟨.atom a, negated⟩ : Automaton).run σ).toList
  | .seq items, σ =>
    if negated then completionsAny negated items σ else completionsAll negated items σ
  | .alt branches, σ =>
    if negated then completionsAll negated branches σ else completionsAny negated branches σ
  | .charClass members, σ =>
    if negated then completionsAll negated members σ else completionsAny negated members σ
  | .group slot body, σ =>
    (completions negated body (σ.openSlot slot)).map (·.closeSlot slot)
  | .negation body, σ =>
    if negated then completions false body σ
    else (completions true body σ).flatMap fun τ => (Test.anyChar.run τ).toList
  | .repeated body count, σ => count.repeats State.left (completions negated body) σ

def completionsAll (negated : Bool) : List Regex → State → List State
  | [], σ => [σ]
  | t :: rest, σ => (completions negated t σ).flatMap (completionsAll negated rest)

def completionsAny (negated : Bool) : List Regex → State → List State
  | [], _ => []
  | t :: rest, σ => completions negated t σ ++ completionsAny negated rest σ

end

end Regex

/-! ## Tests and marks -/

theorem State.consume_any_unmarked (σ : State) :
    (σ.unmarked.consume fun _ => true) = (σ.consume fun _ => true).map unmarked := by
  rw [consume_any, consume_any, Option.map_map]
  rfl

theorem Atom.run_unmarked (a : Atom) (σ : State) :
    a.run σ.unmarked = (a.run σ).map State.unmarked := by
  rw [run_eq_step?, run_eq_step?, Option.map_map]
  rfl

theorem Automaton.run_atom_unmarked (a : Atom) (negated : Bool) (σ : State) :
    (⟨.atom a, negated⟩ : Automaton).run σ.unmarked =
      ((⟨.atom a, negated⟩ : Automaton).run σ).map State.unmarked := by
  unfold run
  cases negated with
  | false => exact a.run_unmarked σ
  | true =>
    simp only [if_true, Test.run, a.run_unmarked σ]
    cases a.run σ <;> rfl

/-- A round has progressed exactly if it ends further on than it began: its mark is still
there. -/
theorem Onward.progressed_iff {lo hi k : Nat} {σ τ : State} (h : Onward lo hi (σ.mark k) τ)
    (hk : k < lo ∨ hi ≤ k) (hsize : k < σ.marks.size) :
    τ.progressed k = decide (σ.offset < τ.offset) := by
  have hmark : τ.marks[k]? = some σ.offset := by
    rw [h.marks k hk]
    show (σ.marks.setIfInBounds k σ.offset)[k]? = some σ.offset
    rw [Array.getElem?_setIfInBounds_self, if_pos hsize]
  simp only [State.progressed, hmark]

theorem Onward.left_lt_iff {lo hi : Nat} {σ τ : State} (h : Onward lo hi σ τ) :
    τ.left < σ.left ↔ σ.offset < τ.offset := by
  have hoffset := h.offset
  unfold State.left
  rw [h.subject]
  omega

namespace Graph

variable {g : Graph}

theorem leads_choice {isLazy : Bool} {more stop : Nat} {σ : State} {ms ss : List State}
    {after : State → Option State} (hmore : g.Leads [more] σ (ms.findSome? after))
    (hstop : g.Leads [stop] σ (ss.findSome? after)) :
    g.Leads (Regex.choice isLazy more stop) σ
      ((Quantifier.prefer isLazy ss ms).findSome? after) := by
  cases isLazy with
  | false =>
    have h := leads_cons hmore hstop
    rwa [← List.findSome?_append] at h
  | true =>
    have h := leads_cons hstop hmore
    rwa [← List.findSome?_append] at h

end Graph

/-! ## Blocks -/

theorem run_progressed (k : Nat) (next : List Nat) (σ : State) :
    (Vertex.plain (.progressed k) next).automaton.run σ =
      if σ.progressed k = true then some σ else none := rfl

theorem run_stalled (k : Nat) (next : List Nat) (σ : State) :
    (Vertex.plain (.stalled k) next).automaton.run σ =
      if σ.progressed k = true then none else some σ := rfl

namespace Regex

variable {g : Graph}

/-- A block leads where the first of its completions leads of which anything comes. -/
def LeadsThrough (g : Graph) (t : Regex) : Prop :=
  ∀ negated base loop next σ (after : State → Option State),
    g.Holds base (block negated base loop next t) → base + size negated t ≤ g.terminal →
    loop + loops t ≤ σ.marks.size →
    (∀ τ, Onward loop (loop + loops t) σ τ → g.Leads next τ (after τ.unmarked)) →
    g.Leads [base] σ ((completions negated t σ.unmarked).findSome? after)

theorem chain_leads {ts : List Regex} (ih : ∀ t ∈ ts, LeadsThrough g t)
    {negated : Bool} {base loop : Nat} {next : List Nat} {σ : State} {after : State → Option State}
    (hg : g.Holds base (chain negated base loop next ts))
    (hend : base + sizeChain negated ts ≤ g.terminal) (hsize : loop + loopsOf ts ≤ σ.marks.size)
    (hnext : ∀ τ, Onward loop (loop + loopsOf ts) σ τ → g.Leads next τ (after τ.unmarked)) :
    g.Leads [base] σ ((completionsAll negated ts σ.unmarked).findSome? after) := by
  induction ts generalizing base loop σ with
  | nil =>
    simp only [sizeChain] at hend
    rw [completionsAll, List.findSome?_singleton]
    exact Graph.leads_join (by omega) hg.head (hnext σ (.refl ..))
  | cons t rest ihts =>
    rw [completionsAll, findSome?_flatMap]
    cases rest with
    | nil =>
      refine ih t (by simp) _ _ _ _ _ _ hg hend hsize fun τ hτ => ?_
      rw [completionsAll, List.findSome?_singleton]
      exact hnext τ hτ
    | cons u rest =>
      rw [chain] at hg
      simp only [sizeChain, loopsOf] at hend hsize hnext
      have hrest := hg.right
      rw [length_block] at hrest
      refine ih t (by simp) _ _ _ _ _ _ hg.left (by omega) (by omega) fun τ hτ => ?_
      refine ihts (fun t ht => ih t (by simp [ht])) hrest (by omega) ?_ fun ρ hρ => hnext ρ ?_
      · rw [hτ.size, loopsOf]
        omega
      · rw [loopsOf] at hρ
        exact (hτ.mono (by omega) (by omega)).trans (hρ.mono (by omega) (by omega))

theorem branches_leads {ts : List Regex} (ih : ∀ t ∈ ts, LeadsThrough g t)
    {negated : Bool} {base loop : Nat} {next : List Nat} {σ : State} {after : State → Option State}
    (hg : g.Holds base (branches negated base loop next ts))
    (hend : base + sizeSplit negated ts ≤ g.terminal + 2)
    (hsize : loop + loopsOf ts ≤ σ.marks.size)
    (hnext : ∀ τ, Onward loop (loop + loopsOf ts) σ τ → g.Leads next τ (after τ.unmarked)) :
    g.Leads (entries negated base ts) σ
      ((completionsAny negated ts σ.unmarked).findSome? after) := by
  induction ts generalizing base loop with
  | nil => exact Graph.leads_nil
  | cons t rest ihts =>
    rw [branches] at hg
    simp only [sizeSplit, loopsOf] at hend hsize hnext
    have hrest := hg.right
    rw [length_block] at hrest
    have hpos := two_le_sizeSplit negated rest
    rw [completionsAny, List.findSome?_append, entries]
    refine Graph.leads_cons ?_ ?_
    · exact ih t (by simp) _ _ _ _ _ _ hg.left (by omega) (by omega) fun τ hτ =>
        hnext τ (hτ.mono (Nat.le_refl _) (by omega))
    · exact ihts (fun t ht => ih t (by simp [ht])) hrest (by omega) (by omega)
        fun τ hτ => hnext τ (hτ.mono (by omega) (by omega))

theorem around_leads {ts : List Regex} (ih : ∀ t ∈ ts, LeadsThrough g t)
    {negated : Bool} {base loop : Nat} {next : List Nat} {σ : State} {after : State → Option State}
    (hg : g.Holds base (around (entries negated (base + 1) ts) next
      (branches negated (base + 1) loop [base + sizeSplit negated ts - 1] ts)))
    (hend : base + sizeSplit negated ts ≤ g.terminal) (hsize : loop + loopsOf ts ≤ σ.marks.size)
    (hnext : ∀ τ, Onward loop (loop + loopsOf ts) σ τ → g.Leads next τ (after τ.unmarked)) :
    g.Leads [base] σ ((completionsAny negated ts σ.unmarked).findSome? after) := by
  obtain ⟨hsplit, hinner, hjoin⟩ := parts_around hg
  have hpos := two_le_sizeSplit negated ts
  refine Graph.leads_join (by omega) hsplit ?_
  exact branches_leads ih hinner (by omega) hsize fun τ hτ =>
    Graph.leads_join (by omega) hjoin (hnext τ hτ)

theorem negation_leads {body : Regex} (ih : LeadsThrough g body) :
    LeadsThrough g (.negation body) := by
  intro negated base loop next σ after hg hend hsize hnext
  cases negated with
  | true => exact ih _ _ _ _ _ _ hg hend hsize hnext
  | false =>
    obtain ⟨hbody, hstep⟩ := parts_negation hg
    simp only [size, Bool.false_eq_true, if_false] at hend
    simp only [completions, Bool.false_eq_true, if_false]
    rw [findSome?_flatMap]
    refine ih _ _ _ _ _ _ hbody (by omega) hsize fun τ hτ => ?_
    have hlead := Graph.leads_vertex (by omega) hstep fun ρ hρ =>
      hnext ρ (hτ.trans (.of_run hρ fun k hk => by cases hk))
    have hany : Test.anyChar.run τ.unmarked = (Test.anyChar.run τ).map State.unmarked :=
      τ.consume_any_unmarked
    rw [hany]
    cases hrun : Test.anyChar.run τ with
    | none => simpa [Vertex.plain, Automaton.run, hrun] using hlead
    | some ρ => simpa [Vertex.plain, Automaton.run, hrun] using hlead

theorem group_leads {slot : Nat} {body : Regex} (ih : LeadsThrough g body) :
    LeadsThrough g (.group slot body) := by
  intro negated base loop next σ after hg hend hsize hnext
  obtain ⟨hopen, hbody, hclose⟩ := parts_group hg
  simp only [size] at hend
  simp only [loops] at hsize hnext
  have honward : Onward loop (loop + loops body) σ (σ.openSlot slot) :=
    .of_test (show (Test.openSlot slot).run σ = _ from rfl) fun k hk => by cases hk
  rw [completions, List.findSome?_map]
  refine Graph.leads_pass (by omega) hopen rfl ?_
  refine ih _ _ _ _ (σ.openSlot slot) _ hbody (by omega) (by rw [honward.size]; omega)
    fun τ hτ => ?_
  refine Graph.leads_pass (by omega) hclose rfl (hnext (τ.closeSlot slot) ?_)
  refine (honward.trans hτ).trans ?_
  exact .of_test (show (Test.closeSlot slot).run τ = _ from rfl) fun k hk => by cases hk

/-- From after `i` rounds on, a repetition leads where the rounds lead that are still due
and those that are still allowed. -/
theorem rounds_leads {body : Regex} (ih : LeadsThrough g body) {negated : Bool}
    {base loop lo hi stop : Nat} {isLazy : Bool} {σ : State} (after : State → Option State)
    (hle : lo ≤ hi)
    (hg : HoldsRounds g negated base loop lo hi isLazy stop body)
    (hend : base + hi * size negated body ≤ g.terminal)
    (hsize : loop + hi * loops body ≤ σ.marks.size)
    (hstop : ∀ τ, Onward loop (loop + hi * loops body) σ τ →
      g.Leads [stop] τ (after τ.unmarked))
    (i : Nat) (τ : State) (hτ : Onward loop (loop + hi * loops body) σ τ) :
    g.Leads (stage lo hi isLazy base (size negated body) stop i) τ
      (((Quantifier.exactly (completions negated body) (lo - i) τ.unmarked).flatMap
        (Quantifier.upTo (completions negated body) isLazy (hi - max lo i))).findSome? after) := by
  generalize hd : hi - i = d
  induction d generalizing i τ with
  | zero =>
    unfold stage
    rw [if_neg (by omega), if_neg (by omega), show lo - i = 0 by omega,
      show hi - max lo i = 0 by omega]
    simpa [Quantifier.exactly, Quantifier.upTo] using hstop τ hτ
  | succ d ihd =>
    have hloops := round_loops_le (m := loops body) (show i < hi by omega)
    have hwidth := round_loops_le (m := size negated body) (show i < hi by omega)
    have round : g.Leads [base + i * size negated body] τ
        ((completions negated body τ.unmarked).findSome? fun ρ =>
          ((Quantifier.exactly (completions negated body) (lo - (i + 1)) ρ).flatMap
            (Quantifier.upTo (completions negated body) isLazy
              (hi - max lo (i + 1)))).findSome? after) := by
      refine ih _ _ _ _ _ _ (hg i (show i < hi by omega)) (by omega)
        (by rw [hτ.size]; omega) fun ρ hρ => ?_
      exact ihd (i + 1) ρ (hτ.trans (hρ.mono (by omega) (by omega))) (by omega)
    unfold stage
    by_cases hdue : i < lo
    · rw [if_pos hdue, show lo - i = lo - (i + 1) + 1 by omega,
        show hi - max lo i = hi - max lo (i + 1) by omega, Quantifier.exactly,
        List.flatMap_assoc, findSome?_flatMap]
      exact round
    · rw [show lo - (i + 1) = 0 by omega] at round
      rw [if_neg hdue, if_pos (by omega), show lo - i = 0 by omega,
        show hi - max lo i = hi - max lo (i + 1) + 1 by omega, Quantifier.exactly,
        List.flatMap_singleton, Quantifier.upTo]
      refine Graph.leads_choice ?_ (by simpa using hstop τ hτ)
      rw [findSome?_flatMap]
      simpa [Quantifier.exactly] using round

/-- After a round, a loop goes on exactly if the round has progressed. -/
theorem leads_after_round {body : Regex} {negated : Bool} {again stop mark : Nat} {isLazy : Bool}
    (hg : HoldsLoop g negated again mark isLazy stop body)
    (hend : again + 4 + size negated body ≤ g.terminal) {ρ : State} {r s : Option State}
    (hagain : ρ.progressed mark = true → g.Leads [again] ρ r)
    (hstop : ρ.progressed mark = false → g.Leads [stop] ρ s) :
    g.Leads [again + 2 + size negated body, again + 3 + size negated body] ρ
      (if ρ.progressed mark = true then r else s) := by
  cases hrun : ρ.progressed mark with
  | true =>
    have hfirst : g.Leads [again + 2 + size negated body] ρ r :=
      Graph.leads_pass (by omega) hg.progressed (by rw [run_progressed, hrun, if_pos rfl])
        (hagain hrun)
    have hsecond : g.Leads [again + 3 + size negated body] ρ none :=
      Graph.leads_fail (by omega) hg.stalled (by rw [run_stalled, hrun, if_pos rfl])
    have hboth := Graph.leads_cons hfirst hsecond
    rwa [Option.or_none] at hboth
  | false =>
    have hfirst : g.Leads [again + 2 + size negated body] ρ none :=
      Graph.leads_fail (by omega) hg.progressed
        (by rw [run_progressed, hrun, if_neg Bool.false_ne_true])
    have hsecond : g.Leads [again + 3 + size negated body] ρ s :=
      Graph.leads_pass (by omega) hg.stalled
        (by rw [run_stalled, hrun, if_neg Bool.false_ne_true]) (hstop hrun)
    have hboth := Graph.leads_cons hfirst hsecond
    rwa [Option.none_or] at hboth

/-- A loop leads where any number of its rounds leads.  By induction on what is left of the
subject: a round that has progressed leaves less. -/
theorem loop_leads {body : Regex} (ih : LeadsThrough g body) {negated : Bool}
    {again stop mark lo hi : Nat} {isLazy : Bool} {σ : State} {after : State → Option State}
    (hg : HoldsLoop g negated again mark isLazy stop body)
    (hend : again + 4 + size negated body ≤ g.terminal)
    (hlo : lo ≤ mark) (hhi : mark + 1 + loops body ≤ hi) (hsize : hi ≤ σ.marks.size)
    (hstop : ∀ τ, Onward lo hi σ τ → g.Leads [stop] τ (after τ.unmarked))
    (τ : State) (hτ : Onward lo hi σ τ) :
    g.Leads [again] τ ((Quantifier.anyNumber State.left (completions negated body) isLazy
      τ.unmarked).findSome? after) := by
  induction hd : τ.left using Nat.strongRecOn generalizing τ with
  | ind d more =>
    rw [Quantifier.anyNumber]
    refine Graph.leads_join (by omega) hg.split
      (Graph.leads_choice ?_ (by simpa using hstop τ hτ))
    rw [findSome?_flatMap]
    have hmark : Onward lo hi τ (τ.mark mark) := by
      refine .of_test (show (Test.enterLoop mark).run τ = some (τ.mark mark) from rfl) ?_
      intro k hk
      cases hk
      omega
    refine Graph.leads_pass (by omega) hg.enter rfl ?_
    refine ih _ _ _ _ (τ.mark mark) _ hg.round (by omega)
      (by rw [hmark.size, hτ.size]; omega) fun ρ hρ => ?_
    have hσρ : Onward lo hi σ ρ := (hτ.trans hmark).trans (hρ.mono (by omega) (by omega))
    have hpast : ρ.progressed mark = true ↔ ρ.left < τ.left := by
      rw [hρ.progressed_iff (by omega) (by rw [hτ.size]; omega), decide_eq_true_eq]
      exact hρ.left_lt_iff.symm
    have hround := leads_after_round hg hend
      (fun hrun => more ρ.left (by have := hpast.1 hrun; omega) ρ hσρ rfl) fun _ => hstop ρ hσρ
    simp only [hpast] at hround
    show g.Leads _ ρ ((if ρ.left < τ.left then _ else _ : List State).findSome? after)
    by_cases hless : ρ.left < τ.left
    · rwa [if_pos hless] at hround ⊢
    · rw [if_neg hless] at hround ⊢
      rwa [List.findSome?_singleton]

theorem repeated_leads {body : Regex} (ih : LeadsThrough g body) (count : Quantifier) :
    LeadsThrough g (.repeated body count) := by
  obtain ⟨lo, most, isLazy⟩ := count
  intro negated base loop next σ after hg hend hsize hnext
  cases most with
  | some hi =>
    obtain ⟨hstart, hjoin, hrounds⟩ := parts_rounds hg
    simp only [size] at hend
    simp only [loops] at hsize hnext
    refine Graph.leads_join (by omega) hstart ?_
    have hlead := rounds_leads ih after (Nat.le_max_left lo hi) hrounds (by omega) hsize
      (fun τ hτ => Graph.leads_join (by omega) hjoin (hnext τ hτ)) 0 σ (.refl ..)
    rwa [Nat.sub_zero, show max lo hi - max lo 0 = hi - lo by omega] at hlead
  | none =>
    obtain ⟨hstart, hjoin, hrounds, hloop⟩ := parts_loop hg
    simp only [size] at hend
    simp only [loops] at hsize hnext
    have hmul : (lo + 1) * size negated body = lo * size negated body + size negated body :=
      Nat.succ_mul ..
    have hagain := loop_leads ih hloop (by omega) (by omega) (by omega) hsize fun τ hτ =>
      Graph.leads_join (by omega) hjoin (hnext τ hτ)
    refine Graph.leads_join (by omega) hstart ?_
    have hlead := rounds_leads ih (fun ρ => (Quantifier.anyNumber State.left
        (completions negated body) isLazy ρ).findSome? after)
      (Nat.le_refl lo) hrounds (by omega) (by omega)
      (fun τ hτ => hagain τ (hτ.mono (Nat.le_refl _) (by omega))) 0 σ (.refl ..)
    rw [Nat.sub_zero, Nat.max_zero, Nat.sub_self, findSome?_flatMap] at hlead
    simp only [Quantifier.upTo, List.findSome?_singleton] at hlead
    rwa [← findSome?_flatMap] at hlead

/-- Every block leads where the first of its completions leads of which anything comes. -/
theorem block_leads (t : Regex) : LeadsThrough g t := by
  induction t with
  | atom a =>
    intro negated base loop next σ after hg hend _ hnext
    have hlead := Graph.leads_vertex (by simp only [size] at hend; omega) hg.head fun τ hτ =>
      hnext τ (.of_run hτ fun k hk => by cases hk)
    rw [completions, Automaton.run_atom_unmarked]
    cases hrun : (⟨.atom a, negated⟩ : Automaton).run σ with
    | none => simpa [hrun] using hlead
    | some τ => simpa [hrun] using hlead
  | seq items ih =>
    intro negated base loop next σ after hg hend hsize hnext
    cases negated
    · exact chain_leads ih (by simpa [block] using hg) (by simpa [size] using hend)
        (by simpa [loops] using hsize) (by simpa [loops] using hnext)
    · exact around_leads ih (by simpa [block] using hg) (by simpa [size] using hend)
        (by simpa [loops] using hsize) (by simpa [loops] using hnext)
  | alt branches ih =>
    intro negated base loop next σ after hg hend hsize hnext
    cases negated
    · exact around_leads ih (by simpa [block] using hg) (by simpa [size] using hend)
        (by simpa [loops] using hsize) (by simpa [loops] using hnext)
    · exact chain_leads ih (by simpa [block] using hg) (by simpa [size] using hend)
        (by simpa [loops] using hsize) (by simpa [loops] using hnext)
  | charClass members ih =>
    intro negated base loop next σ after hg hend hsize hnext
    cases negated
    · exact around_leads ih (by simpa [block] using hg) (by simpa [size] using hend)
        (by simpa [loops] using hsize) (by simpa [loops] using hnext)
    · exact chain_leads ih (by simpa [block] using hg) (by simpa [size] using hend)
        (by simpa [loops] using hsize) (by simpa [loops] using hnext)
  | negation body ih => exact negation_leads ih
  | group slot body ih => exact group_leads ih
  | repeated body count ih => exact repeated_leads ih count

/-- The graph of a tree leads to the first completion of the tree. -/
theorem graph_leads (t : Regex) (captures : Nat) {σ : State} (hσ : loops t ≤ σ.marks.size) :
    (t.graph captures).Leads [(t.graph captures).start] σ
      (completions false t σ.unmarked).head? := by
  have hg := Graph.holds_toArray (g := t.graph captures) rfl
  have hblock := hg.left.right
  have hterminal := hg.right.head
  simp only [List.length_append, length_block, List.length_singleton, Nat.zero_add]
    at hblock hterminal
  have hend : 1 + size false t ≤ (t.graph captures).terminal := Nat.le_refl _
  have hstart : (t.graph captures).start = 0 := rfl
  refine Graph.leads_join (by omega) hg.left.left.head ?_
  have hlead := block_leads t _ _ _ _ σ some hblock hend (by omega) fun τ _ =>
    Graph.leads_terminal hterminal
  cases hc : completions false t σ.unmarked <;> simpa [hc] using hlead

end Regex

/-- **Searching.**  A search tells the first completion of the tree at the first boundary
at which there is one. -/
theorem Program.run_of_compile {t : Regex} {captures : Nat} {p : Program}
    (h : compile t captures = .ok p) (subject : String) (start : Nat) :
    (p.run subject start).map State.unmarked =
      (Text.boundariesFrom subject start).findSome? fun b =>
        (t.completions false (.fresh subject b captures 0)).head? := by
  have hp := graph_of_compile h
  refine run_unmarked (fun b => ?_) start
  rw [hp, ← State.unmarked_fresh subject b captures (t.graph captures).loops]
  refine t.graph_leads captures ?_
  simp [State.fresh, Regex.graph]

end Backtrack
