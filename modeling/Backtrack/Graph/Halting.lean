import Backtrack.Graph.Block
import Backtrack.Graph.Walk

/-!
# The graph of a tree halts

Main statement: `Regex.graph_halts`, no chain of tasks in the graph of a tree goes on
forever.  The only edges that lead back are those of loops without an upper bound, and
such a loop begins another round only if the round before it consumed something.

The proof follows the tree.  A block ends if everything after it ends (`block_acc`), for
any state in which it is entered: what comes after it is reached further on in the
subject, or at the same place, and with the marks of all loops outside the block as they
were (`Onward`).  For a loop this is an induction on the bytes that are left.
-/

namespace Backtrack

/-! ## States further on -/

/-- State `τ` is `σ` or further on in the same subject, it has as many loops, and only
loops from `lo` up to `hi` have been marked in between. -/
structure Onward (lo hi : Nat) (σ τ : State) : Prop where
  subject : τ.subject = σ.subject
  offset : τ.offset = σ.offset ∨ σ.offset < τ.offset ∧ τ.offset ≤ σ.subject.utf8ByteSize
  size : τ.marks.size = σ.marks.size
  marks : ∀ k, k < lo ∨ hi ≤ k → τ.marks[k]? = σ.marks[k]?

namespace Onward

theorem refl (lo hi : Nat) (σ : State) : Onward lo hi σ σ := ⟨rfl, .inl rfl, rfl, fun _ _ => rfl⟩

theorem trans {lo hi : Nat} {ρ σ τ : State} (h : Onward lo hi ρ σ) (h' : Onward lo hi σ τ) :
    Onward lo hi ρ τ where
  subject := h'.subject.trans h.subject
  offset := by
    have := h.offset
    have := h'.offset
    rw [h.subject] at this
    omega
  size := h'.size.trans h.size
  marks k hk := (h'.marks k hk).trans (h.marks k hk)

/-- What leaves more loops alone leaves fewer alone. -/
theorem mono {lo hi lo' hi' : Nat} {σ τ : State} (h : Onward lo hi σ τ) (hlo : lo' ≤ lo)
    (hhi : hi ≤ hi') : Onward lo' hi' σ τ :=
  ⟨h.subject, h.offset, h.size, fun k hk => h.marks k (by omega)⟩

/-- Consuming a character leads onward and marks no loop. -/
theorem of_consume {lo hi : Nat} {σ τ : State} {accepts : Char → Bool}
    (h : σ.consume accepts = some τ) : Onward lo hi σ τ := by
  simp only [State.consume] at h
  split at h
  case h_1 c hc =>
    split at h
    · cases h
      have := Text.add_utf8Size_le hc
      have := Char.utf8Size_pos c
      exact ⟨rfl, .inr ⟨by simp [State.advance]; omega, by simpa [State.advance]⟩, rfl,
        fun _ _ => rfl⟩
    · cases h
  case h_2 => cases h

/-- A test leads onward and marks no loop but its own. -/
theorem of_test {lo hi : Nat} {test : Test} {σ τ : State} (h : test.run σ = some τ)
    (hm : ∀ k, test = .enterLoop k → lo ≤ k ∧ k < hi) : Onward lo hi σ τ := by
  cases test with
  | atom a =>
    simp only [Test.run, Atom.run] at h
    split at h
    · exact of_consume h
    · split at h
      · cases h; exact refl ..
      · cases h
  | anyChar => exact of_consume h
  | openSlot i => cases h; exact ⟨rfl, .inl rfl, rfl, fun _ _ => rfl⟩
  | closeSlot i => cases h; exact ⟨rfl, .inl rfl, rfl, fun _ _ => rfl⟩
  | enterLoop k =>
    cases h
    refine ⟨rfl, .inl rfl, by simp [State.mark], fun j hj => ?_⟩
    have := hm k rfl
    simp only [State.mark]
    rw [Array.getElem?_setIfInBounds_ne (by omega)]
  | progressed k =>
    simp only [Test.run] at h
    split at h
    · cases h; exact refl ..
    · cases h
  | stalled k =>
    simp only [Test.run] at h
    split at h
    · cases h
    · cases h; exact refl ..
  | join => cases h; exact refl ..
  | never => cases h

/-- An automaton leads onward and marks no loop but that of its test. -/
theorem of_run {lo hi : Nat} {a : Automaton} {σ τ : State} (h : a.run σ = some τ)
    (hm : ∀ k, a.test = .enterLoop k → lo ≤ k ∧ k < hi) : Onward lo hi σ τ := by
  simp only [Automaton.run] at h
  split at h
  · split at h
    · cases h
    · cases h; exact refl ..
  · exact of_test h hm

end Onward

/-- A round that has progressed ends further on than it began: its mark is still there. -/
theorem Onward.offset_lt_of_progressed {lo hi k : Nat} {σ τ : State}
    (h : Onward lo hi (σ.mark k) τ) (hk : k < lo ∨ hi ≤ k) (hp : τ.progressed k = true) :
    σ.offset < τ.offset := by
  simp only [State.progressed, h.marks k hk, State.mark, Array.getElem?_setIfInBounds_self] at hp
  split at hp
  case h_1 mark hmark =>
    split at hmark
    · cases hmark
      simpa using hp
    · cases hmark
  case h_2 => cases hp

/-! ## Chains of tasks that end -/

namespace Graph

variable {g : Graph}

/-- No chain of tasks goes on forever from any of the vertices `ns` in state `σ`. -/
def EndsAt (g : Graph) (ns : List Nat) (σ : State) : Prop :=
  ∀ n ∈ ns, Acc g.Follows ⟨n, σ⟩

theorem endsAt_singleton {n : Nat} {σ : State} : g.EndsAt [n] σ ↔ Acc g.Follows ⟨n, σ⟩ := by
  simp [EndsAt]

/-- A vertex ends if what comes after it does. -/
theorem acc_of_vertex {n : Nat} {v : Vertex} {σ : State} (hv : g.vertices[n]? = some v)
    (h : ∀ τ, v.automaton.run σ = some τ → g.EndsAt v.next τ) : Acc g.Follows ⟨n, σ⟩ := by
  refine ⟨_, fun u hu => ?_⟩
  simp only [Follows, follow, hv] at hu
  split at hu
  case h_1 τ hτ =>
    obtain ⟨m, hm, rfl⟩ := List.mem_map.1 hu
    exact h τ hτ m hm
  case h_2 => cases hu

/-- A vertex that always passes ends if what comes after it does. -/
theorem acc_of_join {n : Nat} {next : List Nat} {σ : State}
    (hv : g.vertices[n]? = some (.plain .join next)) (h : g.EndsAt next σ) :
    Acc g.Follows ⟨n, σ⟩ :=
  acc_of_vertex hv fun τ hτ => by cases hτ; exact h

end Graph

/-! ## Blocks -/

namespace Regex

variable {g : Graph}

/-- A way on after round `i` is the next round, if there is one, or the end. -/
theorem mem_stage {lo hi base width stop i n : Nat} {isLazy : Bool} (hle : lo ≤ hi)
    (h : n ∈ stage lo hi isLazy base width stop i) :
    n = stop ∨ i < hi ∧ n = base + i * width := by
  simp only [stage, choice] at h
  grind

/-- Both ways to go on end if each of them does. -/
theorem endsAt_choice {isLazy : Bool} {more stop : Nat} {σ : State}
    (hmore : Acc g.Follows ⟨more, σ⟩) (hstop : Acc g.Follows ⟨stop, σ⟩) :
    g.EndsAt (choice isLazy more stop) σ := by
  cases isLazy <;> simp [choice, Graph.EndsAt, hmore, hstop]

/-- The loops of one of several rounds are among the loops of all of them. -/
theorem round_loops_le {i n m : Nat} (h : i < n) : i * m + m ≤ n * m := by
  rw [← Nat.succ_mul]
  exact Nat.mul_le_mul_right m h

/-- Everything from a block on ends if everything after the block does. -/
def EndsThrough (g : Graph) (t : Regex) : Prop :=
  ∀ negated base loop next σ, g.Holds base (block negated base loop next t) →
    (∀ τ, Onward loop (loop + loops t) σ τ → g.EndsAt next τ) → Acc g.Follows ⟨base, σ⟩

theorem chain_acc {ts : List Regex} (ih : ∀ t ∈ ts, EndsThrough g t)
    {negated : Bool} {base loop : Nat} {next : List Nat} {σ : State}
    (hg : g.Holds base (chain negated base loop next ts))
    (hnext : ∀ τ, Onward loop (loop + loopsOf ts) σ τ → g.EndsAt next τ) :
    Acc g.Follows ⟨base, σ⟩ := by
  induction ts generalizing base loop σ with
  | nil => exact Graph.acc_of_join hg.head (hnext σ (.refl ..))
  | cons t rest ihts =>
    cases rest with
    | nil => exact ih t (by simp) _ _ _ _ _ hg hnext
    | cons u rest =>
      rw [chain] at hg
      have hrest := hg.right
      rw [length_block] at hrest
      refine ih t (by simp) _ _ _ _ _ hg.left fun τ hτ => Graph.endsAt_singleton.2 ?_
      refine ihts (fun t ht => ih t (by simp [ht])) hrest fun ρ hρ => hnext ρ ?_
      rw [loopsOf]
      exact (hτ.mono (by omega) (by omega)).trans (hρ.mono (by omega) (by omega))

theorem branches_acc {ts : List Regex} (ih : ∀ t ∈ ts, EndsThrough g t)
    {negated : Bool} {base loop : Nat} {next : List Nat} {σ : State}
    (hg : g.Holds base (branches negated base loop next ts))
    (hnext : ∀ τ, Onward loop (loop + loopsOf ts) σ τ → g.EndsAt next τ) :
    g.EndsAt (entries negated base ts) σ := by
  induction ts generalizing base loop with
  | nil => simp [Graph.EndsAt, entries]
  | cons t rest ihts =>
    rw [branches] at hg
    have hrest := hg.right
    rw [length_block] at hrest
    simp only [loopsOf] at hnext
    intro n hn
    rcases List.mem_cons.1 hn with rfl | hn
    · exact ih t (by simp) _ _ _ _ _ hg.left fun τ hτ =>
        hnext τ (hτ.mono (Nat.le_refl _) (by omega))
    · exact ihts (fun t ht => ih t (by simp [ht])) hrest
        (fun τ hτ => hnext τ (hτ.mono (by omega) (by omega))) n hn

theorem around_acc {ts : List Regex} (ih : ∀ t ∈ ts, EndsThrough g t)
    {negated : Bool} {base loop : Nat} {next : List Nat} {σ : State}
    (hg : g.Holds base (around (entries negated (base + 1) ts) next
      (branches negated (base + 1) loop [base + sizeSplit negated ts - 1] ts)))
    (hnext : ∀ τ, Onward loop (loop + loopsOf ts) σ τ → g.EndsAt next τ) :
    Acc g.Follows ⟨base, σ⟩ := by
  obtain ⟨hsplit, hinner, hjoin⟩ := parts_around hg
  refine Graph.acc_of_join hsplit (branches_acc ih hinner fun τ hτ => ?_)
  exact Graph.endsAt_singleton.2 (Graph.acc_of_join hjoin (hnext τ hτ))

theorem negation_acc {body : Regex} (ih : EndsThrough g body) : EndsThrough g (.negation body) := by
  intro negated base loop next σ hg hnext
  cases negated with
  | true => exact ih _ _ _ _ _ (by simpa [block] using hg) hnext
  | false =>
    obtain ⟨hbody, hstep⟩ := parts_negation hg
    refine ih _ _ _ _ _ hbody fun τ hτ => Graph.endsAt_singleton.2 ?_
    refine Graph.acc_of_vertex hstep fun ρ hρ => hnext ρ (hτ.trans (.of_run hρ ?_))
    intro k hk
    cases hk

theorem group_acc {slot : Nat} {body : Regex} (ih : EndsThrough g body) :
    EndsThrough g (.group slot body) := by
  intro negated base loop next σ hg hnext
  obtain ⟨hopen, hbody, hclose⟩ := parts_group hg
  refine Graph.acc_of_vertex hopen fun τ hτ => Graph.endsAt_singleton.2 ?_
  have hτ : Onward loop (loop + loops body) σ τ := .of_run hτ fun k hk => by cases hk
  refine ih _ _ _ _ _ hbody fun ρ hρ => Graph.endsAt_singleton.2 ?_
  refine Graph.acc_of_vertex hclose fun ρ' hρ' => hnext ρ' ((hτ.trans hρ).trans ?_)
  exact .of_run hρ' fun k hk => by cases hk

/-- Rounds of a body end if everything after the last one does. -/
theorem rounds_acc {body : Regex} (ih : EndsThrough g body) {negated : Bool}
    {base loop lo hi stop : Nat} {isLazy : Bool} {σ : State} (hle : lo ≤ hi)
    (hg : HoldsRounds g negated base loop lo hi isLazy stop body)
    (hstop : ∀ τ, Onward loop (loop + hi * loops body) σ τ → Acc g.Follows ⟨stop, τ⟩)
    (i : Nat) (τ : State) (hτ : Onward loop (loop + hi * loops body) σ τ) :
    g.EndsAt (stage lo hi isLazy base (size negated body) stop i) τ := by
  generalize hd : hi - i = d
  induction d generalizing i τ with
  | zero =>
    intro n hn
    rcases mem_stage hle hn with rfl | ⟨hlt, -⟩
    · exact hstop τ hτ
    · omega
  | succ d ihd =>
    intro n hn
    rcases mem_stage hle hn with rfl | ⟨hlt, rfl⟩
    · exact hstop τ hτ
    · refine ih _ _ _ _ _ (hg i hlt) fun ρ hρ => ?_
      refine ihd (i + 1) ρ (hτ.trans (hρ.mono (by omega) ?_)) (by omega)
      have := round_loops_le (m := loops body) hlt
      omega

/-- A loop ends if everything after it does.  By induction on what is left of the subject: a
round that has progressed leaves less. -/
theorem loop_acc {body : Regex} (ih : EndsThrough g body) {negated : Bool}
    {again stop mark lo hi : Nat} {isLazy : Bool} {σ : State}
    (hg : HoldsLoop g negated again mark isLazy stop body) (hlo : lo ≤ mark)
    (hhi : mark + 1 + loops body ≤ hi)
    (hstop : ∀ τ, Onward lo hi σ τ → Acc g.Follows ⟨stop, τ⟩) (τ : State)
    (hτ : Onward lo hi σ τ) : Acc g.Follows ⟨again, τ⟩ := by
  induction hd : σ.subject.utf8ByteSize - τ.offset using Nat.strongRecOn generalizing τ with
  | ind d more =>
    refine Graph.acc_of_join hg.split (endsAt_choice ?_ (hstop τ hτ))
    refine Graph.acc_of_vertex hg.enter fun τ' hτ' => Graph.endsAt_singleton.2 ?_
    have henter : Onward lo hi τ τ' := .of_run hτ' fun k hk => by
      cases hk
      omega
    cases hτ'
    refine ih _ _ _ _ _ hg.round fun ρ hρ n hn => ?_
    have hσρ := (hτ.trans henter).trans (hρ.mono (by omega) (by omega))
    rcases List.mem_cons.1 hn with rfl | hn
    · refine Graph.acc_of_vertex hg.progressed fun ρ' hρ' => Graph.endsAt_singleton.2 ?_
      simp only [Vertex.plain, Automaton.run, Test.run, Bool.false_eq_true, if_false] at hρ'
      split at hρ'
      case isFalse => cases hρ'
      case isTrue hp =>
        cases hρ'
        have hlt := hρ.offset_lt_of_progressed (by omega) hp
        have hle := hρ.offset
        simp only [State.mark, hτ.subject] at hle
        exact more _ (by omega) ρ hσρ rfl
    · obtain rfl := List.mem_singleton.1 hn
      refine Graph.acc_of_vertex hg.stalled fun ρ' hρ' => Graph.endsAt_singleton.2 ?_
      refine hstop ρ' (hσρ.trans (.of_run hρ' fun k hk => ?_))
      cases hk

theorem repeated_acc {body : Regex} (ih : EndsThrough g body) (count : Quantifier) :
    EndsThrough g (.repeated body count) := by
  obtain ⟨lo, hi, isLazy⟩ := count
  intro negated base loop next σ hg hnext
  cases hi with
  | some hi =>
    obtain ⟨hstart, hend, hrounds⟩ := parts_rounds hg
    refine Graph.acc_of_join hstart ?_
    refine rounds_acc ih (Nat.le_max_left lo hi) hrounds (fun τ hτ => ?_) 0 σ (.refl ..)
    exact Graph.acc_of_join hend (hnext τ hτ)
  | none =>
    obtain ⟨hstart, hend, hrounds, hloop⟩ := parts_loop hg
    simp only [loops] at hnext
    have hagain := loop_acc ih hloop (Nat.le_add_right ..) (by omega) fun τ hτ =>
      Graph.acc_of_join hend (hnext τ hτ)
    refine Graph.acc_of_join hstart ?_
    exact rounds_acc ih (Nat.le_refl lo) hrounds
      (fun τ hτ => hagain τ (hτ.mono (Nat.le_refl _) (by omega))) 0 σ (.refl ..)

/-- Everything from a block on ends if everything after the block does. -/
theorem block_acc (t : Regex) : EndsThrough g t := by
  induction t with
  | atom a =>
    intro negated base loop next σ hg hnext
    exact Graph.acc_of_vertex hg.head fun τ hτ =>
      hnext τ (.of_run hτ fun k hk => by cases hk)
  | seq items ih =>
    intro negated base loop next σ hg hnext
    cases negated
    · exact chain_acc ih (by simpa [block] using hg) (by simpa [loops] using hnext)
    · exact around_acc ih (by simpa [block] using hg) (by simpa [loops] using hnext)
  | alt alternatives ih =>
    intro negated base loop next σ hg hnext
    cases negated
    · exact around_acc ih (by simpa [block] using hg) (by simpa [loops] using hnext)
    · exact chain_acc ih (by simpa [block] using hg) (by simpa [loops] using hnext)
  | charClass members ih =>
    intro negated base loop next σ hg hnext
    cases negated
    · exact around_acc ih (by simpa [block] using hg) (by simpa [loops] using hnext)
    · exact chain_acc ih (by simpa [block] using hg) (by simpa [loops] using hnext)
  | negation body ih => exact negation_acc ih
  | group slot body ih => exact group_acc ih
  | repeated body count ih => exact repeated_acc ih count

/-- The graph of a tree halts, whatever number of groups is remembered. -/
theorem graph_halts (t : Regex) (captures : Nat) : (t.graph captures).Halts := by
  intro σ
  have hg := Graph.holds_toArray (g := t.graph captures) rfl
  have hblock := hg.left.right
  have hterminal := hg.right.head
  simp only [List.length_append, length_block, List.length_singleton, Nat.zero_add]
    at hblock hterminal
  refine Graph.acc_of_join hg.left.left.head (Graph.endsAt_singleton.2 ?_)
  refine block_acc t _ _ _ _ _ hblock fun τ _ => Graph.endsAt_singleton.2 ?_
  exact Graph.acc_of_join hterminal (by simp [Graph.EndsAt])

end Regex

end Backtrack
