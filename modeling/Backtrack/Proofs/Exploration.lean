import Backtrack.Program
import Backtrack.Proofs.Boundaries

/-!
# What a stack of tasks comes to

A stack is worked off from the top, and each task adds its own tasks on top of what lies
below.  So what a stack comes to can be said of its parts: the tasks on top come to a match,
or else the tasks below decide (`ComesTo.append`).  `Graph.Leads` says this of the ways on
from a state; the marks of loops, which only the walk itself needs, are left out
(`State.unmarked`).

A search makes one attempt at each boundary, until one of them comes to a match
(`Program.run_unmarked`).
-/

namespace Backtrack

namespace State

/-- The state without the marks of loops. -/
def unmarked (σ : State) : State := { σ with marks := #[] }

theorem unmarked_fresh (subject : String) (offset captures loops : Nat) :
    (fresh subject offset captures loops).unmarked = fresh subject offset captures 0 := rfl

end State

namespace Graph

variable {g : Graph} {σ τ : State} {r s : Option State} {n : Nat} {ns : List Nat}

/-- Stack `ts` comes to a match in state `σ`, or to none. -/
inductive ComesTo (g : Graph) : List Task → Option State → Prop
  | nil : ComesTo g [] none
  | found {t : Task} {ts : List Task} {σ : State} :
      t.vertex = g.terminal → g.run t.vertex t.state = some σ → ComesTo g (t :: ts) (some σ)
  | missed {t : Task} {ts : List Task} {r : Option State} :
      t.vertex = g.terminal → g.run t.vertex t.state = none → ComesTo g ts r →
      ComesTo g (t :: ts) r
  | followed {t : Task} {ts : List Task} {r : Option State} :
      t.vertex ≠ g.terminal → ComesTo g (g.follow t ++ ts) r → ComesTo g (t :: ts) r

/-- The tasks below count only if those above come to nothing. -/
theorem ComesTo.append {us vs : List Task} (hu : g.ComesTo us r) (hv : g.ComesTo vs s) :
    g.ComesTo (us ++ vs) (r.or s) := by
  induction hu with
  | nil => exact hv
  | found ht hσ => exact .found ht hσ
  | missed ht hσ _ ih => exact .missed ht hσ ih
  | followed ht _ ih =>
    rw [List.append_assoc] at ih
    exact .followed ht ih

/-! ## Attempts -/

theorem step_missed {t : Task} {ts : List Task} (ht : t.vertex = g.terminal)
    (hrun : g.run t.vertex t.state = none) : g.step ⟨σ, t :: ts⟩ = .proceed ⟨σ, ts⟩ := by
  simp only [step, if_pos ht, hrun]

theorem step_followed {t : Task} {ts : List Task} (ht : t.vertex ≠ g.terminal) :
    g.step ⟨σ, t :: ts⟩ = .proceed ⟨σ, g.follow t ++ ts⟩ := by
  simp only [step, if_neg ht]

/-- An attempt that comes to a match ends the walk. -/
theorem walk_of_comesTo_some {stack : List Task} (h : g.ComesTo stack (some τ)) (σ : State)
    (hw : Acc g.Steps ⟨σ, stack⟩) : g.walk ⟨σ, stack⟩ hw = ⟨[], some τ⟩ := by
  generalize hr : some τ = r at h
  induction h with
  | nil => cases hr
  | found ht hσ =>
    cases hr
    exact walk_of_found (by simp only [step, if_pos ht, hσ]) hw
  | missed ht hσ _ ih =>
    rw [walk_of_proceed (step_missed ht hσ) hw]
    exact ih _ hr
  | followed ht _ ih =>
    rw [walk_of_proceed (step_followed ht) hw]
    exact ih _ hr

/-- An attempt that comes to none leaves the empty stack. -/
theorem walk_of_comesTo_none {stack : List Task} (h : g.ComesTo stack none) (σ : State)
    (hw : Acc g.Steps ⟨σ, stack⟩) :
    ∃ hw' : Acc g.Steps ⟨σ, []⟩, g.walk ⟨σ, stack⟩ hw = g.walk ⟨σ, []⟩ hw' := by
  generalize hr : none = r at h
  induction h with
  | nil => exact ⟨hw, rfl⟩
  | found ht hσ => cases hr
  | missed ht hσ _ ih =>
    rw [walk_of_proceed (step_missed ht hσ) hw]
    exact ih _ hr
  | followed ht _ ih =>
    rw [walk_of_proceed (step_followed ht) hw]
    exact ih _ hr

/-! ## Ways on -/

/-- Going on at the vertices `ns` in state `σ`, in this order, comes to a match in state
`r`, up to the marks of loops. -/
def Leads (g : Graph) (ns : List Nat) (σ : State) (r : Option State) : Prop :=
  ∃ final, g.ComesTo (ns.map fun n => ⟨n, σ⟩) final ∧ final.map State.unmarked = r

theorem leads_nil : g.Leads [] σ none := ⟨none, .nil, rfl⟩

/-- The later ways on count only if the first one comes to nothing. -/
theorem leads_cons (hn : g.Leads [n] σ r) (hns : g.Leads ns σ s) :
    g.Leads (n :: ns) σ (r.or s) := by
  obtain ⟨f, hf, rfl⟩ := hn
  obtain ⟨f', hf', rfl⟩ := hns
  refine ⟨f.or f', hf.append hf', ?_⟩
  cases f <;> rfl

theorem leads_terminal {next : List Nat}
    (hv : g.vertices[g.terminal]? = some (.plain .join next)) :
    g.Leads [g.terminal] σ (some σ.unmarked) :=
  ⟨some σ, .found rfl (by simp only [run, hv]; rfl), rfl⟩

/-- A vertex whose test passes leads where its ways on lead. -/
theorem leads_pass {v : Vertex} (hn : n < g.terminal) (hv : g.vertices[n]? = some v)
    (hrun : v.automaton.run σ = some τ) (h : g.Leads v.next τ r) : g.Leads [n] σ r := by
  obtain ⟨f, hf, hr⟩ := h
  refine ⟨f, .followed (show n ≠ g.terminal by omega) ?_, hr⟩
  simpa only [follow, hv, hrun, List.map_nil, List.append_nil] using hf

theorem leads_fail {v : Vertex} (hn : n < g.terminal) (hv : g.vertices[n]? = some v)
    (hrun : v.automaton.run σ = none) : g.Leads [n] σ none := by
  refine ⟨none, .followed (show n ≠ g.terminal by omega) ?_, rfl⟩
  simp only [follow, hv, hrun]
  exact .nil

/-- A vertex leads where its ways on lead from the state after its test, if there is one. -/
theorem leads_vertex {v : Vertex} {after : State → Option State} (hn : n < g.terminal)
    (hv : g.vertices[n]? = some v)
    (h : ∀ τ, v.automaton.run σ = some τ → g.Leads v.next τ (after τ)) :
    g.Leads [n] σ ((v.automaton.run σ).bind after) := by
  cases hrun : v.automaton.run σ with
  | none => exact leads_fail hn hv hrun
  | some τ => exact leads_pass hn hv hrun (h τ hrun)

theorem leads_join {next : List Nat} (hn : n < g.terminal)
    (hv : g.vertices[n]? = some (.plain .join next)) (h : g.Leads next σ r) : g.Leads [n] σ r :=
  leads_pass hn hv rfl h

end Graph

/-! ## Searches -/

/-- The attempt after the one at a boundary where `c` begins is the one where `c` ends. -/
theorem State.nextAttempt_fresh {subject : String} {b captures loops : Nat} {c : Char}
    (h : Text.charAt? subject b = some c) :
    (fresh subject b captures loops).nextAttempt =
      some (fresh subject (b + c.utf8Size) captures loops) := by
  have := Text.add_utf8Size_le h
  have := Char.utf8Size_pos c
  have hlast : (fresh subject b captures loops).isLastAttempt = false :=
    decide_eq_false (show ¬ subject.utf8ByteSize ≤ b by omega)
  simp only [nextAttempt, hlast, Bool.false_eq_true, if_false]
  simp [fresh, h]

theorem State.nextAttempt_fresh_end {subject : String} {b captures loops : Nat}
    (h : subject.utf8ByteSize ≤ b) : (fresh subject b captures loops).nextAttempt = none := by
  have hlast : (fresh subject b captures loops).isLastAttempt = true := decide_eq_true h
  simp only [nextAttempt, hlast, if_true]

namespace Graph

variable {g : Graph}

/-- A walk makes an attempt at each boundary, until one of them comes to a match. -/
theorem walk_attempt_final {subject : String} {captures loops : Nat} {first : Nat → Option State}
    (hfirst : ∀ b, g.ComesTo [⟨g.start, .fresh subject b captures loops⟩] (first b)) (b : Nat)
    (hb : Text.isBoundary subject b = true)
    (hw : Acc g.Steps (g.attempt (.fresh subject b captures loops))) :
    (g.walk (g.attempt (.fresh subject b captures loops)) hw).final =
      (Text.boundariesFrom subject b).findSome? first := by
  generalize hn : subject.utf8ByteSize - b = n
  induction n using Nat.strongRecOn generalizing b with
  | ind n ih =>
    have hcomes := hfirst b
    rw [Text.boundariesFrom_of_isBoundary hb, List.findSome?_cons]
    cases hr : first b with
    | some τ =>
      rw [hr] at hcomes
      have hend : g.walk (g.attempt (.fresh subject b captures loops)) hw = ⟨[], some τ⟩ :=
        walk_of_comesTo_some hcomes _ hw
      rw [hend]
    | none =>
      rw [hr] at hcomes
      obtain ⟨hw', heq⟩ : ∃ hw', g.walk (g.attempt (.fresh subject b captures loops)) hw =
          g.walk ⟨.fresh subject b captures loops, []⟩ hw' := walk_of_comesTo_none hcomes _ hw
      rw [heq]
      show _ = (Text.boundariesFrom subject (b + 1)).findSome? first
      by_cases hlt : b < subject.utf8ByteSize
      · -- the next boundary is where the character that begins here ends
        obtain ⟨c, hc⟩ := Text.exists_charAt? hb hlt
        have hstep : g.step ⟨.fresh subject b captures loops, []⟩ =
            .retry (g.attempt (.fresh subject (b + c.utf8Size) captures loops)) := by
          simp only [step, State.nextAttempt_fresh hc]
        have hpos := Char.utf8Size_pos c
        have hnext := Text.boundariesFrom_of_charAt? hc
        rw [Text.boundariesFrom_of_isBoundary hb] at hnext
        rw [walk_of_retry hstep, (List.cons.inj hnext).2]
        exact ih _ (by omega) _ (Text.isBoundary_add_utf8Size hc) _ rfl
      · have hstep : g.step ⟨.fresh subject b captures loops, []⟩ = .exhausted := by
          simp only [step, State.nextAttempt_fresh_end (Nat.le_of_not_lt hlt)]
        rw [walk_of_exhausted hstep, Text.boundariesFrom_eq_nil (by omega)]
        rfl

end Graph

namespace Program

variable {p : Program} {subject : String} {first : Nat → Option State}

/-- A search tells what the first attempt comes to that comes to a match. -/
theorem run_of_comesTo
    (hfirst : ∀ b, p.graph.ComesTo
      [⟨p.graph.start, .fresh subject b p.graph.captures p.graph.loops⟩] (first b)) (start : Nat) :
    p.run subject start = (Text.boundariesFrom subject start).findSome? first := by
  unfold run search
  cases hb : Text.boundaryFrom? subject start with
  | none =>
    rw [Text.boundariesFrom_of_boundaryFrom?_eq_none hb]
    rfl
  | some b =>
    obtain ⟨hbound, heq⟩ := Text.boundariesFrom_of_boundaryFrom? hb
    rw [heq]
    exact Graph.walk_attempt_final hfirst b hbound _

/-- A search finds what the first attempt finds that finds anything. -/
theorem run_unmarked
    (hfirst : ∀ b, p.graph.Leads [p.graph.start]
      (.fresh subject b p.graph.captures p.graph.loops) (first b)) (start : Nat) :
    (p.run subject start).map State.unmarked =
      (Text.boundariesFrom subject start).findSome? first := by
  obtain ⟨final, hfinal⟩ := Classical.skolem.1 hfirst
  have hview : Option.map State.unmarked ∘ final = first := funext fun b => (hfinal b).2
  rw [run_of_comesTo fun b => (hfinal b).1, List.map_findSome?, hview]

end Program

end Backtrack
