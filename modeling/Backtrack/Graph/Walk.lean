import Backtrack.Graph.Basic

/-!
# Walking a graph

A walk looks for a match with a stack of tasks: a task is a vertex and the state to test
there.  A task whose test passes is replaced by one task for each way to go on, the first
of them on top; a task whose test fails is dropped, and the walk goes on with the task
below it.  When no task is left, the attempt has failed, and the next one begins with
fresh books one character later.

`Graph.step` is one such step.  A graph *halts* if no chain of tasks, each following the
one before, goes on forever; then no walk does (`Graph.Halts.acc`), and `Graph.walk` can
take all steps.
-/

namespace Backtrack

/-- A vertex and the state to test there. -/
structure Task where
  vertex : Nat
  state : State
deriving DecidableEq

/-- The state with which the current attempt began, and the tasks that are left, the next one
first. -/
structure Walk where
  attempt : State
  stack : List Task
deriving DecidableEq

/-- What a step leads to: the attempt goes on, it has failed and the next one begins, the terminal
has been reached, or the last attempt has failed. -/
inductive Step where
  | proceed (w : Walk)
  | retry (w : Walk)
  | found (σ : State)
  | exhausted
deriving DecidableEq

namespace Step

def next? : Step → Option Walk
  | proceed w | retry w => some w
  | found _ | exhausted => none

end Step

/-- What a whole search tells: where each failed attempt but the last one began and where the next
one began, and the state that has reached the terminal. -/
structure Report where
  retries : List (Nat × Nat)
  final : Option State
deriving DecidableEq

namespace Graph

/-- The tasks that replace a task. -/
def follow (g : Graph) (t : Task) : List Task :=
  match g.vertices[t.vertex]? with
  | some v =>
    match v.automaton.run t.state with
    | some σ => v.next.map fun n => ⟨n, σ⟩
    | none => []
  | none => []

/-- The beginning of the attempt that begins with `σ`. -/
def attempt (g : Graph) (σ : State) : Walk := ⟨σ, [⟨g.start, σ⟩]⟩

def step (g : Graph) (w : Walk) : Step :=
  match w.stack with
  | [] =>
    match w.attempt.nextAttempt with
    | some σ => .retry (g.attempt σ)
    | none => .exhausted
  | t :: stack =>
    if t.vertex = g.terminal then
      match g.run t.vertex t.state with
      | some σ => .found σ
      | none => .proceed { w with stack }
    else .proceed { w with stack := g.follow t ++ stack }

/-! ## Walks that end -/

def Follows (g : Graph) (u t : Task) : Prop := u ∈ g.follow t

def Steps (g : Graph) (v w : Walk) : Prop := (g.step w).next? = some v

/-- No chain of tasks from the first vertex on goes on forever. -/
def Halts (g : Graph) : Prop := ∀ σ, Acc g.Follows ⟨g.start, σ⟩

/-- A task on top of the stack ends if its chains do and the tasks below it end. -/
theorem acc_cons {g : Graph} {t : Task} (ht : Acc g.Follows t) :
    ∀ {σ : State} {stack : List Task}, Acc g.Steps ⟨σ, stack⟩ → Acc g.Steps ⟨σ, t :: stack⟩ := by
  induction ht with
  | intro t _ ih =>
    intro σ stack hstack
    refine ⟨_, fun v hv => ?_⟩
    -- the tasks that replace `t` end one after the other, the lowest of them on top of `stack`
    have above : ∀ us : List Task, (∀ u ∈ us, g.Follows u t) →
        Acc g.Steps ⟨σ, us ++ stack⟩ := by
      intro us
      induction us with
      | nil => exact fun _ => hstack
      | cons u us ihus =>
        intro hus
        exact ih u (hus u (List.mem_cons_self ..))
          (ihus fun u' hu' => hus u' (List.mem_cons_of_mem _ hu'))
    simp only [Steps, step] at hv
    split at hv
    · split at hv
      · simp [Step.next?] at hv
      · simp only [Step.next?, Option.some.injEq] at hv
        exact hv ▸ hstack
    · simp only [Step.next?, Option.some.injEq] at hv
      exact hv ▸ above _ fun _ hu => hu

/-- The next attempt begins further on in the same subject; there is none from the end on. -/
theorem start_nextAttempt {σ τ : State} (h : σ.nextAttempt = some τ) :
    τ.subject = σ.subject ∧ σ.start < τ.start ∧ σ.start < σ.subject.utf8ByteSize := by
  simp only [State.nextAttempt, State.isLastAttempt, decide_eq_true_eq] at h
  split at h
  · cases h
  · cases h
    refine ⟨rfl, ?_, by omega⟩
    simp only [State.fresh]
    cases hc : Text.charAt? σ.subject σ.start with
    | none => simp
    | some c => simpa using Char.utf8Size_pos c

/-- In a graph that halts, every attempt ends, and so do all that may come after it. -/
theorem Halts.acc {g : Graph} (h : g.Halts) (σ : State) : Acc g.Steps (g.attempt σ) := by
  generalize hn : σ.subject.utf8ByteSize - σ.start = n
  induction n using Nat.strongRecOn generalizing σ with
  | ind n ih =>
    refine acc_cons (h σ) ⟨_, fun v hv => ?_⟩
    simp only [Steps, step] at hv
    split at hv
    · next τ hτ =>
      simp only [Step.next?, Option.some.injEq] at hv
      obtain ⟨hs, hlt, hend⟩ := start_nextAttempt hτ
      exact hv ▸ ih (τ.subject.utf8ByteSize - τ.start) (by rw [hs]; omega) τ rfl
    · simp [Step.next?] at hv

/-! ## Taking all steps -/

variable {g : Graph} {v w : Walk}

theorem steps_of_proceed (hw : g.step w = .proceed v) : g.Steps v w := by
  rw [Steps, hw, Step.next?]

theorem steps_of_retry (hw : g.step w = .retry v) : g.Steps v w := by
  rw [Steps, hw, Step.next?]

instance (g : Graph) : WellFoundedRelation { w : Walk // Acc g.Steps w } := Acc.wfRel

/-- Takes steps until one ends the walk. -/
def walk (g : Graph) (w : Walk) (h : Acc g.Steps w) : Report :=
  match hw : g.step w with
  | .found σ => ⟨[], some σ⟩
  | .exhausted => ⟨[], none⟩
  | .proceed v => g.walk v (h.inv (steps_of_proceed hw))
  | .retry v =>
    let later := g.walk v (h.inv (steps_of_retry hw))
    { later with retries := (w.attempt.start, v.attempt.start) :: later.retries }
termination_by (⟨w, h⟩ : { w : Walk // Acc g.Steps w })
decreasing_by
  · exact steps_of_proceed hw
  · exact steps_of_retry hw

theorem walk_of_found {σ : State} (hw : g.step w = .found σ) (h : Acc g.Steps w) :
    g.walk w h = ⟨[], some σ⟩ := by
  rw [walk]
  split <;> rename_i hs <;> rw [hw] at hs <;> cases hs
  rfl

theorem walk_of_exhausted (hw : g.step w = .exhausted) (h : Acc g.Steps w) :
    g.walk w h = ⟨[], none⟩ := by
  rw [walk]
  split <;> rename_i hs <;> rw [hw] at hs <;> cases hs

theorem walk_of_proceed (hw : g.step w = .proceed v) (h : Acc g.Steps w) :
    g.walk w h = g.walk v (h.inv (steps_of_proceed hw)) := by
  rw [walk]
  split <;> rename_i hs <;> rw [hw] at hs <;> cases hs
  rfl

theorem walk_of_retry (hw : g.step w = .retry v) (h : Acc g.Steps w) :
    g.walk w h =
      let later := g.walk v (h.inv (steps_of_retry hw))
      { later with retries := (w.attempt.start, v.attempt.start) :: later.retries } := by
  rw [walk]
  split <;> rename_i hs <;> rw [hw] at hs <;> cases hs
  rfl

end Graph

end Backtrack
