import Backtrack.Proofs.Attempts
import Backtrack.Proofs.Bounds
import Backtrack.Proofs.Placement

/-!
# A search as a loop over a bare stack

A walk keeps the state with which its attempt began, and when its stack is empty the next attempt
begins; the failure vertex is never visited.  A search can do without that state.  It then
has nothing but a stack: when the last task of an attempt has been dealt with and a later place is
left to begin at, the failure vertex is put on the stack with the state of that task, and the next
attempt begins when this task is taken off again.  `Graph.turn` deals with one task, and
`Graph.LoopTells` takes turns until the search is over.

Main statement: `Program.loopTells_iff`, the loop ends, and it tells the same retries and the same
final state as the search.  It needs that no edge leads to the failure vertex
(`Regex.graph_setsApart`), and that the state of any task tells where the next attempt begins
(`State.nextAttempt_congr`).
-/

namespace Backtrack

/-- What a turn of the loop leads to: there is a stack to go on with, also at the failure of an
attempt, which began at `start` and after which one at `next` begins; or the search is over. -/
inductive Turn where
  | proceed (stack : List Task)
  | retry (start next : Nat) (stack : List Task)
  | found (σ : State)
  | exhausted
deriving DecidableEq

namespace Graph

variable {g : Graph} {text : String} {captures loops : Nat} {σ τ : State} {t : Task}
  {stack ts : List Task} {w : Walk}

/-- The stack after a task with state `σ` has been dealt with and `stack` is left. -/
def refill (g : Graph) (σ : State) (stack : List Task) : List Task :=
  if stack.isEmpty && !σ.isLastAttempt then [⟨g.failure, σ⟩] else stack

/-- Takes the topmost task off the stack and deals with it. -/
def turn (g : Graph) (stack : List Task) : Turn :=
  match stack with
  | [] => .exhausted
  | t :: stack =>
    match g.run t.vertex t.state with
    | some σ =>
      if t.vertex = g.terminal then .found σ
      else .proceed (g.refill t.state ((g.successors t.vertex).map (⟨·, σ⟩) ++ stack))
    | none =>
      if t.vertex = g.failure then
        match t.state.nextAttempt with
        | some σ => .retry t.state.start σ.start (⟨g.start, σ⟩ :: stack)
        | none => .proceed stack
      else .proceed (g.refill t.state stack)

/-- The loop that begins with `stack` ends, and tells `r`. -/
inductive LoopTells (g : Graph) : (stack : List Task) → (r : Report) → Prop
  | proceed {stack rest : List Task} {r : Report} :
      g.turn stack = .proceed rest → LoopTells g rest r → LoopTells g stack r
  | retry {stack rest : List Task} {start next : Nat} {r : Report} :
      g.turn stack = .retry start next rest → LoopTells g rest r →
      LoopTells g stack { r with retries := (start, next) :: r.retries }
  | found {stack : List Task} {σ : State} : g.turn stack = .found σ → LoopTells g stack ⟨[], some σ⟩
  | exhausted {stack : List Task} : g.turn stack = .exhausted → LoopTells g stack ⟨[], none⟩

/-- The test of the failure vertex fails, no attempt begins there and no edge leads there. -/
structure SetsApart (g : Graph) : Prop where
  fails : ∀ σ, g.run g.failure σ = none
  start : g.start ≠ g.failure
  next : ∀ n, g.failure ∉ g.successors n

/-! ## What the steps of a walk keep -/

/-- All states of the walk are valid and of its attempt, and no task is at the failure vertex. -/
structure Tracked (g : Graph) (text : String) (captures loops : Nat) (w : Walk) : Prop where
  valid : w.Valid text captures loops
  owns : Owns w.attempt w
  apart : ∀ t ∈ w.stack, t.vertex ≠ g.failure

theorem SetsApart.tracked_attempt (hg : g.SetsApart) (hσ : σ.Valid text captures loops) :
    g.Tracked text captures loops (g.attempt σ) where
  valid := valid_attempt hσ
  owns := owns_attempt σ
  apart t ht := by
    rw [List.mem_singleton.1 ht]
    exact hg.start

theorem SetsApart.ne_of_mem_follow (hg : g.SetsApart) {u : Task} (hu : u ∈ g.follow t) :
    u.vertex ≠ g.failure := by
  intro heq
  unfold follow at hu
  split at hu
  · next v hv =>
    split at hu
    · obtain ⟨n, hn, rfl⟩ := List.mem_map.1 hu
      apply hg.next t.vertex
      rw [successors_of_vertex hv, ← heq]
      exact hn
    · cases hu
  · cases hu

theorem Tracked.tail (h : g.Tracked text captures loops ⟨σ, t :: ts⟩) :
    g.Tracked text captures loops ⟨σ, ts⟩ where
  valid := ⟨h.valid.attempt, fun u hu => h.valid.stack u (List.mem_cons_of_mem t hu)⟩
  owns := h.owns.tail
  apart u hu := h.apart u (List.mem_cons_of_mem t hu)

theorem Tracked.follow (hg : g.SetsApart) (h : g.Tracked text captures loops ⟨σ, t :: ts⟩) :
    g.Tracked text captures loops ⟨σ, g.follow t ++ ts⟩ where
  valid := by
    refine ⟨h.valid.attempt, fun u hu => ?_⟩
    rcases List.mem_append.1 hu with hu | hu
    · exact valid_of_mem_follow (h.valid.stack t List.mem_cons_self) hu
    · exact h.tail.valid.stack u hu
  owns := h.owns.follow
  apart u hu := by
    rcases List.mem_append.1 hu with hu | hu
    · exact hg.ne_of_mem_follow hu
    · exact h.tail.apart u hu

end Graph

/-- Any state of an attempt tells where the next one begins. -/
theorem State.nextAttempt_congr {text : String} {captures loops : Nat} {σ τ : State}
    (hσ : σ.Valid text captures loops) (hτ : τ.Valid text captures loops)
    (h : τ.start = σ.start) : τ.nextAttempt = σ.nextAttempt := by
  unfold nextAttempt isLastAttempt
  rw [h, hσ.subject, hτ.subject, hσ.captures, hτ.captures, hσ.loops, hτ.loops]

theorem State.nextAttempt_eq_none_iff {σ : State} :
    σ.nextAttempt = none ↔ σ.isLastAttempt = true := by
  unfold nextAttempt
  split
  · next h => exact iff_of_true rfl h
  · next h => exact iff_of_false (Option.some_ne_none _) h

namespace Graph

variable {g : Graph} {text : String} {captures loops : Nat} {σ τ : State} {t : Task}
  {stack ts : List Task} {w : Walk}

/-! ## One turn of the loop -/

theorem refill_cons (σ : State) (t : Task) (ts : List Task) : g.refill σ (t :: ts) = t :: ts := rfl

theorem refill_nil (h : σ.nextAttempt = some τ) : g.refill σ [] = [⟨g.failure, σ⟩] := by
  have hlast : σ.isLastAttempt = false := by
    rw [← Bool.not_eq_true, ← State.nextAttempt_eq_none_iff, h]
    exact Option.some_ne_none τ
  unfold refill
  rw [hlast]
  rfl

theorem refill_nil_of_last (h : σ.nextAttempt = none) : g.refill σ [] = [] := by
  unfold refill
  rw [State.nextAttempt_eq_none_iff.1 h]
  rfl

theorem turn_found (ht : t.vertex = g.terminal) (hrun : g.run t.vertex t.state = some τ) :
    g.turn (t :: ts) = .found τ := by
  simp only [turn, hrun, if_pos ht]

theorem turn_missed (ht : t.vertex ≠ g.failure) (hrun : g.run t.vertex t.state = none) :
    g.turn (t :: ts) = .proceed (g.refill t.state ts) := by
  simp only [turn, hrun, if_neg ht]

theorem follow_of_run (hrun : g.run t.vertex t.state = some τ) :
    g.follow t = (g.successors t.vertex).map (⟨·, τ⟩) := by
  unfold run at hrun
  unfold follow successors
  cases hv : g.vertices[t.vertex]? with
  | none =>
    rw [hv] at hrun
    cases hrun
  | some v =>
    simp only [hv] at hrun
    simp only [hrun]

theorem follow_of_run_eq_none (hrun : g.run t.vertex t.state = none) : g.follow t = [] := by
  unfold run at hrun
  unfold follow
  cases hv : g.vertices[t.vertex]? with
  | none => rfl
  | some v =>
    simp only [hv] at hrun
    simp only [hrun]

/-- Away from the terminal, a task is replaced as in a walk. -/
theorem turn_followed (ht : t.vertex ≠ g.terminal) (hfailure : t.vertex ≠ g.failure) :
    g.turn (t :: ts) = .proceed (g.refill t.state (g.follow t ++ ts)) := by
  cases hrun : g.run t.vertex t.state with
  | none => rw [turn_missed hfailure hrun, follow_of_run_eq_none hrun, List.nil_append]
  | some τ => simp only [turn, hrun, if_neg ht, follow_of_run hrun]

/-- Where an attempt has failed, the next one begins, if a later place is left. -/
theorem turn_failure (hg : g.SetsApart) (hσ : σ.nextAttempt = some τ) :
    g.turn [⟨g.failure, σ⟩] = .retry σ.start τ.start [⟨g.start, τ⟩] := by
  simp only [turn, hg.fails, hσ, if_true]

theorem LoopTells.unique {r s : Report} (hr : g.LoopTells stack r) (hs : g.LoopTells stack s) :
    r = s := by
  induction hr generalizing s with
  | proceed h _ ih =>
    cases hs with
    | proceed h' hs =>
      cases h.symm.trans h'
      exact ih hs
    | retry h' | found h' | exhausted h' => cases h.symm.trans h'
  | retry h _ ih =>
    cases hs with
    | retry h' hs =>
      cases h.symm.trans h'
      rw [ih hs]
    | proceed h' | found h' | exhausted h' => cases h.symm.trans h'
  | found h =>
    cases hs with
    | found h' =>
      cases h.symm.trans h'
      rfl
    | proceed h' | retry h' | exhausted h' => cases h.symm.trans h'
  | exhausted h =>
    cases hs with
    | exhausted => rfl
    | proceed h' | retry h' | found h' => cases h.symm.trans h'

/-! ## The loop and the walk -/

/-- **The loop tells what the walk tells**, wherever the two are.  By induction on the steps of the
walk that are left; `τ` is the state of the task that was dealt with last. -/
theorem loopTells_refill (hg : g.SetsApart) (hw : Acc g.Steps w)
    (htracked : g.Tracked text captures loops w) (hτ : τ.Valid text captures loops)
    (hstart : τ.start = w.attempt.start) : g.LoopTells (g.refill τ w.stack) (g.walk w hw) := by
  induction hw generalizing τ with
  | intro w hacc ih =>
    obtain ⟨σ, stack⟩ := w
    have hnext := State.nextAttempt_congr htracked.valid.attempt hτ hstart
    cases stack with
    | nil =>
      -- the attempt has failed: the loop passes the failure vertex, the walk does not
      cases hretry : σ.nextAttempt with
      | none =>
        have hstep : g.step ⟨σ, []⟩ = .exhausted := by simp only [step, hretry]
        rw [walk_of_exhausted hstep, refill_nil_of_last (hnext.trans hretry)]
        exact .exhausted rfl
      | some ρ =>
        have hstep : g.step ⟨σ, []⟩ = .retry (g.attempt ρ) := by simp only [step, hretry]
        have hρ := htracked.valid.attempt.nextAttempt hretry
        have hlater := ih (g.attempt ρ) (steps_of_retry hstep) (hg.tracked_attempt hρ) hρ rfl
        have hturn := turn_failure hg (hnext.trans hretry)
        rw [hstart] at hturn
        rw [walk_of_retry hstep, refill_nil (hnext.trans hretry)]
        exact .retry hturn hlater
    | cons t ts =>
      have ht := htracked.apart t List.mem_cons_self
      have hvalid := htracked.valid.stack t List.mem_cons_self
      have howns := htracked.owns.start t List.mem_cons_self
      rw [refill_cons]
      by_cases hterminal : t.vertex = g.terminal
      · cases hrun : g.run t.vertex t.state with
        | none =>
          have hstep : g.step ⟨σ, t :: ts⟩ = .proceed ⟨σ, ts⟩ := step_missed hterminal hrun
          rw [walk_of_proceed hstep]
          exact .proceed (turn_missed ht hrun)
            (ih _ (steps_of_proceed hstep) htracked.tail hvalid howns)
        | some ρ =>
          have hstep : g.step ⟨σ, t :: ts⟩ = .found ρ := by
            simp only [step, if_pos hterminal, hrun]
          rw [walk_of_found hstep]
          exact .found (turn_found hterminal hrun)
      · have hstep : g.step ⟨σ, t :: ts⟩ = .proceed ⟨σ, g.follow t ++ ts⟩ :=
          step_followed hterminal
        rw [walk_of_proceed hstep]
        exact .proceed (turn_followed hterminal ht)
          (ih _ (steps_of_proceed hstep) (htracked.follow hg) hvalid howns)

end Graph

/-! ## Graphs of trees -/

namespace Regex

variable (t : Regex) (captures : Nat)

/-- No edge of the graph of a tree leads to a vertex behind the terminal. -/
theorem leads_graph : Leads (2 + size false t) [] (t.graph captures).vertices.toList := by
  have hexit : ∀ m ∈ [1 + size false t], m < 2 + size false t ∨ m ∈ ([] : List Nat) := by
    intro m hm
    rw [List.mem_singleton.1 hm]
    exact .inl (by omega)
  have hblock := (leads_block t false 1 0 [1 + size false t]).mono (by omega) hexit
  refine .append (.append (.cons (fun m hm => .inl ?_) leads_nil) hblock)
    (.cons (fun m hm => by cases hm) (.cons (fun m hm => by cases hm) leads_nil))
  rw [List.mem_singleton.1 hm]
  omega

theorem graph_setsApart : (t.graph captures).SetsApart where
  fails σ := by
    have hlast := (Graph.holds_toArray (g := t.graph captures) rfl).right.tail.head
    simp only [List.length_append, List.length_singleton, length_block, Nat.zero_add] at hlast
    have hfailure : (t.graph captures).failure = 1 + size false t + 1 := by
      show 2 + size false t = _
      omega
    rw [hfailure, Graph.run, hlast]
    rfl
  start := by
    show 0 ≠ 2 + size false t
    omega
  next n hn := by
    unfold Graph.successors at hn
    split at hn
    · next v hv =>
      have hmem : v ∈ (t.graph captures).vertices.toList := by
        rw [← Array.getElem?_toList] at hv
        exact List.mem_of_getElem? hv
      rcases leads_graph t captures v hmem _ hn with hlt | hnil
      · exact Nat.lt_irrefl _ hlt
      · cases hnil
    · cases hn

end Regex

namespace Program

/-- The search for the first match from byte offset `start` on, made as a loop, ends and tells
`r`. -/
def LoopTells (p : Program) (subject : String) (start : Nat) (r : Report) : Prop :=
  match Text.boundaryFrom? subject start with
  | some b => p.graph.LoopTells [⟨p.graph.start, .fresh subject b p.graph.captures p.graph.loops⟩] r
  | none => r = ⟨[], none⟩

/-- **The loop is the search.**  It ends, whatever the tree, the subject and the offset; it begins
the same attempts at the same places, and it ends with the same state. -/
theorem loopTells_iff {t : Regex} {captures : Nat} {p : Program} (h : compile t captures = .ok p)
    (subject : String) (start : Nat) (r : Report) :
    p.LoopTells subject start r ↔ r = p.search subject start := by
  have hg : p.graph.SetsApart := by
    rw [graph_of_compile h]
    exact t.graph_setsApart captures
  unfold LoopTells search
  cases hb : Text.boundaryFrom? subject start with
  | none => exact Iff.rfl
  | some b =>
    have hbound := (Text.boundariesFrom_of_boundaryFrom? hb).1
    have hσ := State.valid_fresh hbound p.graph.captures p.graph.loops
    have htells := Graph.loopTells_refill hg (p.halts.acc _) (hg.tracked_attempt hσ) hσ rfl
    constructor
    · exact fun hr => hr.unique htells
    · rintro rfl
      exact htells

end Program

end Backtrack
