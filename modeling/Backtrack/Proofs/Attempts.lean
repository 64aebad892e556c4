import Backtrack.Pattern
import Backtrack.Proofs.Frame
import Backtrack.Proofs.Paths
import Backtrack.Proofs.Termination

/-!
# The attempts of a search

A search takes one step after the other, and when the stack is empty it begins anew.  Here its
walks are put together in groups, one for each attempt (`Graph.Attempts`): an attempt begins at the
start vertex with every group unset, it works on tasks of its own only, and the next one begins when
no task is left.

Main statement: `Program.attempts_of_search`.  A search makes one attempt at each boundary from its
start on, in order, up to the first one that reaches the terminal, and this is also what it logs.
It is put together from:

    a test never changes where the attempt began     (Automaton.follows_of_run)
    an attempt ends, and all its tasks are its own   (exists_stage)
    what comes before the walks that are left        (Lists.prepend)
    one attempt after the other                      (exists_attempts)
-/

namespace Backtrack

/-! ## What a test keeps -/

theorem State.follows_mark (σ : State) (k : Nat) : σ.Follows [] (σ.mark k) :=
  ⟨rfl, rfl, rfl, fun _ _ => rfl⟩

/-- A test changes at most the slot that it opens or closes, and never where the attempt began. -/
theorem Test.follows_of_run {test : Test} {σ τ : State} (h : test.run σ = some τ) :
    σ.Follows test.slot?.toList τ := by
  cases test with
  | atom a =>
    replace h : (⟨.atom a, false⟩ : Automaton).run σ = some τ := h
    exact State.follows_of_run_atom h
  | anyChar => exact State.follows_of_run_anyChar h
  | openSlot i =>
    cases h
    exact State.follows_openSlot σ i
  | closeSlot i =>
    cases h
    exact State.follows_closeSlot σ i
  | enterLoop k =>
    cases h
    exact State.follows_mark σ k
  | progressed k =>
    obtain ⟨-, h⟩ := Option.ite_none_right_eq_some.1 h
    cases h
    exact .refl ..
  | stalled k =>
    obtain ⟨-, h⟩ := Option.ite_none_left_eq_some.1 h
    cases h
    exact .refl ..
  | join =>
    cases h
    exact .refl ..
  | never => cases h

theorem Automaton.follows_of_run {a : Automaton} {σ τ : State} (h : a.run σ = some τ) :
    σ.Follows a.test.slot?.toList τ := by
  unfold run at h
  split at h
  · split at h
    · cases h
    · cases h
      exact .refl ..
  · exact Test.follows_of_run h

namespace Graph

variable {g : Graph} {subject : String} {captures loops b : Nat} {σ : State} {u v w : Walk}
  {ws l : List Walk} {t : Task}

/-- The tasks that replace a task belong to the same attempt. -/
theorem start_of_mem_follow {u : Task} (h : u ∈ g.follow t) : u.state.start = t.state.start := by
  unfold follow at h
  split at h
  · split at h
    · next hrun =>
      obtain ⟨n, -, rfl⟩ := List.mem_map.1 h
      exact (Automaton.follows_of_run hrun).start
    · cases h
  · cases h

/-! ## One attempt -/

/-- The walks `ws` lead from `u` to `v`, none of them beginning a new attempt. -/
inductive Proceeds (g : Graph) : (u : Walk) → (ws : List Walk) → (v : Walk) → Prop
  | last (w : Walk) : Proceeds g w [w] w
  | step {u v w : Walk} {ws : List Walk} :
      g.step u = .proceed v → Proceeds g v ws w → Proceeds g u (u :: ws) w

/-- All tasks of a walk belong to the attempt that begins with `σ`. -/
structure Owns (σ : State) (w : Walk) : Prop where
  attempt : w.attempt = σ
  start : ∀ t ∈ w.stack, t.state.start = σ.start

/-- What an attempt comes to: a task at the terminal whose test passes, or the empty stack. -/
inductive Ends (g : Graph) : (stack : List Task) → Option State → Prop
  | found {t : Task} {rest : List Task} {τ : State} :
      t.vertex = g.terminal → g.run t.vertex t.state = some τ → Ends g (t :: rest) (some τ)
  | failed : Ends g [] none

/-- The attempt that begins with `σ` makes the walks `ws`, one after the other, the first of them at
the start vertex, and it comes to `r`.  All tasks of all walks are its own. -/
structure Attempt (g : Graph) (σ : State) (ws : List Walk) (r : Option State) : Prop where
  proceeds : ∃ stack, g.Proceeds (g.attempt σ) ws ⟨σ, stack⟩ ∧ g.Ends stack r
  owns : ∀ w ∈ ws, Owns σ w

theorem owns_attempt (σ : State) : Owns σ (g.attempt σ) :=
  ⟨rfl, fun t ht => by rw [List.mem_singleton.1 ht]⟩

/-- A task on top of the stack is replaced by tasks of the same attempt. -/
theorem Owns.follow {ts : List Task} (h : Owns σ ⟨σ, t :: ts⟩) : Owns σ ⟨σ, g.follow t ++ ts⟩ := by
  refine ⟨rfl, fun u hu => ?_⟩
  rcases List.mem_append.1 hu with hu | hu
  · rw [start_of_mem_follow hu, h.start t List.mem_cons_self]
  · exact h.start u (List.mem_cons_of_mem t hu)

theorem Owns.tail {ts : List Task} (h : Owns σ ⟨σ, t :: ts⟩) : Owns σ ⟨σ, ts⟩ :=
  ⟨rfl, fun u hu => h.start u (List.mem_cons_of_mem t hu)⟩

/-- **An attempt ends**, and all its tasks are its own.  By induction on the steps that are left. -/
theorem exists_stage (h : Acc g.Steps w) (hown : Owns σ w) :
    ∃ ws stack r, g.Proceeds w ws ⟨σ, stack⟩ ∧ g.Ends stack r ∧ ∀ u ∈ ws, Owns σ u := by
  induction h with
  | intro w _ ih =>
    have hstep : ∀ v, g.step w = .proceed v → Owns σ v →
        ∃ ws stack r, g.Proceeds w ws ⟨σ, stack⟩ ∧ g.Ends stack r ∧ ∀ u ∈ ws, Owns σ u := by
      intro v hv hown'
      obtain ⟨ws, stack, r, hproceeds, hends, howns⟩ := ih v (steps_of_proceed hv) hown'
      exact ⟨w :: ws, stack, r, .step hv hproceeds, hends, List.forall_mem_cons.2 ⟨hown, howns⟩⟩
    have hlast : ∀ r, g.Ends w.stack r →
        ∃ ws stack r, g.Proceeds w ws ⟨σ, stack⟩ ∧ g.Ends stack r ∧ ∀ u ∈ ws, Owns σ u := by
      intro r hends
      refine ⟨[w], w.stack, r, ?_, hends, List.forall_mem_singleton.2 hown⟩
      rw [← hown.attempt]
      exact .last w
    obtain ⟨attempt, stack⟩ := w
    obtain rfl : attempt = σ := hown.attempt
    cases stack with
    | nil => exact hlast none .failed
    | cons t ts =>
      by_cases ht : t.vertex = g.terminal
      · cases hrun : g.run t.vertex t.state with
        | none => exact hstep _ (step_missed ht hrun) hown.tail
        | some τ => exact hlast (some τ) (.found ht hrun)
      · exact hstep _ (step_followed ht) hown.follow

/-! ## One attempt after the other -/

/-- The search makes the attempts `attempts`, each given by its walks, at the first of the places
`bs`, in order; `first b` is the state with which the attempt at `b` begins.  All of them fail but
perhaps the last one, which is made at the last place if it fails as well. -/
inductive Attempts (g : Graph) (first : Nat → State) :
    (bs : List Nat) → (attempts : List (List Walk)) → (r : Option State) → Prop
  | none : Attempts g first [] [] none
  | found {b : Nat} {bs : List Nat} {ws : List Walk} {τ : State} :
      g.Attempt (first b) ws (some τ) → Attempts g first (b :: bs) [ws] (some τ)
  | failed {b : Nat} {bs : List Nat} {ws : List Walk} {attempts : List (List Walk)}
      {r : Option State} :
      g.Attempt (first b) ws none → Attempts g first bs attempts r →
      Attempts g first (b :: bs) (ws :: attempts) r

/-- The steps from `w` on make the walks `l`, and then no more. -/
def Lists (g : Graph) (w : Walk) (l : List Walk) : Prop := ∀ n, g.walkAfter n w = l[n]?

theorem Lists.cons (hv : (g.step w).next? = some v) (h : g.Lists v l) : g.Lists w (w :: l) := by
  intro n
  cases n with
  | zero => rfl
  | succ n =>
    rw [walkAfter, hv, Option.bind_some, h n]
    rfl

theorem lists_last (h : (g.step w).next? = none) : g.Lists w [w] := by
  intro n
  cases n with
  | zero => rfl
  | succ n =>
    rw [walkAfter, h]
    rfl

/-- The walks of an attempt come before those that its last walk leads to. -/
theorem Lists.prepend (h : g.Proceeds u ws v) (hl : g.Lists v (v :: l)) :
    g.Lists u (ws ++ l) := by
  induction h with
  | last w => exact hl
  | step hs _ ih => exact .cons (congrArg Step.next? hs) (ih hl)

/-- An attempt that goes on is told of by its last walk. -/
theorem walk_of_proceeds (h : g.Proceeds u ws v) (hu : Acc g.Steps u) :
    ∃ hv : Acc g.Steps v, g.walk u hu = g.walk v hv := by
  induction h with
  | last w => exact ⟨hu, rfl⟩
  | step hs _ ih =>
    rw [walk_of_proceed hs hu]
    exact ih _

/-- The pairs of boundaries that a search tells of if it makes attempts at `bs`. -/
def retries (bs : List Nat) : List (Nat × Nat) := bs.zip bs.tail

/-- From any boundary on, a search makes one attempt after the other, tells of each one after the
first, and makes no steps but those of the attempts. -/
theorem exists_attempts (hb : Text.isBoundary subject b = true)
    (hw : Acc g.Steps (g.attempt (.fresh subject b captures loops))) :
    ∃ attempts r, attempts ≠ [] ∧
      g.Attempts (.fresh subject · captures loops) (Text.boundariesFrom subject b) attempts r ∧
      g.Lists (g.attempt (.fresh subject b captures loops)) attempts.flatten ∧
      g.walk _ hw = ⟨retries ((Text.boundariesFrom subject b).take attempts.length), r⟩ := by
  generalize hn : subject.utf8ByteSize - b = n
  induction n using Nat.strongRecOn generalizing b with
  | ind n ih =>
    obtain ⟨ws, stack, r, hproceeds, hends, howns⟩ := exists_stage hw (owns_attempt _)
    have hattempt : g.Attempt (.fresh subject b captures loops) ws r :=
      ⟨⟨stack, hproceeds, hends⟩, howns⟩
    obtain ⟨hlast, hwalk⟩ := walk_of_proceeds hproceeds hw
    have hhead := Text.boundariesFrom_of_isBoundary hb
    cases hends with
    | @found t rest τ ht hrun =>
      have hstep : g.step ⟨.fresh subject b captures loops, t :: rest⟩ = .found τ := by
        simp only [step, if_pos ht, hrun]
      refine ⟨[ws], some τ, List.cons_ne_nil _ _, ?_, ?_, ?_⟩
      · rw [hhead]
        exact .found hattempt
      · rw [List.flatten_singleton, ← List.append_nil ws]
        exact .prepend hproceeds (lists_last (congrArg Step.next? hstep))
      · rw [hwalk, walk_of_found hstep, hhead]
        rfl
    | failed =>
      by_cases hlt : b < subject.utf8ByteSize
      · -- the next attempt is made where the character that begins here ends
        obtain ⟨c, hc⟩ := Text.exists_charAt? hb hlt
        have hstep : g.step ⟨.fresh subject b captures loops, []⟩ =
            .retry (g.attempt (.fresh subject (b + c.utf8Size) captures loops)) := by
          simp only [step, State.nextAttempt_fresh hc]
        have hpos := Char.utf8Size_pos c
        have hnext := Text.isBoundary_add_utf8Size hc
        obtain ⟨attempts, r, hne, hrest, hlists, htells⟩ :=
          ih _ (by omega) hnext (hlast.inv (steps_of_retry hstep)) rfl
        rw [Text.boundariesFrom_of_charAt? hc]
        refine ⟨ws :: attempts, r, List.cons_ne_nil _ _, .failed hattempt hrest, ?_, ?_⟩
        · exact .prepend hproceeds (.cons (congrArg Step.next? hstep) hlists)
        · obtain ⟨ws', attempts, rfl⟩ := List.exists_cons_of_ne_nil hne
          rw [hwalk, walk_of_retry hstep, htells, Text.boundariesFrom_of_isBoundary hnext]
          rfl
      · have hstep : g.step ⟨.fresh subject b captures loops, []⟩ = .exhausted := by
          simp only [step, State.nextAttempt_fresh_end (Nat.le_of_not_lt hlt)]
        have hend : Text.boundariesFrom subject b = [b] := by
          rw [hhead, Text.boundariesFrom_eq_nil (by omega)]
        rw [hend]
        refine ⟨[ws], none, List.cons_ne_nil _ _, .failed hattempt .none, ?_, ?_⟩
        · rw [List.flatten_singleton, ← List.append_nil ws]
          exact .prepend hproceeds (lists_last (congrArg Step.next? hstep))
        · rw [hwalk, walk_of_exhausted hstep]
          rfl

end Graph

namespace Program

/-- What a search logs that makes attempts at the boundaries `bs` and comes to `r`. -/
def logged (bs : List Nat) (r : Option State) : List String :=
  (Graph.retries bs).map (fun (b, c) => s!"no match at {b}, retrying at {c}") ++
    (r.map fun σ => s!"match at {σ.start}..{σ.offset}").toList

theorem message_events (report : Report) :
    (Pattern.events report).map Event.message =
      report.retries.map (fun (b, c) => s!"no match at {b}, retrying at {c}") ++
        (report.final.map fun σ => s!"match at {σ.start}..{σ.offset}").toList := by
  unfold Pattern.events
  rw [List.map_append, List.map_map]
  cases report.final <;> rfl

/-- **One attempt at each boundary.**  The walks of a search are those of its attempts, one attempt
at each boundary from its start on, in order, up to the first one that reaches the terminal.  It
logs where each failed attempt but the last one was made and where the next one is, and then the
match, if there is one. -/
theorem attempts_of_search {t : Regex} {captures : Nat} {p : Program}
    (h : compile t captures = .ok p) (subject : String) (start : Nat) :
    let bs := Text.boundariesFrom subject start
    ∃ attempts : List (List Walk),
      (t.graph captures).Attempts (fun b => .fresh subject b captures t.loops) bs attempts
        (p.run subject start) ∧
      (∀ n, p.walkAfter subject start n = attempts.flatten[n]?) ∧
      (Pattern.events (p.search subject start)).map Event.message =
        logged (bs.take attempts.length) (p.run subject start) := by
  have hp := graph_of_compile h
  have hgraph : p.graph.captures = captures ∧ p.graph.loops = t.loops := by
    rw [hp]
    exact ⟨rfl, rfl⟩
  rw [← hp, ← hgraph.1, ← hgraph.2]
  simp only [message_events]
  unfold run walkAfter search
  cases hb : Text.boundaryFrom? subject start with
  | none =>
    rw [Text.boundariesFrom_of_boundaryFrom?_eq_none hb]
    exact ⟨[], .none, fun n => rfl, rfl⟩
  | some b =>
    obtain ⟨hbound, heq⟩ := Text.boundariesFrom_of_boundaryFrom? hb
    obtain ⟨attempts, r, -, hattempts, hlists, hwalk⟩ := Graph.exists_attempts hbound
      (p.halts.acc (.fresh subject b p.graph.captures p.graph.loops))
    simp only [heq, hwalk]
    exact ⟨attempts, hattempts, hlists, rfl⟩

/-- The search begins inside a character, and only its second attempt reaches the terminal. -/
theorem attempts_of_search_second :
    let t : Regex := .seq [.group 0 (.atom .dot), .char 'b']
    ∃ p attempts σ, compile t 1 = .ok p ∧ p.run "éaab" 1 = some σ ∧ σ.start = 3 ∧
      (t.graph 1).Attempts (fun b => .fresh "éaab" b 1 0) [2, 3, 4, 5] attempts (some σ) ∧
      (∀ n, p.walkAfter "éaab" 1 n = attempts.flatten[n]?) ∧
      (Pattern.events (p.search "éaab" 1)).map Event.message =
        logged ([2, 3, 4, 5].take attempts.length) (some σ) := by
  intro t
  let p : Program := ⟨t.graph 1, t.graph_halts 1⟩
  have hp : compile t 1 = .ok p := if_neg (by decide)
  have hstart : ((p.run "éaab" 1).map State.unmarked).map State.start = some 3 := by
    rw [run_of_compile hp]
    decide +kernel
  obtain ⟨τ, hτ, hthree⟩ := Option.map_eq_some_iff.1 hstart
  obtain ⟨σ, hσ, rfl⟩ := Option.map_eq_some_iff.1 hτ
  have hbs : Text.boundariesFrom "éaab" 1 = [2, 3, 4, 5] := by decide +kernel
  obtain ⟨attempts, hattempts, hwalks, hlog⟩ := attempts_of_search hp "éaab" 1
  rw [hbs, hσ] at hattempts hlog
  exact ⟨p, attempts, σ, hp, hσ, hthree, hattempts, hwalks, hlog⟩

end Program

end Backtrack
