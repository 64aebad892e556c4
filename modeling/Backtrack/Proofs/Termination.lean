import Backtrack.Program

/-!
# Every search stops

A search takes one step of its walk after the other (`Program.walkAfter`).  Whatever tree
a program comes from, a search stops after finitely many of them:

    Program.compile t captures = .ok p → ∃ n, p.walkAfter subject start n = none

and what the last step shows is what the search tells (`compiled_search_stops`).  No chain
of tasks goes on forever in the graph of a tree (`Regex.graph_halts`), hence no walk does.
-/

namespace Backtrack

/-- The state that a step shows as the end of a match. -/
def Step.final? : Step → Option State
  | .found σ => some σ
  | _ => none

namespace Graph

variable {g : Graph} {v w : Walk}

/-- The walk `n` steps after `w`, unless it has ended before. -/
def walkAfter (g : Graph) : Nat → Walk → Option Walk
  | 0, w => some w
  | n + 1, w => (g.step w).next?.bind (g.walkAfter n)

/-- A walk from which the steps cannot go on forever ends after some number of them. -/
theorem exists_walkAfter_eq_none (h : Acc g.Steps w) : ∃ n, g.walkAfter n w = none := by
  induction h with
  | intro w _ ih =>
    cases hs : (g.step w).next? with
    | none => exact ⟨1, by rw [walkAfter, hs, Option.bind_none]⟩
    | some v =>
      obtain ⟨n, hn⟩ := ih v hs
      exact ⟨n + 1, by rw [walkAfter, hs, Option.bind_some, hn]⟩

/-- Taking all steps shows what one step shows and the steps after it. -/
theorem walk_final_of_next {h : Acc g.Steps w} (hs : (g.step w).next? = some v) :
    (g.walk w h).final = (g.walk v (h.inv hs)).final := by
  cases hw : g.step w with
  | proceed u =>
    rw [hw, Step.next?, Option.some.injEq] at hs
    subst hs
    rw [walk_of_proceed hw]
  | retry u =>
    rw [hw, Step.next?, Option.some.injEq] at hs
    subst hs
    rw [walk_of_retry hw]
  | found σ => rw [hw] at hs; cases hs
  | exhausted => rw [hw] at hs; cases hs

/-- Taking all steps shows what the last step shows. -/
theorem walk_final_of_last {n : Nat} {h : Acc g.Steps w} (hn : g.walkAfter n w = some v)
    (hv : (g.step v).next? = none) : (g.walk w h).final = (g.step v).final? := by
  induction n generalizing w with
  | zero =>
    rw [walkAfter, Option.some.injEq] at hn
    subst hn
    cases hw : g.step w with
    | found σ => rw [walk_of_found hw]; rfl
    | exhausted => rw [walk_of_exhausted hw]; rfl
    | proceed u => rw [hw] at hv; cases hv
    | retry u => rw [hw] at hv; cases hv
  | succ n ih =>
    rw [walkAfter, Option.bind_eq_some_iff] at hn
    obtain ⟨u, hu, hn⟩ := hn
    rw [walk_final_of_next hu]
    exact ih hn

end Graph

namespace Program

/-- The walk of a search after `n` steps, unless it has ended before.  It begins at the
first boundary from `start` on; if there is none, it does not even begin. -/
def walkAfter (p : Program) (subject : String) (start n : Nat) : Option Walk :=
  (Text.boundaryFrom? subject start).bind fun b =>
    p.graph.walkAfter n (p.graph.attempt (.fresh subject b p.graph.captures p.graph.loops))

/-! ## Main theorem -/

/-- **Every search stops**, whatever the tree, the number of groups that are remembered,
the subject and the offset; and the search tells what its last step shows. -/
theorem compiled_search_stops {t : Regex} {captures : Nat} {p : Program}
    (h : compile t captures = .ok p) (subject : String) (start : Nat) :
    (∃ n, p.walkAfter subject start n = none) ∧
      ∀ n w, p.walkAfter subject start n = some w → (p.graph.step w).next? = none →
        p.run subject start = (p.graph.step w).final? := by
  have halts : p.graph.Halts := by
    rw [graph_of_compile h]
    exact t.graph_halts captures
  unfold walkAfter run search
  cases Text.boundaryFrom? subject start with
  | none => exact ⟨⟨0, rfl⟩, fun n w hw => by cases hw⟩
  | some b =>
    refine ⟨?_, fun n w hw hlast => Graph.walk_final_of_last hw hlast⟩
    exact Graph.exists_walkAfter_eq_none (halts.acc _)

/-- A loop in a loop in a negation, around a body that matches the empty text: the search
stops all the same. -/
theorem nested_empty_loops_stop :
    ∃ p, compile (.negation (.repeated (.repeated (.seq []) ⟨0, none, false⟩) ⟨2, none, true⟩)) 0 =
        .ok p ∧
      (∃ n, p.walkAfter "aé" 1 n = none) ∧
        ∀ n w, p.walkAfter "aé" 1 n = some w → (p.graph.step w).next? = none →
          p.run "aé" 1 = (p.graph.step w).final? := by
  have hp : ∃ p, compile
      (.negation (.repeated (.repeated (.seq []) ⟨0, none, false⟩) ⟨2, none, true⟩)) 0 = .ok p :=
    ⟨_, rfl⟩
  obtain ⟨p, hp⟩ := hp
  exact ⟨p, hp, compiled_search_stops hp "aé" 1⟩

end Program

end Backtrack
