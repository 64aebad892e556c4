import Backtrack.Proofs.Exploration

/-!
# The first path to the terminal

A path begins with a task, and at each vertex whose test passes it takes one of the ways on, up to
the terminal.  The ways taken tell such paths apart, and paths are compared by them: what comes
first is what takes the earlier way where two paths part.

Main statement: `Program.run_eq_first_path`, a search from a boundary finds the state to which the
lexicographically least path leads, and if there is no path, it goes on at the next boundary.

A stack is the list of all paths that are still to be tried, in order (`Graph.ArrivesFrom`), and so
what it comes to is told by the first of them:

    a task at the terminal                  the path ends here          (tells_found, tells_missed)
    a task anywhere else                    the tasks that replace it   (Tells.of_follow)
    a task and those below it               one or the other            (Tells.cons)
    a task whose chains end                 both are the same           (exists_comesTo)
-/

namespace Backtrack

namespace Graph

/-- From task `t`, the tests of the tasks on `path` pass, each in the state that the one before gives,
and the last one, at the terminal, gives `σ`.  At each task but the last one, `ways` tells which of
the ways on is taken. -/
inductive Arrives (g : Graph) :
    (t : Task) → (ways : List Nat) → (path : List Task) → (σ : State) → Prop
  | last {t : Task} {σ : State} :
      t.vertex = g.terminal → g.run t.vertex t.state = some σ → Arrives g t [] [t] σ
  | step {t : Task} {τ σ : State} {k n : Nat} {ways : List Nat} {path : List Task} :
      g.run t.vertex t.state = some τ → (g.successors t.vertex)[k]? = some n →
      Arrives g ⟨n, τ⟩ ways path σ → Arrives g t (k :: ways) (t :: path) σ

/-- Of all ways that lead somewhere, `ways` are the lexicographically least, and they lead along
`path` to `σ`. -/
structure IsFirst (P : (ways : List Nat) → (path : List Task) → (σ : State) → Prop)
    (ways : List Nat) (path : List Task) (σ : State) : Prop where
  arrives : P ways path σ
  least : ∀ ways' path' σ', P ways' path' σ' → ways = ways' ∨ List.Lex (· < ·) ways ways'

variable {g : Graph} {t : Task} {ts : List Task} {ways ways' : List Nat} {path path' : List Task}
  {σ σ' : State} {r s : Option State}

/-- The ways taken tell everything about a path. -/
theorem Arrives.unique (h : g.Arrives t ways path σ) (h' : g.Arrives t ways path' σ') :
    path = path' ∧ σ = σ' := by
  induction h generalizing path' with
  | last _ hrun =>
    cases h' with
    | last _ hrun' => exact ⟨rfl, Option.some.inj (hrun.symm.trans hrun')⟩
  | step hrun hn _ ih =>
    cases h' with
    | step hrun' hn' hrest =>
      obtain rfl := Option.some.inj (hrun.symm.trans hrun')
      obtain rfl := Option.some.inj (hn.symm.trans hn')
      obtain ⟨rfl, rfl⟩ := ih hrest
      exact ⟨rfl, rfl⟩

/-! ## Stacks -/

/-- From one of the tasks of a stack there is a path; the first way tells which task it is. -/
def ArrivesFrom (g : Graph) (ts : List Task) (ways : List Nat) (path : List Task) (σ : State) :
    Prop :=
  ∃ k t rest, ways = k :: rest ∧ ts[k]? = some t ∧ g.Arrives t rest path σ

/-- The first of several paths leads to `r`, or there is none. -/
def Tells (P : (ways : List Nat) → (path : List Task) → (σ : State) → Prop) :
    Option State → Prop
  | some σ => ∃ ways path, IsFirst P ways path σ
  | none => ∀ ways path σ, ¬ P ways path σ

theorem getElem?_follow {k : Nat} {u : Task} :
    (g.follow t)[k]? = some u ↔
      ∃ τ n, g.run t.vertex t.state = some τ ∧ (g.successors t.vertex)[k]? = some n ∧
        u = ⟨n, τ⟩ := by
  unfold follow run successors
  cases g.vertices[t.vertex]? with
  | none => simp
  | some v => cases hrun : v.automaton.run t.state <;> simp [hrun, @eq_comm _ u]

/-- A path that does not end here goes on from one of the tasks that replace this one. -/
theorem arrives_iff_of_ne (ht : t.vertex ≠ g.terminal) :
    g.Arrives t ways path σ ↔ ∃ rest, path = t :: rest ∧ g.ArrivesFrom (g.follow t) ways rest σ := by
  constructor
  · rintro (⟨hterminal, -⟩ | ⟨hrun, hn, hrest⟩)
    · exact absurd hterminal ht
    · exact ⟨_, rfl, _, _, _, rfl, getElem?_follow.2 ⟨_, _, hrun, hn, rfl⟩, hrest⟩
  · rintro ⟨rest, rfl, k, u, ways, rfl, hu, hrest⟩
    obtain ⟨τ, n, hrun, hn, rfl⟩ := getElem?_follow.1 hu
    exact .step hrun hn hrest

theorem arrivesFrom_cons :
    g.ArrivesFrom (t :: ts) ways path σ ↔
      (∃ rest, ways = 0 :: rest ∧ g.Arrives t rest path σ) ∨
        ∃ k rest, ways = (k + 1) :: rest ∧ g.ArrivesFrom ts (k :: rest) path σ := by
  constructor
  · rintro ⟨k, u, rest, rfl, hu, hrest⟩
    cases k with
    | zero =>
      cases hu
      exact .inl ⟨rest, rfl, hrest⟩
    | succ k => exact .inr ⟨k, rest, rfl, k, u, rest, rfl, hu, hrest⟩
  · rintro (⟨rest, rfl, hrest⟩ | ⟨k, rest, rfl, _, u, _, ⟨⟩, hu, hrest⟩)
    · exact ⟨0, t, rest, rfl, rfl, hrest⟩
    · exact ⟨k + 1, u, rest, rfl, hu, hrest⟩

/-! ## The first path -/

/-- Where the terminal is reached, no path comes before the one that ends there. -/
theorem tells_found (ht : t.vertex = g.terminal) (hrun : g.run t.vertex t.state = some σ) :
    Tells (g.Arrives t) (some σ) :=
  ⟨[], [t], .last ht hrun, fun ways' _ _ _ => by
    cases ways' with
    | nil => exact .inl rfl
    | cons k rest => exact .inr .nil⟩

theorem tells_missed (hrun : g.run t.vertex t.state = none) : Tells (g.Arrives t) none := by
  intro ways path σ h
  cases h with
  | last _ hrun' => rw [hrun] at hrun'; cases hrun'
  | step hrun' _ _ => rw [hrun] at hrun'; cases hrun'

/-- The first path goes on as the first path from the tasks that replace a task. -/
theorem Tells.of_follow (ht : t.vertex ≠ g.terminal) (h : Tells (g.ArrivesFrom (g.follow t)) r) :
    Tells (g.Arrives t) r := by
  cases r with
  | none =>
    intro ways path σ harrives
    obtain ⟨rest, -, hrest⟩ := (arrives_iff_of_ne ht).1 harrives
    exact h ways rest σ hrest
  | some σ =>
    obtain ⟨ways, rest, harrives, hleast⟩ := h
    refine ⟨ways, t :: rest, (arrives_iff_of_ne ht).2 ⟨rest, rfl, harrives⟩, ?_⟩
    intro ways' path' σ' harrives'
    obtain ⟨rest', -, hrest'⟩ := (arrives_iff_of_ne ht).1 harrives'
    exact hleast ways' rest' σ' hrest'

theorem tells_nil : Tells (g.ArrivesFrom []) none := by
  rintro ways path σ ⟨k, t, rest, -, hk, -⟩
  cases hk

/-- The paths from the tasks below come after those from the task on top. -/
theorem Tells.cons (h : Tells (g.Arrives t) r) (hs : Tells (g.ArrivesFrom ts) s) :
    Tells (g.ArrivesFrom (t :: ts)) (r.or s) := by
  cases r with
  | some σ =>
    obtain ⟨ways, path, harrives, hleast⟩ := h
    refine ⟨0 :: ways, path, arrivesFrom_cons.2 (.inl ⟨ways, rfl, harrives⟩), ?_⟩
    intro ways' path' σ' harrives'
    rw [arrivesFrom_cons] at harrives'
    rcases harrives' with ⟨rest, rfl, hrest⟩ | ⟨k, rest, rfl, -⟩
    · exact (hleast rest path' σ' hrest).imp (congrArg _) .cons
    · exact .inr (.rel (Nat.succ_pos k))
  | none =>
    have hbelow : ∀ {ways path σ}, g.ArrivesFrom (t :: ts) ways path σ →
        ∃ k rest, ways = (k + 1) :: rest ∧ g.ArrivesFrom ts (k :: rest) path σ := by
      intro ways path σ harrives
      rw [arrivesFrom_cons] at harrives
      refine harrives.resolve_left ?_
      rintro ⟨rest, -, hrest⟩
      exact h rest path σ hrest
    cases s with
    | none =>
      intro ways path σ harrives
      obtain ⟨k, rest, -, hrest⟩ := hbelow harrives
      exact hs _ path σ hrest
    | some σ =>
      obtain ⟨_, path, ⟨k, u, rest, rfl, hu, harrives⟩, hleast⟩ := hs
      refine ⟨(k + 1) :: rest, path, ⟨k + 1, u, rest, rfl, hu, harrives⟩, ?_⟩
      intro ways' path' σ' harrives'
      obtain ⟨k', rest', rfl, hrest'⟩ := hbelow harrives'
      rcases hleast _ path' σ' hrest' with heq | hlex
      · obtain ⟨rfl, rfl⟩ := List.cons.inj heq
        exact .inl rfl
      · cases hlex with
        | rel hlt => exact .inr (.rel (Nat.succ_lt_succ hlt))
        | cons hlex => exact .inr (.cons hlex)

/-- A stack comes to what its first path leads to, if each of its tasks does. -/
theorem exists_comesTo_list (h : ∀ t ∈ ts, ∃ r, g.ComesTo [t] r ∧ Tells (g.Arrives t) r) :
    ∃ r, g.ComesTo ts r ∧ Tells (g.ArrivesFrom ts) r := by
  induction ts with
  | nil => exact ⟨none, .nil, tells_nil⟩
  | cons t ts ih =>
    obtain ⟨r, hr, htells⟩ := h t List.mem_cons_self
    obtain ⟨s, hs, htells'⟩ := ih fun u hu => h u (List.mem_cons_of_mem t hu)
    exact ⟨r.or s, hr.append hs, htells.cons htells'⟩

/-- **A task comes to what its first path leads to.**  By induction on the chains of tasks that
begin with it, all of which end. -/
theorem exists_comesTo (h : Acc g.Follows t) : ∃ r, g.ComesTo [t] r ∧ Tells (g.Arrives t) r := by
  induction h with
  | intro t _ ih =>
    by_cases ht : t.vertex = g.terminal
    · cases hrun : g.run t.vertex t.state with
      | none => exact ⟨none, .missed ht hrun .nil, tells_missed hrun⟩
      | some σ => exact ⟨some σ, .found ht hrun, tells_found ht hrun⟩
    · obtain ⟨r, hr, htells⟩ := exists_comesTo_list fun u hu => ih u hu
      refine ⟨r, .followed ht ?_, htells.of_follow ht⟩
      rwa [List.append_nil]

end Graph

/-! ## Searching -/

namespace Text

/-- Byte offset `j` is the first boundary of `s` after `i`. -/
structure Next (s : String) (i j : Nat) : Prop where
  lt : i < j
  boundary : isBoundary s j = true
  between : ∀ k, i < k → k < j → isBoundary s k = false

theorem exists_next {s : String} {i : Nat} (h : isBoundary s i = true) (hi : i < s.utf8ByteSize) :
    ∃ j, Next s i j ∧ boundariesFrom s i = i :: boundariesFrom s j := by
  obtain ⟨c, hc⟩ := exists_charAt? h hi
  have hpos := Char.utf8Size_pos c
  exact ⟨i + c.utf8Size, ⟨by omega, isBoundary_add_utf8Size hc, fun k => isBoundary_inside hc⟩,
    boundariesFrom_of_charAt? hc⟩

end Text

namespace Program

variable {p : Program} {subject : String}

/-- The task with which the attempt at boundary `b` begins. -/
def entry (p : Program) (subject : String) (b : Nat) : Task :=
  ⟨p.graph.start, .fresh subject b p.graph.captures p.graph.loops⟩

/-- A search finds what the first path leads to from the first boundary from which there is a
path. -/
theorem exists_run_eq (p : Program) (subject : String) :
    ∃ first : Nat → Option State, (∀ b, Graph.Tells (p.graph.Arrives (p.entry subject b)) (first b)) ∧
      ∀ start, p.run subject start = (Text.boundariesFrom subject start).findSome? first := by
  obtain ⟨first, hfirst⟩ := Classical.skolem.1 fun b =>
    Graph.exists_comesTo (p.halts (p.entry subject b).state)
  exact ⟨first, fun b => (hfirst b).2, run_of_comesTo fun b => (hfirst b).1⟩

/-- **Backtracking finds the first path.**  A search from a boundary tells the state to which the
lexicographically least of all paths from there leads.  If there is no path, it tells what a search
from the next boundary tells, or nothing at the end of the subject. -/
theorem run_eq_first_path {t : Regex} {captures : Nat} (h : compile t captures = .ok p) {b : Nat}
    (hb : Text.isBoundary subject b = true) :
    let g := t.graph captures
    let entry : Task := ⟨g.start, .fresh subject b captures t.loops⟩
    ((∃ ways path σ, g.Arrives entry ways path σ) →
      ∃ ways path σ, Graph.IsFirst (g.Arrives entry) ways path σ ∧ p.run subject b = some σ) ∧
    ((¬ ∃ ways path σ, g.Arrives entry ways path σ) →
      (b = subject.utf8ByteSize ∧ p.run subject b = none) ∨
        ∃ c, Text.Next subject b c ∧ p.run subject b = p.run subject c) := by
  obtain ⟨first, hfirst, hrun⟩ := p.exists_run_eq subject
  have hbegin := hfirst b
  rw [entry, graph_of_compile h] at hbegin
  have hhead := Text.boundariesFrom_of_isBoundary hb
  constructor
  · rintro ⟨ways, path, σ, harrives⟩
    rw [hrun, hhead, List.findSome?_cons]
    cases hr : first b with
    | none =>
      rw [hr] at hbegin
      exact absurd harrives (hbegin ways path σ)
    | some τ =>
      rw [hr] at hbegin
      obtain ⟨ways', path', hleast⟩ := hbegin
      exact ⟨ways', path', τ, hleast, rfl⟩
  · intro hnone
    have hr : first b = none := by
      cases hr : first b with
      | none => rfl
      | some τ =>
        rw [hr] at hbegin
        obtain ⟨ways, path, harrives, -⟩ := hbegin
        exact absurd ⟨ways, path, τ, harrives⟩ hnone
    have hle := Text.le_utf8ByteSize_of_isBoundary hb
    rcases Nat.lt_or_eq_of_le hle with hlt | hend
    · obtain ⟨c, hnext, hlater⟩ := Text.exists_next hb hlt
      refine .inr ⟨c, hnext, ?_⟩
      rw [hrun b, hlater, List.findSome?_cons, hr, hrun c]
    · refine .inl ⟨hend, ?_⟩
      rw [hrun, hhead, List.findSome?_cons, hr, Text.boundariesFrom_eq_nil (by omega)]
      rfl

/-- The first branch is a dead end, and the group in the second one is passed through twice. -/
theorem run_eq_first_path_past_dead_end :
    let t : Regex := .repeated (.alt [.alt [], .group 0 (.char 'b')]) ⟨1, some 2, false⟩
    let known := [0, 0, 1, 0, 0, 0, 0, 1, 0, 0, 0, 0, 0]
    ∃ p, compile t 1 = .ok p ∧
      ∃ ways path σ, (ways = known ∨ List.Lex (· < ·) ways known) ∧
        (t.graph 1).Arrives ⟨0, .fresh "abb" 1 1 0⟩ ways path σ ∧ p.run "abb" 1 = some σ := by
  intro t known
  let p : Program := ⟨t.graph 1, t.graph_halts 1⟩
  have hp : compile t 1 = .ok p := if_neg (by decide)
  have hb : Text.isBoundary "abb" 1 = true := by decide
  have hpath : ∃ path σ, (t.graph 1).Arrives ⟨0, .fresh "abb" 1 1 0⟩ known path σ :=
    ⟨_, _, .step rfl rfl <| .step rfl rfl <| .step rfl rfl <| .step rfl rfl <| .step rfl rfl <|
      .step rfl rfl <| .step rfl rfl <| .step rfl rfl <| .step rfl rfl <| .step rfl rfl <|
      .step rfl rfl <| .step rfl rfl <| .step rfl rfl <| .last rfl rfl⟩
  obtain ⟨path, σ, harrives⟩ := hpath
  obtain ⟨ways, path', τ, hfirst, hrun⟩ := (run_eq_first_path hp hb).1 ⟨_, path, σ, harrives⟩
  exact ⟨p, hp, ways, path', τ, hfirst.least _ path σ harrives, hfirst.arrives, hrun⟩

end Program

end Backtrack
