import Backtrack.Proofs.ClassSets
import Backtrack.Proofs.Matches

/-!
# Negations in negations

A tree of atoms that look at a character, classes and negations describes a set of characters
(`Regex.Has`).  By its plain meaning it matches one character of the set
(`DescribesSet.matches_iff`), so that two negations cancel.  The graph of a tree does not keep to
this if a negation is in another one: the outer one reads the inner one's body as a tree that moves,
and then consumes a character all the same.

Main statement: `Program.run_negation_negation`, two negations around a tree come to the tree and
one more character.

    no negation in a negation      one character of the set       (DescribesSet.mem_completions)
    negations nested in any way    at least one character         (DescribesSet.past)
    two negations around a tree    the tree, then any character   (completions_negation_negation)
-/

namespace Backtrack

namespace Regex

/-- Trees that describe a set of characters: atoms that look at one, classes and negations. -/
inductive DescribesSet : Regex → Prop
  | atom {a : Atom} (h : a.charSet?.isSome = true) : DescribesSet (.atom a)
  | charClass {members : List Regex} (h : ∀ t ∈ members, DescribesSet t) :
      DescribesSet (.charClass members)
  | negation {body : Regex} (h : DescribesSet body) : DescribesSet (.negation body)

mutual

/-- Character `c` is in the set that a tree describes. -/
def Has : Regex → Char → Prop
  | .atom a, c => a.Has c
  | .charClass members, c => HasAny members c
  | .negation body, c => ¬ Has body c
  | .seq _, _ | .alt _, _ | .group .., _ | .repeated .., _ => False

/-- Character `c` is in the set that one of the trees describes. -/
def HasAny : List Regex → Char → Prop
  | [], _ => False
  | t :: rest, c => Has t c ∨ HasAny rest c

end

mutual

/-- How deep negations are nested in a tree. -/
def negationDepth : Regex → Nat
  | .atom _ => 0
  | .seq items => negationDepthOf items
  | .alt branches => negationDepthOf branches
  | .charClass members => negationDepthOf members
  | .negation body => negationDepth body + 1
  | .group _ body => negationDepth body
  | .repeated body _ => negationDepth body

/-- How deep negations are nested in several trees. -/
def negationDepthOf : List Regex → Nat
  | [] => 0
  | t :: rest => max (negationDepth t) (negationDepthOf rest)

end

theorem hasAny_iff {ts : List Regex} {c : Char} : HasAny ts c ↔ ∃ t ∈ ts, t.Has c := by
  induction ts with
  | nil => simp [HasAny]
  | cons t rest ih => simp [HasAny, ih]

theorem negationDepth_le_of_mem {ts : List Regex} {t : Regex} (h : t ∈ ts) :
    t.negationDepth ≤ negationDepthOf ts := by
  induction ts with
  | nil => cases h
  | cons u rest ih =>
    rw [negationDepthOf]
    rcases List.mem_cons.1 h with rfl | h
    · exact Nat.le_max_left ..
    · exact Nat.le_trans (ih h) (Nat.le_max_right ..)

/-! ## The plain meaning -/

/-- An atom that looks at a character consumes one of its set. -/
theorem run_eq_some_iff_has {a : Atom} (ha : a.charSet?.isSome = true) {σ τ : State} :
    a.run σ = some τ ↔ ∃ c, σ.peek = some c ∧ a.Has c ∧ τ = σ.advance c.utf8Size := by
  obtain ⟨accepts, haccepts⟩ := Option.isSome_iff_exists.1 ha
  simp only [run_eq_consume haccepts, State.consume_eq_some_iff, Atom.accepts_iff haccepts]

/-- By its plain meaning, a tree that describes a set matches one character of the set. -/
theorem DescribesSet.matches_iff {t : Regex} (ht : t.DescribesSet) {subject : String} {i j : Nat} :
    t.Matches subject i j ↔
      ∃ c, Text.charAt? subject i = some c ∧ t.Has c ∧ j = i + c.utf8Size := by
  induction ht generalizing j with
  | @atom a ha =>
    rw [Matches, Atom.step?, Option.map_eq_some_iff]
    simp only [run_eq_some_iff_has ha]
    constructor
    · rintro ⟨τ, ⟨c, hc, hhas, rfl⟩, rfl⟩
      exact ⟨c, hc, hhas, rfl⟩
    · rintro ⟨c, hc, hhas, rfl⟩
      exact ⟨_, ⟨c, hc, hhas, rfl⟩, rfl⟩
  | @charClass members _ ih =>
    rw [Matches, matchesAny_iff]
    constructor
    · rintro ⟨t, ht, hmatches⟩
      obtain ⟨c, hc, hhas, hj⟩ := (ih t ht).1 hmatches
      exact ⟨c, hc, hasAny_iff.2 ⟨t, ht, hhas⟩, hj⟩
    · rintro ⟨c, hc, hhas, hj⟩
      obtain ⟨t, ht, hhas⟩ := hasAny_iff.1 hhas
      exact ⟨t, ht, (ih t ht).2 ⟨c, hc, hhas, hj⟩⟩
  | @negation body _ ih =>
    rw [Matches, Text.after?, Option.map_eq_some_iff]
    constructor
    · rintro ⟨⟨c, hc, rfl⟩, hnot⟩
      exact ⟨c, hc, fun hhas => hnot _ (ih.2 ⟨c, hc, hhas, rfl⟩), rfl⟩
    · rintro ⟨c, hc, hnot, rfl⟩
      refine ⟨⟨c, hc, rfl⟩, fun k hmatches => ?_⟩
      obtain ⟨d, hd, hhas, -⟩ := ih.1 hmatches
      rw [hc] at hd
      cases hd
      exact hnot hhas

/-! ## What is completed without negations in negations -/

variable {negated : Bool} {t : Regex} {σ τ : State}

theorem mem_completionsAny {ts : List Regex} :
    τ ∈ completionsAny negated ts σ ↔ ∃ t ∈ ts, τ ∈ completions negated t σ := by
  induction ts with
  | nil => simp [completionsAny]
  | cons t rest ih => simp [completionsAny, ih]

/-- Opposites in a row hold together, if none of them moves. -/
theorem mem_completionsAll_opposite {ts : List Regex}
    (h : ∀ t ∈ ts, ∀ σ τ, τ ∈ completions true t σ ↔ τ = σ ∧ ∀ c, σ.peek = some c → ¬ t.Has c) :
    τ ∈ completionsAll true ts σ ↔ τ = σ ∧ ∀ c, σ.peek = some c → ¬ HasAny ts c := by
  induction ts generalizing σ with
  | nil => simp [completionsAll, HasAny]
  | cons t rest ih =>
    have hrest := ih (fun u hu => h u (List.mem_cons_of_mem t hu)) (σ := σ)
    rw [completionsAll, List.mem_flatMap]
    constructor
    · rintro ⟨ρ, hρ, hτ⟩
      obtain ⟨rfl, hfirst⟩ := (h t List.mem_cons_self _ _).1 hρ
      obtain ⟨rfl, hothers⟩ := hrest.1 hτ
      refine ⟨rfl, fun c hc => ?_⟩
      rintro (hhas | hhas)
      · exact hfirst c hc hhas
      · exact hothers c hc hhas
    · rintro ⟨rfl, hnone⟩
      refine ⟨τ, (h t List.mem_cons_self _ _).2 ⟨rfl, fun c hc hhas => ?_⟩, hrest.2 ⟨rfl, ?_⟩⟩
      · exact hnone c hc (.inl hhas)
      · exact fun c hc hhas => hnone c hc (.inr hhas)

/-- Without negations, the opposite of a set holds where no character of the set stands. -/
theorem DescribesSet.mem_opposite (ht : t.DescribesSet) (hdepth : t.negationDepth = 0) :
    τ ∈ completions true t σ ↔ τ = σ ∧ ∀ c, σ.peek = some c → ¬ t.Has c := by
  induction ht generalizing σ τ with
  | @atom a ha =>
    rw [completions, Option.mem_toList, Automaton.run, if_pos rfl, Test.run]
    cases hrun : a.run σ with
    | none =>
      have hnone : ∀ c, σ.peek = some c → ¬ a.Has c := by
        intro c hc hhas
        have hsome := (run_eq_some_iff_has ha).2 ⟨c, hc, hhas, rfl⟩
        rw [hrun] at hsome
        cases hsome
      constructor
      · rintro ⟨⟩
        exact ⟨rfl, hnone⟩
      · rintro ⟨rfl, -⟩
        rfl
    | some ρ =>
      obtain ⟨c, hc, hhas, -⟩ := (run_eq_some_iff_has ha).1 hrun
      constructor
      · rintro ⟨⟩
      · rintro ⟨-, hnone⟩
        exact absurd hhas (hnone c hc)
  | @charClass members _ ih =>
    rw [completions, if_pos rfl]
    refine mem_completionsAll_opposite fun t ht σ τ => ih t ht ?_
    have hle := negationDepth_le_of_mem ht
    rw [negationDepth] at hdepth
    omega
  | negation => cases hdepth

/-- If no negation is in a negation, one character of the set is consumed. -/
theorem DescribesSet.mem_completions (ht : t.DescribesSet) (hdepth : t.negationDepth ≤ 1) :
    τ ∈ completions false t σ ↔
      ∃ c, σ.peek = some c ∧ t.Has c ∧ τ = σ.advance c.utf8Size := by
  induction ht generalizing σ τ with
  | @atom a ha =>
    rw [completions, Option.mem_toList]
    exact run_eq_some_iff_has ha
  | @charClass members _ ih =>
    rw [completions, if_neg Bool.false_ne_true, mem_completionsAny]
    rw [negationDepth] at hdepth
    constructor
    · rintro ⟨t, ht, hτ⟩
      obtain ⟨c, hc, hhas, hτ⟩ :=
        (ih t ht (Nat.le_trans (negationDepth_le_of_mem ht) hdepth)).1 hτ
      exact ⟨c, hc, hasAny_iff.2 ⟨t, ht, hhas⟩, hτ⟩
    · rintro ⟨c, hc, hhas, hτ⟩
      obtain ⟨t, ht, hhas⟩ := hasAny_iff.1 hhas
      exact ⟨t, ht, (ih t ht (Nat.le_trans (negationDepth_le_of_mem ht) hdepth)).2
        ⟨c, hc, hhas, hτ⟩⟩
  | @negation body hbody =>
    rw [negationDepth] at hdepth
    rw [completions, if_neg Bool.false_ne_true, List.mem_flatMap]
    simp only [hbody.mem_opposite (Nat.le_zero.1 (Nat.le_of_succ_le_succ hdepth)),
      Option.mem_toList]
    constructor
    · rintro ⟨ρ, ⟨rfl, hnot⟩, hτ⟩
      obtain ⟨c, hc, -, rfl⟩ := State.consume_eq_some_iff.1 hτ
      exact ⟨c, hc, hnot c hc, rfl⟩
    · rintro ⟨c, hc, hnot, rfl⟩
      refine ⟨σ, ⟨rfl, fun d hd => ?_⟩, State.consume_eq_some_iff.2 ⟨c, hc, rfl, rfl⟩⟩
      rw [hc] at hd
      cases hd
      exact hnot

/-! ## What is completed at any depth -/

/-- State `τ` is at least one character further on than `σ`. -/
def Past (σ τ : State) : Prop :=
  τ.subject = σ.subject ∧ ∃ c, σ.peek = some c ∧ σ.offset + c.utf8Size ≤ τ.offset

theorem past_advance {c : Char} (hc : σ.peek = some c) : Past σ (σ.advance c.utf8Size) :=
  ⟨rfl, c, hc, Nat.le_refl _⟩

theorem Past.trans {ρ : State} (h : Past σ ρ) (h' : Past ρ τ) : Past σ τ := by
  obtain ⟨hsubject, c, hc, hle⟩ := h
  obtain ⟨hsubject', d, -, hle'⟩ := h'
  exact ⟨hsubject'.trans hsubject, c, hc, by omega⟩

theorem eq_or_past_of_mem_completionsAll {ts : List Regex}
    (h : ∀ t ∈ ts, ∀ σ τ, τ ∈ completions true t σ → τ = σ ∨ Past σ τ)
    (hτ : τ ∈ completionsAll true ts σ) : τ = σ ∨ Past σ τ := by
  induction ts generalizing σ with
  | nil => exact .inl (List.mem_singleton.1 hτ)
  | cons t rest ih =>
    rw [completionsAll, List.mem_flatMap] at hτ
    obtain ⟨ρ, hρ, hτ⟩ := hτ
    have hrest := ih (fun u hu => h u (List.mem_cons_of_mem t hu)) hτ
    rcases h t List.mem_cons_self σ ρ hρ with rfl | hfirst
    · exact hrest
    · rcases hrest with rfl | hrest
      · exact .inr hfirst
      · exact .inr (hfirst.trans hrest)

/-- A tree that describes a set consumes at least one character, and its opposite stays where it is
or does so too. -/
theorem DescribesSet.past (ht : t.DescribesSet) :
    (τ ∈ completions false t σ → Past σ τ) ∧
      (τ ∈ completions true t σ → τ = σ ∨ Past σ τ) := by
  induction ht generalizing σ τ with
  | @atom a ha =>
    constructor
    · intro hτ
      rw [mem_completions (.atom ha) (Nat.zero_le 1)] at hτ
      obtain ⟨c, hc, -, rfl⟩ := hτ
      exact past_advance hc
    · intro hτ
      rw [mem_opposite (.atom ha) rfl] at hτ
      exact .inl hτ.1
  | @charClass members _ ih =>
    constructor
    · intro hτ
      rw [completions, if_neg Bool.false_ne_true, mem_completionsAny] at hτ
      obtain ⟨t, ht, hτ⟩ := hτ
      exact (ih t ht).1 hτ
    · intro hτ
      rw [completions, if_pos rfl] at hτ
      exact eq_or_past_of_mem_completionsAll (fun t ht σ τ => (ih t ht).2) hτ
  | @negation body _ ih =>
    constructor
    · intro hτ
      rw [completions, if_neg Bool.false_ne_true, List.mem_flatMap] at hτ
      obtain ⟨ρ, hρ, hτ⟩ := hτ
      obtain ⟨c, hc, -, rfl⟩ := State.consume_eq_some_iff.1 (Option.mem_toList.1 hτ)
      rcases ih.2 hρ with rfl | hρ
      · exact past_advance hc
      · exact hρ.trans (past_advance hc)
    · intro hτ
      rw [completions, if_pos rfl] at hτ
      exact .inr (ih.1 hτ)

/-- Two negations come to the tree itself and one more character. -/
theorem completions_negation_negation (t : Regex) (σ : State) :
    completions false (.negation (.negation t)) σ =
      (completions false t σ).flatMap fun τ => (Test.anyChar.run τ).toList := by
  rw [completions, if_neg Bool.false_ne_true]
  congr 1

end Regex

/-! ## Searching -/

theorem findSome?_congr {α β : Type} {l : List α} {f g : α → Option β}
    (h : ∀ a ∈ l, f a = g a) : l.findSome? f = l.findSome? g := by
  induction l with
  | nil => rfl
  | cons a l ih =>
    rw [List.findSome?_cons, List.findSome?_cons, h a List.mem_cons_self,
      ih fun b hb => h b (List.mem_cons_of_mem a hb)]

namespace Program

variable {t : Regex} {captures : Nat} {p q : Program}

/-- A search tells where the first completion ends. -/
theorem map_run_span (h : compile t captures = .ok p) (subject : String) (start : Nat) :
    (p.run subject start).map State.span =
      (Text.boundariesFrom subject start).findSome? fun b =>
        (t.completions false (.fresh subject b captures 0)).head?.map State.span := by
  have hspan : State.span ∘ State.unmarked = State.span := rfl
  rw [← hspan, ← Option.map_map, run_of_compile h, List.map_findSome?]
  rfl

/-- Where a completion begins, or further to the left, a search finds one. -/
theorem exists_run_of_mem_completions (h : compile t captures = .ok p) {subject : String}
    {start b : Nat} (hb : start ≤ b) (hbound : Text.isBoundary subject b = true) {ρ : State}
    (hρ : ρ ∈ t.completions false (.fresh subject b captures 0)) :
    ∃ σ, p.run subject start = some σ ∧ σ.start ≤ b := by
  have hspan := map_run_span h subject start
  cases hσ : p.run subject start with
  | none =>
    rw [hσ, Option.map_none, eq_comm, Text.findSome?_boundariesFrom_eq_none] at hspan
    have hnil := hspan b hb hbound
    rw [Option.map_eq_none_iff, List.head?_eq_none_iff] at hnil
    rw [hnil] at hρ
    cases hρ
  | some σ =>
    rw [hσ, Option.map_some, eq_comm] at hspan
    obtain ⟨b', -, -, hfound, hfirst⟩ := Text.exists_of_findSome?_boundariesFrom hspan
    obtain ⟨τ, hτ, hτσ⟩ := Option.map_eq_some_iff.1 hfound
    have hstart : σ.start = b' := (congrArg Span.start hτσ).symm.trans
      (Regex.follows_of_mem_completions (List.mem_of_head? hτ)).start
    refine ⟨σ, rfl, Nat.le_of_not_lt fun hlt => ?_⟩
    have hnil := hfirst b hb (by omega) hbound
    rw [Option.map_eq_none_iff, List.head?_eq_none_iff] at hnil
    rw [hnil] at hρ
    cases hρ

/-- A search for two negations tells the first completion of the tree that a character follows, with
this character. -/
theorem map_run_negation_negation (h : compile (.negation (.negation t)) captures = .ok q)
    (subject : String) (start : Nat) :
    (q.run subject start).map State.span =
      (Text.boundariesFrom subject start).findSome? fun b =>
        (t.completions false (.fresh subject b captures 0)).findSome? fun τ =>
          (Text.after? subject τ.offset).map (Span.mk b) := by
  rw [map_run_span h]
  congr 1
  funext b
  rw [Regex.completions_negation_negation, List.head?_flatMap, List.map_findSome?]
  refine findSome?_congr fun τ hτ => ?_
  have hfollows := Regex.follows_of_mem_completions hτ
  rw [Function.comp_apply, Option.head?_toList]
  show (τ.consume fun _ => true).map State.span = _
  rw [State.consume_any, hfollows.subject, Option.map_map]
  show (Text.after? subject τ.offset).map (Span.mk τ.start) = _
  rw [hfollows.start]
  rfl

/-- What a search for two negations finds. -/
theorem exists_completion_of_run (h : compile (.negation (.negation t)) captures = .ok q)
    {subject : String} {start : Nat} {τ : State} (hτ : q.run subject start = some τ) :
    start ≤ τ.start ∧ Text.isBoundary subject τ.start = true ∧
      ∃ ρ ∈ t.completions false (.fresh subject τ.start captures 0),
        Text.after? subject ρ.offset = some τ.offset := by
  have hspan := map_run_negation_negation h subject start
  rw [hτ, Option.map_some, eq_comm] at hspan
  obtain ⟨b, hb, hbound, hfound, -⟩ := Text.exists_of_findSome?_boundariesFrom hspan
  obtain ⟨ρ, hρ, hafter⟩ := List.exists_of_findSome?_eq_some hfound
  obtain ⟨stop, hstop, hspan⟩ := Option.map_eq_some_iff.1 hafter
  obtain ⟨rfl, rfl⟩ : b = τ.start ∧ stop = τ.offset := by simpa [State.span] using hspan
  exact ⟨hb, hbound, ρ, hρ, hstop⟩

/-- If no negation is in a negation, a search finds the first character of the set. -/
theorem firstWhere_run_of_depth (ht : t.DescribesSet) (hdepth : t.negationDepth ≤ 1)
    (h : compile t captures = .ok p) (subject : String) (start : Nat) :
    Text.FirstWhere t.Has subject start ((p.run subject start).map State.span) := by
  have hspan := map_run_span h subject start
  have hmem : ∀ b c, Text.charAt? subject b = some c → t.Has c →
      (t.completions false (.fresh subject b captures 0)).head?.map State.span ≠ none := by
    intro b c hc hhas hnone
    rw [Option.map_eq_none_iff, List.head?_eq_none_iff] at hnone
    have := (ht.mem_completions hdepth (σ := .fresh subject b captures 0)).2 ⟨c, hc, hhas, rfl⟩
    rw [hnone] at this
    cases this
  cases hx : (p.run subject start).map State.span with
  | none =>
    rw [hx, eq_comm, Text.findSome?_boundariesFrom_eq_none] at hspan
    intro j d hj hd hhas
    exact hmem j d hd hhas (hspan j hj (Text.isBoundary_of_charAt? hd))
  | some x =>
    rw [hx, eq_comm] at hspan
    obtain ⟨b, hb, -, hfound, hfirst⟩ := Text.exists_of_findSome?_boundariesFrom hspan
    obtain ⟨τ, hτ, rfl⟩ := Option.map_eq_some_iff.1 hfound
    obtain ⟨c, hc, hhas, rfl⟩ := (ht.mem_completions hdepth).1 (List.mem_of_head? hτ)
    refine ⟨c, hb, hc, hhas, rfl, fun j d hj hlt hd hhas => ?_⟩
    exact hmem j d hd hhas (hfirst j hj hlt (Text.isBoundary_of_charAt? hd))

/-- **Two negations.**  By its plain meaning, a tree that describes a set matches the same without
two negations around it.  But a search for the two negations finds a completion of the tree that a
character follows, and takes this character as well: it never finds a single character, and it finds
nothing where the tree is not found.  If moreover no negation of the tree is in another one, the
tree is found as the first character of its set, two negations as two characters, and the searches
agree only where nothing is found. -/
theorem run_negation_negation (ht : t.DescribesSet) (hp : compile t captures = .ok p)
    (hq : compile (.negation (.negation t)) captures = .ok q) (subject : String) (start : Nat) :
    (∀ i j, (Regex.negation (.negation t)).Matches subject i j ↔ t.Matches subject i j) ∧
    (q.run subject start).map State.span =
      (Text.boundariesFrom subject start).findSome? (fun b =>
        (t.completions false (.fresh subject b captures 0)).findSome? fun τ =>
          (Text.after? subject τ.offset).map (Span.mk b)) ∧
    (∀ τ, q.run subject start = some τ → ∃ σ c, p.run subject start = some σ ∧
      σ.start ≤ τ.start ∧ Text.charAt? subject τ.start = some c ∧
      τ.start + c.utf8Size < τ.offset) ∧
    (t.negationDepth ≤ 1 →
      Text.FirstWhere t.Has subject start ((p.run subject start).map State.span) ∧
      (∀ τ, q.run subject start = some τ → ∃ c d, Text.charAt? subject τ.start = some c ∧ t.Has c ∧
        Text.charAt? subject (τ.start + c.utf8Size) = some d ∧
        τ.offset = τ.start + c.utf8Size + d.utf8Size) ∧
      ((q.run subject start).map State.span = (p.run subject start).map State.span ↔
        p.run subject start = none)) := by
  have hlonger : ∀ τ, q.run subject start = some τ → ∃ σ c, p.run subject start = some σ ∧
      σ.start ≤ τ.start ∧ Text.charAt? subject τ.start = some c ∧
      τ.start + c.utf8Size < τ.offset := by
    intro τ hτ
    obtain ⟨hb, hbound, ρ, hρ, hafter⟩ := exists_completion_of_run hq hτ
    obtain ⟨σ, hσ, hle⟩ := exists_run_of_mem_completions hp hb hbound hρ
    obtain ⟨-, c, hc, hpast⟩ := ht.past.1 hρ
    obtain ⟨d, -, hd⟩ := Option.map_eq_some_iff.1 hafter
    have hpos := d.utf8Size_pos
    have hpast : τ.start + c.utf8Size ≤ ρ.offset := hpast
    exact ⟨σ, c, hσ, hle, hc, by omega⟩
  refine ⟨fun i j => ?_, map_run_negation_negation hq subject start, hlonger, fun hdepth => ?_⟩
  · rw [ht.negation.negation.matches_iff, ht.matches_iff]
    simp only [Regex.Has, Classical.not_not]
  · have hfirst := firstWhere_run_of_depth ht hdepth hp subject start
    refine ⟨hfirst, fun τ hτ => ?_, fun hsame => ?_, fun hnone => ?_⟩
    · obtain ⟨-, -, ρ, hρ, hafter⟩ := exists_completion_of_run hq hτ
      obtain ⟨c, hc, hhas, rfl⟩ := (ht.mem_completions hdepth).1 hρ
      obtain ⟨d, hd, hoffset⟩ := Option.map_eq_some_iff.1 hafter
      exact ⟨c, d, hc, hhas, hd, hoffset.symm⟩
    · cases hσ : p.run subject start with
      | none => rfl
      | some σ =>
        rw [hσ, Option.map_some, Option.map_eq_some_iff] at hsame
        rw [hσ] at hfirst
        obtain ⟨τ, hτ, hspan⟩ := hsame
        obtain ⟨c, -, hc, -, hstop, -⟩ := hfirst
        obtain ⟨-, d, -, -, hd, hlt⟩ := hlonger τ hτ
        have hstart : τ.start = σ.start := congrArg Span.start hspan
        have hoffset : τ.offset = σ.offset := congrArg Span.stop hspan
        have hc : Text.charAt? subject σ.start = some c := hc
        have hstop : σ.offset = σ.start + c.utf8Size := hstop
        rw [hstart, hc] at hd
        cases hd
        omega
    · cases hτ : q.run subject start with
      | none => rw [hnone]
      | some τ =>
        obtain ⟨σ, c, hσ, -⟩ := hlonger τ hτ
        rw [hnone] at hσ
        cases hσ

/-- A class with a negated class in it, that is `a` or neither a digit nor `b`.  Before another
character one search finds one character and the other two, and at the end only one of them finds
anything. -/
theorem run_negation_negation_of_class :
    let t : Regex := .charClass [.char 'a',
      .negation (.charClass [.atom (.metachar .digit), .char 'b'])]
    ∃ p q, compile t 0 = .ok p ∧ compile (.negation (.negation t)) 0 = .ok q ∧
      t.DescribesSet ∧ t.negationDepth = 1 ∧
      (p.run "1éb" 0).map State.span = some ⟨1, 3⟩ ∧
      (q.run "1éb" 0).map State.span = some ⟨1, 4⟩ ∧
      q.run "1é" 0 = none ∧
      ¬ (q.run "1é" 0).map State.span = (p.run "1é" 0).map State.span := by
  intro t
  have hp : compile t 0 = .ok ⟨t.graph 0, t.graph_halts 0⟩ := if_neg (by decide)
  have hq : compile (.negation (.negation t)) 0 =
      .ok ⟨Regex.graph (.negation (.negation t)) 0,
        Regex.graph_halts (.negation (.negation t)) 0⟩ := if_neg (by decide)
  have hdigit : Regex.DescribesSet (.charClass [.atom (.metachar .digit), .char 'b']) := by
    refine .charClass fun u hu => ?_
    simp only [List.mem_cons, List.not_mem_nil, or_false] at hu
    rcases hu with rfl | rfl
    · exact .atom rfl
    · exact .atom rfl
  have ht : t.DescribesSet := by
    refine .charClass fun u hu => ?_
    simp only [List.mem_cons, List.not_mem_nil, or_false] at hu
    rcases hu with rfl | rfl
    · exact .atom rfl
    · exact hdigit.negation
  have hdepth : t.negationDepth = 1 := by decide
  have hone : ∀ subject, ((⟨t.graph 0, t.graph_halts 0⟩ : Program).run subject 0).map State.span =
      _ := fun subject => map_run_span hp subject 0
  obtain ⟨-, htwo, -⟩ := run_negation_negation ht hp hq "1éb" 0
  obtain ⟨-, hend, -, hflat⟩ := run_negation_negation ht hp hq "1é" 0
  refine ⟨_, _, hp, hq, ht, hdepth, ?_, ?_, ?_, ?_⟩
  · rw [hone]
    decide +kernel
  · rw [htwo]
    decide +kernel
  · rw [← Option.map_eq_none_iff (f := State.span), hend]
    decide +kernel
  · rw [(hflat (Nat.le_of_eq hdepth)).2.2, ← Option.map_eq_none_iff (f := State.span), hone]
    decide +kernel

end Program

end Backtrack
