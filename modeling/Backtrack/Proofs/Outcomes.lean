import Backtrack.Pattern
import Backtrack.Proofs.Frame
import Backtrack.Proofs.Reading

/-!
# Ordered backtracking

`Regex.outcomes subject t o` is what it means to match tree `t` from where `o` stands, with
nothing of the machine left in it: the places where the match can end, and what the groups
have matched by then, in the order in which backtracking comes to them.

Main statement: `Pattern.run_eq_outcomes`, the search for a pattern tells the first outcome
at the first boundary at which there is one.  It is put together from:

    the completions of a tree, seen from outside       (map_completions)
    the completions that a search tells                (Program.run_of_compile)
-/

namespace Backtrack

/-- How far a match has come, and what each group has matched so far. -/
structure Outcome where
  offset : Nat
  captures : List (Option Span)
deriving DecidableEq, Repr

namespace Regex

mutual

/-- What a tree can match from where `o` stands, the preferred outcome in front. -/
def outcomes (subject : String) : Regex → Outcome → List Outcome
  | .atom a, o => (a.step? subject o.offset).toList.map fun i => { o with offset := i }
  | .seq items, o => outcomesAll subject items o
  | .alt branches, o => outcomesAny subject branches o
  | .charClass members, o => outcomesAny subject members o
  | .negation body, o =>
    if (outcomes subject body o).isEmpty then
      (Text.after? subject o.offset).toList.map fun i => { o with offset := i }
    else []
  | .group slot body, o =>
    (outcomes subject body o).map fun r =>
      { r with captures := r.captures.set slot (some ⟨o.offset, r.offset⟩) }
  | .repeated body count, o =>
    count.repeats (fun r => subject.utf8ByteSize - r.offset) (outcomes subject body) o

/-- The outcomes of trees in a row. -/
def outcomesAll (subject : String) : List Regex → Outcome → List Outcome
  | [], o => [o]
  | t :: rest, o => (outcomes subject t o).flatMap (outcomesAll subject rest)

/-- The outcomes of trees side by side. -/
def outcomesAny (subject : String) : List Regex → Outcome → List Outcome
  | [], _ => []
  | t :: rest, o => outcomes subject t o ++ outcomesAny subject rest o

end

end Regex

/-! ## States, seen from outside -/

/-- How far the state has come, and what its groups have matched. -/
def State.outcome (σ : State) : Outcome := ⟨σ.offset, σ.captures⟩

theorem State.captures_openSlot (σ : State) (i : Nat) : (σ.openSlot i).captures = σ.captures := by
  unfold captures
  apply List.ext_getElem?
  intro j
  simp only [openSlot, List.getElem?_map, Array.getElem?_toList, Array.getElem?_modify]
  by_cases hij : i = j
  · rw [if_pos hij, Option.map_map]
    rfl
  · rw [if_neg hij]

/-- A group that began at `start` has matched what lies between there and here. -/
theorem State.captures_closeSlot {σ : State} {i start : Nat}
    (h : ∀ s, σ.slots[i]? = some s → s.opened = some start) :
    (σ.closeSlot i).captures = σ.captures.set i (some ⟨start, σ.offset⟩) := by
  unfold captures
  apply List.ext_getElem?
  intro j
  simp only [closeSlot, List.getElem?_map, Array.getElem?_toList, Array.getElem?_modify,
    List.getElem?_set, List.length_map, Array.length_toList]
  by_cases hij : i = j
  · subst hij
    rw [if_pos rfl, if_pos rfl]
    cases hs : σ.slots[i]? with
    | none => rw [if_neg (by have := Array.getElem?_eq_none_iff.1 hs; omega)]; rfl
    | some s =>
      obtain ⟨hlt, -⟩ := Array.getElem?_eq_some_iff.1 hs
      rw [if_pos hlt, Option.map_some, Option.map_some, Slot.close, h s hs]
  · rw [if_neg hij, if_neg hij]

namespace Regex

variable {subject : String}

/-! ## Lists of trees -/

theorem map_completionsAll {ts : List Regex}
    (ih : ∀ t ∈ ts, ∀ σ, σ.subject = subject →
      (completions false t σ).map State.outcome = outcomes subject t σ.outcome)
    {σ : State} (hσ : σ.subject = subject) :
    (completionsAll false ts σ).map State.outcome = outcomesAll subject ts σ.outcome := by
  induction ts generalizing σ with
  | nil => rfl
  | cons t rest ihts =>
    rw [completionsAll, outcomesAll, ← ih t (by simp) σ hσ]
    refine Quantifier.map_flatMap_of_forall fun τ hτ => ?_
    refine ihts (fun t ht => ih t (by simp [ht])) ?_
    rw [(follows_of_mem_completions hτ).subject, hσ]

theorem map_completionsAny {ts : List Regex}
    (ih : ∀ t ∈ ts, ∀ σ, σ.subject = subject →
      (completions false t σ).map State.outcome = outcomes subject t σ.outcome)
    {σ : State} (hσ : σ.subject = subject) :
    (completionsAny false ts σ).map State.outcome = outcomesAny subject ts σ.outcome := by
  induction ts with
  | nil => rfl
  | cons t rest ihts =>
    rw [completionsAny, outcomesAny, List.map_append, ih t (by simp) σ hσ,
      ihts fun t ht => ih t (by simp [ht])]

/-! ## Atoms and classes -/

theorem map_completions_atom (a : Atom) {σ : State} (hσ : σ.subject = subject) :
    (completions false (.atom a) σ).map State.outcome = outcomes subject (.atom a) σ.outcome := by
  subst hσ
  rw [completions, outcomes]
  show (a.run σ).toList.map _ = _
  rw [a.run_eq_step? σ]
  show _ = (a.step? σ.subject σ.offset).toList.map _
  cases a.step? σ.subject σ.offset <;> rfl

/-- The opposites of all members of a class hold where the class has no outcome. -/
theorem completionsAll_opposite (atoms : List Atom) (σ : State) :
    completionsAll true (atoms.map .atom) σ =
      if (outcomesAny σ.subject (atoms.map .atom) σ.outcome).isEmpty then [σ] else [] := by
  induction atoms with
  | nil => rfl
  | cons a rest ih =>
    rw [List.map_cons, completionsAll, outcomesAny, ← map_completions_atom a rfl, completions,
      completions]
    cases h : a.run σ with
    | none => simpa [Automaton.run, Test.run, h] using ih
    | some τ => simp [Automaton.run, Test.run, h]

theorem map_completions_negation (atoms : List Atom) {σ : State} (hσ : σ.subject = subject) :
    (completions false (.negation (.charClass (atoms.map .atom))) σ).map State.outcome =
      outcomes subject (.negation (.charClass (atoms.map .atom))) σ.outcome := by
  subst hσ
  rw [completions, outcomes, if_neg Bool.false_ne_true, completions, if_pos rfl, outcomes,
    completionsAll_opposite]
  by_cases h : (outcomesAny σ.subject (atoms.map .atom) σ.outcome).isEmpty
  · rw [if_pos h, if_pos h, List.flatMap_singleton]
    show (σ.consume fun _ => true).toList.map _ = _
    rw [σ.consume_any]
    show _ = (Text.after? σ.subject σ.offset).toList.map _
    cases Text.after? σ.subject σ.offset <;> rfl
  · rw [if_neg h, if_neg h]
    rfl

/-! ## Trees -/

theorem map_completions_group {slot : Nat} {body : Regex} (hslot : slot ∉ body.slots)
    (ih : ∀ σ : State, σ.subject = subject →
      (completions false body σ).map State.outcome = outcomes subject body σ.outcome)
    {σ : State} (hσ : σ.subject = subject) :
    (completions false (.group slot body) σ).map State.outcome =
      outcomes subject (.group slot body) σ.outcome := by
  have hopen : (σ.openSlot slot).outcome = σ.outcome := by
    unfold State.outcome
    rw [σ.captures_openSlot slot]
    rfl
  rw [completions, outcomes, ← hopen, ← ih (σ.openSlot slot) hσ, List.map_map, List.map_map]
  refine List.map_congr_left fun τ hτ => ?_
  have hkept := (follows_of_mem_completions hτ).kept slot hslot
  have hopened : ∀ s, τ.slots[slot]? = some s → s.opened = some σ.offset := by
    intro s hs
    rw [hkept] at hs
    simp only [State.openSlot, Array.getElem?_modify, if_true, Option.map_eq_some_iff] at hs
    obtain ⟨s', -, rfl⟩ := hs
    rfl
  show Outcome.mk _ _ = Outcome.mk _ _
  rw [State.captures_closeSlot hopened]
  rfl

/-- The completions of a tree, seen from outside, are its outcomes. -/
theorem map_completions {t : Regex} (ht : t.Plain) (hslots : t.slots.Nodup)
    {σ : State} (hσ : σ.subject = subject) :
    (completions false t σ).map State.outcome = outcomes subject t σ.outcome := by
  induction ht generalizing σ with
  | atom a => exact map_completions_atom a hσ
  | seq _ ih =>
    rw [completions, outcomes, if_neg Bool.false_ne_true]
    exact map_completionsAll (fun t ht σ => ih t ht (nodup_of_mem hslots t ht)) hσ
  | alt _ ih =>
    rw [completions, outcomes, if_neg Bool.false_ne_true]
    exact map_completionsAny (fun t ht σ => ih t ht (nodup_of_mem hslots t ht)) hσ
  | charClass atoms =>
    rw [completions, outcomes, if_neg Bool.false_ne_true]
    refine map_completionsAny (fun t ht σ hσ => ?_) hσ
    obtain ⟨a, -, rfl⟩ := List.mem_map.1 ht
    exact map_completions_atom a hσ
  | negation atoms => exact map_completions_negation atoms hσ
  | group slot _ ih =>
    rw [slots, List.nodup_cons] at hslots
    exact map_completions_group hslots.1 (fun σ => ih hslots.2) hσ
  | repeated _ _ ih =>
    rw [completions, outcomes]
    refine Quantifier.map_repeats (P := fun τ => τ.subject = subject) _ ?_ ?_ ?_ hσ
    · intro ρ hρ τ hτ
      rw [(follows_of_mem_completions hτ).subject, hρ]
    · exact fun ρ hρ => ih hslots hρ
    · intro ρ hρ
      rw [State.left, hρ]
      rfl

end Regex

/-! ## Searching -/

theorem State.outcome_fresh (subject : String) (b groups marks : Nat) :
    (fresh subject b groups marks).outcome = ⟨b, List.replicate groups none⟩ := by
  unfold outcome captures fresh
  rw [Array.toList_replicate, List.map_replicate]
  rfl

/-- What can be seen of a match: the text it is in, where it began and the outcome. -/
def State.seen (σ : State) : String × Nat × Outcome := (σ.subject, σ.start, σ.outcome)

/-- The search for a well-formed tree tells its first outcome. -/
theorem Program.map_run_seen {t : Regex} {groups : Nat} {p : Program} (ht : t.WellFormed groups)
    (hp : compile t groups = .ok p) (subject : String) (start : Nat) :
    (p.run subject start).map State.seen =
      (Text.boundariesFrom subject start).findSome? fun b =>
        (t.outcomes subject ⟨b, List.replicate groups none⟩).head?.map fun o =>
          (subject, b, o) := by
  have hrun := run_of_compile hp subject start
  have hseen : State.seen ∘ State.unmarked = State.seen := rfl
  rw [← hseen, ← Option.map_map, hrun, List.map_findSome?]
  congr
  funext b
  have hmap := Regex.map_completions ht.plain ht.nodup
    (show (State.fresh subject b groups 0).subject = subject from rfl)
  rw [State.outcome_fresh] at hmap
  rw [Function.comp_apply, ← hmap]
  cases hc : t.completions false (.fresh subject b groups 0) with
  | nil => rfl
  | cons τ rest =>
    have hτ : τ ∈ t.completions false (.fresh subject b groups 0) := by simp [hc]
    have hfollows := Regex.follows_of_mem_completions hτ
    simp only [List.head?_cons, Option.map_some, List.map_cons, State.seen, hfollows.subject,
      hfollows.start]
    rfl

/-- What a pattern has been read from. -/
theorem Pattern.parse_eq_ok {text : String} {p : Pattern} (h : ofString text = .ok p) :
    Regex.parse text = .ok ⟨p.root, p.captures.length⟩ := by
  obtain ⟨groups, hparse, -, -, hcaptures⟩ := ofString_eq_ok_iff.1 h
  rw [hparse, hcaptures, Parsed.captures, List.length_map, List.length_range]

/-- What a search finds is the first outcome at the first boundary where there is one. -/
theorem Pattern.map_findFrom {text : String} {p : Pattern} (h : ofString text = .ok p)
    {α : Type} (f : Span → List (Option Span) → α) (subject : String) (start : Nat) :
    ((p.findFrom subject start).map fun m => f m.span m.groups) =
      (Text.boundariesFrom subject start).findSome? fun b =>
        (p.root.outcomes subject ⟨b, List.replicate p.captures.length none⟩).head?.map fun o =>
          f ⟨b, o.offset⟩ o.captures := by
  obtain ⟨groups, hparse, hcompile, -, -⟩ := ofString_eq_ok_iff.1 h
  have hseen := Program.map_run_seen (Regex.wellFormed_of_parse hparse) hcompile subject start
  obtain rfl : p.captures.length = groups :=
    congrArg Parsed.groups (Except.ok.inj ((parse_eq_ok h).symm.trans hparse))
  have hview : ((p.findFrom subject start).map fun m => f m.span m.groups) =
      ((p.program.run subject start).map State.seen).map fun (_, b, o) =>
        f ⟨b, o.offset⟩ o.captures := by
    unfold findFrom
    rw [Option.map_map, Option.map_map]
    rfl
  rw [hview, hseen, List.map_findSome?]
  simp only [Function.comp_def, Option.map_map]

/-- **Ordered backtracking.**  The search for a pattern tells the first outcome of its tree at
the first boundary at which there is one. -/
theorem Pattern.run_eq_outcomes {text : String} {p : Pattern} (h : ofString text = .ok p)
    (subject : String) (start : Nat) :
    (p.program.run subject start).map (fun σ => (σ.subject, σ.start, σ.outcome)) =
      (Text.boundariesFrom subject start).findSome? fun b =>
        (p.root.outcomes subject ⟨b, List.replicate p.captures.length none⟩).head?.map fun o =>
          (subject, b, o) := by
  obtain ⟨groups, hparse, hcompile, -, hcaptures⟩ := ofString_eq_ok_iff.1 h
  have hlength : p.captures.length = groups := by
    rw [hcaptures, Parsed.captures, List.length_map, List.length_range]
  rw [hlength]
  exact Program.map_run_seen (Regex.wellFormed_of_parse hparse) hcompile subject start

/-- A lazy loop in a greedy one, whose last round matches nothing, and a choice that has to be
taken back. -/
theorem Pattern.run_eq_outcomes_nested_loops :
    ∃ p, ofString "(a*?)*(b|bc){1,2}$" = .ok p ∧
      (p.program.run "xaabcb" 0).map (fun σ => (σ.subject, σ.start, σ.outcome)) =
        some ("xaabcb", 1, ⟨6, [some ⟨3, 3⟩, some ⟨5, 6⟩]⟩) := by
  let t : Regex := .seq [
    .repeated (.group 0 (.seq [.repeated (.char 'a') ⟨0, none, true⟩])) ⟨0, none, false⟩,
    .repeated (.group 1 (.alt [.seq [.char 'b'], .seq [.char 'b', .char 'c']])) ⟨1, some 2, false⟩,
    .atom .lineEnd]
  have hparse : Regex.parse "(a*?)*(b|bc){1,2}$" = .ok ⟨t, 2⟩ := rfl
  obtain ⟨p, hp, hroot, hcaptures⟩ := exists_ofString_eq_ok hparse (by decide)
  refine ⟨p, hp, ?_⟩
  rw [run_eq_outcomes hp, hroot, hcaptures]
  decide +kernel

end Backtrack
