import Backtrack.Proofs.Frame
import Backtrack.Proofs.SizeLimit

/-!
# Groups only observe

What groups remember has no say in what is matched.  `Regex.dropGroups n t` is tree `t` with the
groups whose slots are `n` or later ones replaced by their bodies, and `State.keepSlots n σ` is
state `σ` without these slots:

    without the slots of its groups, a tree is one without them   (Regex.completions_dropGroups)
    so are all searches, however many slots there are             (Program.run_keepSlots)

Main statement: `Program.groups_observe`, it makes no difference to the place of a match how many
groups are remembered, or whether there are any.
-/

namespace Backtrack

/-! ## States with fewer slots -/

namespace State

/-- The state with nothing but its first `n` slots. -/
def keepSlots (n : Nat) (σ : State) : State := { σ with slots := σ.slots.take n }

theorem keepSlots_of_size_le {n : Nat} {σ : State} (h : σ.slots.size ≤ n) :
    σ.keepSlots n = σ := by
  unfold keepSlots
  rw [Array.take_eq_extract, Array.extract_eq_self_of_le h]

theorem captures_keepSlots (n : Nat) (σ : State) :
    (σ.keepSlots n).captures = σ.captures.take n := by
  unfold captures keepSlots
  rw [Array.take_eq_extract, Array.toList_extract, List.extract_eq_take_drop, List.map_take]
  rfl

/-- A change of one slot changes the same one of the slots that are kept. -/
theorem modify_keepSlots (slots : Array Slot) (n i : Nat) (f : Slot → Slot) :
    (slots.modify i f).take n = (slots.take n).modify i f := by
  apply Array.ext_getElem?
  intro j
  simp only [Array.take_eq_extract, Array.getElem?_extract, Array.getElem?_modify,
    Array.size_modify]
  by_cases hj : j < min n slots.size - 0
  · rw [if_pos hj, if_pos hj, Nat.zero_add]
  · rw [if_neg hj, if_neg hj, Option.map_none, ite_self]

variable (n i : Nat) (σ : State)

theorem openSlot_keepSlots : (σ.openSlot i).keepSlots n = (σ.keepSlots n).openSlot i := by
  unfold openSlot keepSlots
  rw [modify_keepSlots]

theorem closeSlot_keepSlots : (σ.closeSlot i).keepSlots n = (σ.keepSlots n).closeSlot i := by
  unfold closeSlot keepSlots
  rw [modify_keepSlots]

variable {n i}

/-- A slot that is not kept can be changed in any way. -/
theorem take_modify_of_le (slots : Array Slot) (h : n ≤ i) (f : Slot → Slot) :
    (slots.modify i f).take n = slots.take n := by
  apply Array.ext_getElem?
  intro j
  simp only [Array.take_eq_extract, Array.getElem?_extract, Array.getElem?_modify,
    Array.size_modify]
  by_cases hj : j < min n slots.size - 0
  · rw [if_pos hj, if_pos hj, if_neg (by omega)]
  · rw [if_neg hj, if_neg hj]

theorem openSlot_keepSlots_of_le (h : n ≤ i) : (σ.openSlot i).keepSlots n = σ.keepSlots n := by
  unfold openSlot keepSlots
  rw [take_modify_of_le _ h]

theorem closeSlot_keepSlots_of_le (h : n ≤ i) : (σ.closeSlot i).keepSlots n = σ.keepSlots n := by
  unfold closeSlot keepSlots
  rw [take_modify_of_le _ h]

end State

/-! ## Trees with fewer groups -/

namespace Regex

mutual

/-- The tree with the groups whose slots are `n` or later ones replaced by their bodies: from slot
0 on, all groups. -/
def dropGroups (n : Nat) : Regex → Regex
  | .atom a => .atom a
  | .seq items => .seq (dropGroupsAll n items)
  | .alt branches => .alt (dropGroupsAll n branches)
  | .charClass members => .charClass (dropGroupsAll n members)
  | .negation body => .negation (dropGroups n body)
  | .group slot body => if slot < n then .group slot (dropGroups n body) else dropGroups n body
  | .repeated body count => .repeated (dropGroups n body) count

/-- The trees with these groups replaced by their bodies. -/
def dropGroupsAll (n : Nat) : List Regex → List Regex
  | [] => []
  | t :: rest => dropGroups n t :: dropGroupsAll n rest

end

variable {n : Nat} {negated : Bool}

theorem weightOf_dropGroupsAll_le {ts : List Regex}
    (ih : ∀ t ∈ ts, (t.dropGroups n).weight ≤ t.weight) :
    weightOf (dropGroupsAll n ts) ≤ weightOf ts := by
  induction ts with
  | nil => exact Nat.le_refl 0
  | cons t rest ihts =>
    rw [dropGroupsAll, weightOf, weightOf]
    exact Nat.add_le_add (ih t (by simp)) (ihts fun t ht => ih t (by simp [ht]))

/-- A tree weighs no more without groups. -/
theorem weight_dropGroups_le (t : Regex) (n : Nat) : (t.dropGroups n).weight ≤ t.weight := by
  induction t with
  | atom a => exact Nat.le_refl 1
  | seq items ih => exact Nat.add_le_add_left (weightOf_dropGroupsAll_le ih) 2
  | alt branches ih => exact Nat.add_le_add_left (weightOf_dropGroupsAll_le ih) 2
  | charClass members ih => exact Nat.add_le_add_left (weightOf_dropGroupsAll_le ih) 2
  | negation body ih => exact Nat.add_le_add_right ih 1
  | group slot body ih =>
    rw [dropGroups, weight]
    split
    · exact Nat.add_le_add_right ih 2
    · exact Nat.le_trans ih (Nat.le_add_right _ 2)
  | repeated body count ih =>
    exact Nat.add_le_add_right (Nat.mul_le_mul_left count.copies ih) 6

/-! ## Completions -/

/-- With `n` slots kept, the tree `t` is completed as `t.dropGroups n` is. -/
def Drops (n : Nat) (t : Regex) : Prop :=
  ∀ negated σ, (completions negated t σ).map (State.keepSlots n) =
    completions negated (t.dropGroups n) (σ.keepSlots n)

theorem completionsAll_dropGroups {ts : List Regex} (ih : ∀ t ∈ ts, t.Drops n) (σ : State) :
    (completionsAll negated ts σ).map (State.keepSlots n) =
      completionsAll negated (dropGroupsAll n ts) (σ.keepSlots n) := by
  induction ts generalizing σ with
  | nil => rfl
  | cons t rest ihts =>
    rw [completionsAll, dropGroupsAll, completionsAll, ← ih t (by simp)]
    exact Quantifier.map_flatMap_of_forall fun τ _ => ihts (fun t ht => ih t (by simp [ht])) τ

theorem completionsAny_dropGroups {ts : List Regex} (ih : ∀ t ∈ ts, t.Drops n) (σ : State) :
    (completionsAny negated ts σ).map (State.keepSlots n) =
      completionsAny negated (dropGroupsAll n ts) (σ.keepSlots n) := by
  induction ts with
  | nil => rfl
  | cons t rest ihts =>
    rw [completionsAny, dropGroupsAll, completionsAny, List.map_append, ih t (by simp),
      ihts fun t ht => ih t (by simp [ht])]

theorem drops_atom (a : Atom) : Drops n (.atom a) := by
  intro negated σ
  have hrun : a.run (σ.keepSlots n) = (a.run σ).map (State.keepSlots n) := by
    rw [a.run_eq_step?, a.run_eq_step?, Option.map_map]
    rfl
  rw [dropGroups, completions, completions]
  cases negated with
  | false =>
    show (a.run σ).toList.map _ = (a.run (σ.keepSlots n)).toList
    rw [hrun, Option.toList_map]
  | true =>
    simp only [Automaton.run, Test.run, if_true, hrun]
    cases a.run σ <;> rfl

theorem drops_negation {body : Regex} (ih : body.Drops n) : Drops n (.negation body) := by
  intro negated σ
  rw [dropGroups, completions, completions]
  cases negated with
  | true => exact ih false σ
  | false =>
    simp only [Bool.false_eq_true, if_false]
    rw [← ih true]
    refine Quantifier.map_flatMap_of_forall fun τ _ => ?_
    show (τ.consume fun _ => true).toList.map _ = ((τ.keepSlots n).consume fun _ => true).toList
    rw [State.consume_any, State.consume_any, ← Option.toList_map, Option.map_map]
    rfl

/-- A group whose slot is kept commutes with leaving out the others, and one whose slot is not kept
does nothing. -/
theorem drops_group {slot : Nat} {body : Regex} (ih : body.Drops n) :
    Drops n (.group slot body) := by
  intro negated σ
  rw [completions, List.map_map, dropGroups]
  split
  · have hclose : State.keepSlots n ∘ (fun τ => τ.closeSlot slot) =
        (fun τ => τ.closeSlot slot) ∘ State.keepSlots n :=
      funext fun τ => τ.closeSlot_keepSlots n slot
    rw [hclose, ← List.map_map, ih, σ.openSlot_keepSlots, completions]
  · next hslot =>
    have hclose : State.keepSlots n ∘ (fun τ => τ.closeSlot slot) = State.keepSlots n :=
      funext fun τ => τ.closeSlot_keepSlots_of_le (Nat.le_of_not_lt hslot)
    rw [hclose, ih, σ.openSlot_keepSlots_of_le (Nat.le_of_not_lt hslot)]

/-- **Without slots, no groups.**  The completions of a tree, with nothing but the first `n` slots,
are those of the tree without the groups of later slots. -/
theorem completions_dropGroups (t : Regex) (n : Nat) : t.Drops n := by
  induction t with
  | atom a => exact drops_atom a
  | seq items ih =>
    intro negated σ
    rw [dropGroups, completions, completions]
    split
    · exact completionsAny_dropGroups ih σ
    · exact completionsAll_dropGroups ih σ
  | alt branches ih =>
    intro negated σ
    rw [dropGroups, completions, completions]
    split
    · exact completionsAll_dropGroups ih σ
    · exact completionsAny_dropGroups ih σ
  | charClass members ih =>
    intro negated σ
    rw [dropGroups, completions, completions]
    split
    · exact completionsAll_dropGroups ih σ
    · exact completionsAny_dropGroups ih σ
  | negation body ih => exact drops_negation ih
  | group slot body ih => exact drops_group ih
  | repeated body count ih =>
    intro negated σ
    rw [dropGroups, completions, completions]
    have hleft : ∀ τ : State, True → τ.left = (τ.keepSlots n).left := fun _ _ => rfl
    exact Quantifier.map_repeats (P := fun _ => True) count (fun _ _ _ _ => trivial)
      (fun τ _ => ih negated τ) hleft trivial

/-- Groups that have no slots do nothing. -/
theorem completions_dropGroups_of_size_le (t : Regex) {σ : State} (h : σ.slots.size ≤ n) :
    completions negated (t.dropGroups n) σ = completions negated t σ := by
  have hkeep : ∀ τ ∈ completions negated t σ, τ.keepSlots n = τ := by
    intro τ hτ
    apply State.keepSlots_of_size_le
    rw [(follows_of_mem_completions hτ).size]
    exact h
  have hdrop := t.completions_dropGroups n negated σ
  rw [State.keepSlots_of_size_le h] at hdrop
  rw [← hdrop, List.map_congr_left hkeep, List.map_id']

end Regex

/-! ## Searching -/

namespace Program

variable {t : Regex} {n captures : Nat} {p : Program}

/-- A search of which only the first `n` slots are seen finds what it would find with no others. -/
theorem run_keepSlots (h : compile t captures = .ok p) (hle : n ≤ captures) (subject : String)
    (start : Nat) :
    (p.run subject start).map (fun σ => σ.unmarked.keepSlots n) =
      (Text.boundariesFrom subject start).findSome? fun b =>
        (t.completions false (.fresh subject b n 0)).head? := by
  have hfresh : ∀ b, (State.fresh subject b captures 0).keepSlots n = .fresh subject b n 0 := by
    intro b
    unfold State.keepSlots State.fresh
    rw [Array.take_eq_extract, Array.extract_replicate, Nat.sub_zero, Nat.min_eq_left hle]
  have hsize : ∀ b, (State.fresh subject b n 0).slots.size ≤ n := fun b =>
    Nat.le_of_eq Array.size_replicate
  have hview : (fun σ : State => σ.unmarked.keepSlots n) = State.keepSlots n ∘ State.unmarked := rfl
  rw [hview, ← Option.map_map, run_of_compile h, List.map_findSome?]
  congr
  funext b
  rw [Function.comp_apply, ← List.head?_map, t.completions_dropGroups n, hfresh,
    t.completions_dropGroups_of_size_le (hsize b)]

/-- **Groups only observe.**  Let a tree be compiled with some groups remembered.  With more of
them remembered it can be compiled too, all searches find matches at the same places, and the first
groups have matched the same.  And with all its groups replaced by their bodies the tree can be
compiled, whatever number of groups is remembered, and all searches find matches at the same
places. -/
theorem groups_observe (h : compile t captures = .ok p) {more : Nat} (hle : captures ≤ more)
    (m : Nat) :
    ∃ q r, compile t more = .ok q ∧ compile (t.dropGroups 0) m = .ok r ∧
      ∀ subject start,
        (p.run subject start).map (fun σ => (σ.start, σ.offset, σ.captures)) =
          (q.run subject start).map (fun σ => (σ.start, σ.offset, σ.captures.take captures)) ∧
        (p.run subject start).map (fun σ => (σ.start, σ.offset)) =
          (r.run subject start).map (fun σ => (σ.start, σ.offset)) := by
  obtain ⟨q, hq⟩ := exists_compile_of_weight_le h (Nat.le_refl _) more
  obtain ⟨r, hr⟩ := exists_compile_of_weight_le h (t.weight_dropGroups_le 0) m
  refine ⟨q, r, hq, hr, fun subject start => ⟨?_, ?_⟩⟩
  · have hsame : (p.run subject start).map State.unmarked =
        (q.run subject start).map fun σ => σ.unmarked.keepSlots captures :=
      (run_of_compile h subject start).trans (run_keepSlots hq hle subject start).symm
    have hseen := congrArg (Option.map fun σ => (σ.start, σ.offset, σ.captures)) hsame
    rw [Option.map_map, Option.map_map] at hseen
    refine hseen.trans ?_
    congr 1
    funext σ
    show (σ.start, σ.offset, (σ.unmarked.keepSlots captures).captures) = _
    rw [σ.unmarked.captures_keepSlots]
    rfl
  · have hdrop : ∀ b, (t.dropGroups 0).completions false (.fresh subject b 0 0) =
        t.completions false (.fresh subject b 0 0) := fun b =>
      t.completions_dropGroups_of_size_le (Nat.le_refl 0)
    have hsame : (p.run subject start).map (fun σ => σ.unmarked.keepSlots 0) =
        (r.run subject start).map fun σ => σ.unmarked.keepSlots 0 := by
      rw [run_keepSlots h (Nat.zero_le _), run_keepSlots hr (Nat.zero_le _)]
      simp only [hdrop]
    have hseen := congrArg (Option.map fun σ => (σ.start, σ.offset)) hsame
    rw [Option.map_map, Option.map_map] at hseen
    exact hseen

/-- A group of a late slot in a loop and a group under a negation: remembered or not, or gone, they
leave the match where it is. -/
theorem groups_observe_negated :
    ∃ p q r, compile (.seq [.repeated (.group 0 (.alt [.char 'a', .group 4 (.char 'é')]))
          ⟨1, none, false⟩, .negation (.group 1 (.charClass [.char 'b']))]) 1 = .ok p ∧
      compile (.seq [.repeated (.group 0 (.alt [.char 'a', .group 4 (.char 'é')]))
          ⟨1, none, false⟩, .negation (.group 1 (.charClass [.char 'b']))]) 2 = .ok q ∧
      compile (.seq [.repeated (.alt [.char 'a', .char 'é']) ⟨1, none, false⟩,
          .negation (.charClass [.char 'b'])]) 3 = .ok r ∧
      (p.run "béaéc" 0).map (fun σ => (σ.start, σ.offset, σ.captures)) =
        some (1, 7, [some ⟨4, 6⟩]) ∧
      (q.run "béaéc" 0).map (fun σ => (σ.start, σ.offset, σ.captures.take 1)) =
        some (1, 7, [some ⟨4, 6⟩]) ∧
      (r.run "béaéc" 0).map (fun σ => (σ.start, σ.offset)) = some (1, 7) := by
  let t : Regex := .seq [.repeated (.group 0 (.alt [.char 'a', .group 4 (.char 'é')]))
    ⟨1, none, false⟩, .negation (.group 1 (.charClass [.char 'b']))]
  let p : Program := ⟨t.graph 1, t.graph_halts 1⟩
  have hp : compile t 1 = .ok p := if_neg (by decide)
  obtain ⟨q, r, hq, hr, hsame⟩ := groups_observe hp (show 1 ≤ 2 by decide) 3
  obtain ⟨hmore, hnone⟩ := hsame "béaéc" 0
  have hseen : (p.run "béaéc" 0).map (fun σ => (σ.start, σ.offset, σ.captures)) =
      some (1, 7, [some ⟨4, 6⟩]) := by
    have hrun := congrArg (Option.map fun σ => (σ.start, σ.offset, σ.captures))
      (run_of_compile hp "béaéc" 0)
    rw [Option.map_map] at hrun
    exact hrun.trans (by decide +kernel)
  have hplace := congrArg (Option.map fun x : Nat × Nat × List (Option Span) => (x.1, x.2.1)) hseen
  rw [Option.map_map] at hplace
  exact ⟨p, q, r, hp, hq, hr, hseen, hmore.symm.trans hseen, hnone.symm.trans hplace⟩

end Program

end Backtrack
