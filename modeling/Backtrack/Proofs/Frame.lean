import Backtrack.Proofs.Completions
import Backtrack.Proofs.WellFormed

/-!
# What a completion keeps

Between a state and a completion of a tree only the offset and the groups of the tree can
change (`Regex.follows_of_mem_completions`).
-/

namespace Backtrack

namespace State

/-- State `τ` comes after `σ` in the same attempt, and at most the groups of `slots` have
changed in between. -/
structure Follows (slots : List Nat) (σ τ : State) : Prop where
  subject : τ.subject = σ.subject
  start : τ.start = σ.start
  size : τ.slots.size = σ.slots.size
  kept : ∀ i, i ∉ slots → τ.slots[i]? = σ.slots[i]?

variable {slots slots' : List Nat} {ρ σ τ : State}

theorem Follows.refl (slots : List Nat) (σ : State) : σ.Follows slots σ :=
  ⟨rfl, rfl, rfl, fun _ _ => rfl⟩

theorem Follows.trans (h : ρ.Follows slots σ) (h' : σ.Follows slots τ) : ρ.Follows slots τ where
  subject := h'.subject.trans h.subject
  start := h'.start.trans h.start
  size := h'.size.trans h.size
  kept i hi := (h'.kept i hi).trans (h.kept i hi)

theorem Follows.mono (h : σ.Follows slots τ) (hsub : ∀ i ∈ slots, i ∈ slots') :
    σ.Follows slots' τ :=
  ⟨h.subject, h.start, h.size, fun i hi => h.kept i fun hmem => hi (hsub i hmem)⟩

theorem follows_openSlot (σ : State) (i : Nat) : σ.Follows [i] (σ.openSlot i) where
  subject := rfl
  start := rfl
  size := by simp [openSlot]
  kept j hj := by
    have hij : i ≠ j := fun h => hj (by simp [h])
    simp [openSlot, Array.getElem?_modify, hij]

theorem follows_closeSlot (σ : State) (i : Nat) : σ.Follows [i] (σ.closeSlot i) where
  subject := rfl
  start := rfl
  size := by simp [closeSlot]
  kept j hj := by
    have hij : i ≠ j := fun h => hj (by simp [h])
    simp [closeSlot, Array.getElem?_modify, hij]

theorem follows_of_offset (σ : State) (i : Nat) : σ.Follows [] { σ with offset := i } :=
  ⟨rfl, rfl, rfl, fun _ _ => rfl⟩

theorem follows_of_run_anyChar (h : Test.anyChar.run σ = some τ) : σ.Follows [] τ := by
  obtain ⟨i, -, rfl⟩ := Option.map_eq_some_iff.1 (σ.consume_any.symm.trans h)
  exact σ.follows_of_offset i

theorem follows_of_run_atom {a : Atom} {negated : Bool}
    (h : (⟨.atom a, negated⟩ : Automaton).run σ = some τ) : σ.Follows [] τ := by
  unfold Automaton.run at h
  cases negated with
  | false =>
    obtain ⟨i, -, rfl⟩ := Option.map_eq_some_iff.1 ((a.run_eq_step? σ).symm.trans h)
    exact σ.follows_of_offset i
  | true =>
    simp only [if_true] at h
    split at h
    · cases h
    · cases h
      exact .refl ..

end State

namespace Regex

theorem follows_of_mem_all {ts : List Regex} {negated : Bool}
    (ih : ∀ t ∈ ts, ∀ σ, ∀ τ ∈ completions negated t σ, σ.Follows t.slots τ) (σ : State) :
    ∀ τ ∈ completionsAll negated ts σ, σ.Follows (slotsOf ts) τ := by
  induction ts generalizing σ with
  | nil =>
    intro τ hτ
    rw [completionsAll, List.mem_singleton] at hτ
    exact hτ ▸ .refl ..
  | cons t rest ihts =>
    intro τ hτ
    rw [completionsAll, List.mem_flatMap] at hτ
    obtain ⟨ρ, hρ, hτ⟩ := hτ
    have hfirst := ih t (by simp) σ ρ hρ
    have hrest := ihts (fun t ht => ih t (by simp [ht])) ρ τ hτ
    rw [slotsOf]
    exact (hfirst.mono (by simp +contextual)).trans (hrest.mono (by simp +contextual))

theorem follows_of_mem_any {ts : List Regex} {negated : Bool}
    (ih : ∀ t ∈ ts, ∀ σ, ∀ τ ∈ completions negated t σ, σ.Follows t.slots τ) (σ : State) :
    ∀ τ ∈ completionsAny negated ts σ, σ.Follows (slotsOf ts) τ := by
  induction ts with
  | nil =>
    intro τ hτ
    cases hτ
  | cons t rest ihts =>
    intro τ hτ
    rw [completionsAny, List.mem_append] at hτ
    rw [slotsOf]
    rcases hτ with hτ | hτ
    · exact (ih t (by simp) σ τ hτ).mono (by simp +contextual)
    · exact (ihts (fun t ht => ih t (by simp [ht])) τ hτ).mono (by simp +contextual)

/-- A completion changes no groups but those of the tree. -/
theorem follows_of_mem_completions {t : Regex} {negated : Bool} {σ τ : State}
    (h : τ ∈ completions negated t σ) : σ.Follows t.slots τ := by
  induction t generalizing negated σ τ with
  | atom a =>
    rw [completions, Option.mem_toList] at h
    exact State.follows_of_run_atom h
  | seq items ih =>
    rw [completions] at h
    split at h
    · exact follows_of_mem_any (fun t ht σ τ => ih t ht) σ τ h
    · exact follows_of_mem_all (fun t ht σ τ => ih t ht) σ τ h
  | alt branches ih =>
    rw [completions] at h
    split at h
    · exact follows_of_mem_all (fun t ht σ τ => ih t ht) σ τ h
    · exact follows_of_mem_any (fun t ht σ τ => ih t ht) σ τ h
  | charClass members ih =>
    rw [completions] at h
    split at h
    · exact follows_of_mem_all (fun t ht σ τ => ih t ht) σ τ h
    · exact follows_of_mem_any (fun t ht σ τ => ih t ht) σ τ h
  | negation body ih =>
    rw [completions] at h
    split at h
    · exact ih h
    · rw [List.mem_flatMap] at h
      obtain ⟨ρ, hρ, h⟩ := h
      rw [Option.mem_toList] at h
      exact (ih hρ).trans ((State.follows_of_run_anyChar h).mono (by simp))
  | group slot body ih =>
    rw [completions, List.mem_map] at h
    obtain ⟨ρ, hρ, rfl⟩ := h
    rw [slots]
    refine ((σ.follows_openSlot slot).mono (by simp)).trans ?_
    exact ((ih hρ).mono (by simp +contextual)).trans ((ρ.follows_closeSlot slot).mono (by simp))
  | repeated body count ih =>
    rw [completions] at h
    exact Quantifier.forall_mem_repeats (P := fun τ => σ.Follows body.slots τ) count
      (fun ρ hρ τ hτ => hρ.trans (ih hτ)) (.refl ..) τ h

end Regex

end Backtrack
