import Backtrack.Graph.Test

/-!
# Steps in the subject

What an atom does can be said of byte offsets alone: it looks at the subject and the offset,
and it moves nothing but the offset (`Atom.run_eq_step?`), by one character at most
(`Atom.eq_or_after?_of_step?`).
-/

namespace Backtrack

/-- The offset one character after byte offset `i`, if there is a character. -/
def Text.after? (s : String) (i : Nat) : Option Nat :=
  (charAt? s i).map fun c => i + c.utf8Size

/-- The offset that an atom leads to from byte offset `i` of `subject`. -/
def Atom.step? (a : Atom) (subject : String) (i : Nat) : Option Nat :=
  (a.run (.fresh subject i 0 0)).map State.offset

theorem State.consume_any (σ : State) :
    (σ.consume fun _ => true) =
      (Text.after? σ.subject σ.offset).map fun i => { σ with offset := i } := by
  unfold consume Text.after? peek
  cases Text.charAt? σ.subject σ.offset <;> rfl

namespace Atom

theorem run_eq_step? (a : Atom) (σ : State) :
    a.run σ = (a.step? σ.subject σ.offset).map fun i => { σ with offset := i } := by
  have hholds : a.holds (.fresh σ.subject σ.offset 0 0) = a.holds σ := by
    cases a with
    | metachar m => cases m <;> rfl
    | _ => rfl
  unfold step? run
  cases a.charSet? with
  | some accepts =>
    simp only [State.consume]
    rw [show (State.fresh σ.subject σ.offset 0 0).peek = σ.peek from rfl]
    cases σ.peek with
    | none => rfl
    | some c =>
      cases h : accepts c with
      | false => simp [h]
      | true =>
        simp [h]
        rfl
  | none =>
    simp only [hholds]
    cases a.holds σ <;> rfl

theorem eq_or_after?_of_step? {a : Atom} {subject : String} {i j : Nat}
    (h : a.step? subject i = some j) : j = i ∨ Text.after? subject i = some j := by
  unfold step? run at h
  split at h
  · simp only [State.consume] at h
    split at h
    · next c hc =>
      split at h
      · right
        rw [Text.after?, show Text.charAt? subject i = some c from hc]
        exact h
      · cases h
    · cases h
  · split at h
    · left
      cases h
      rfl
    · cases h

end Atom

end Backtrack
