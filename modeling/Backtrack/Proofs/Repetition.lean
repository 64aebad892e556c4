import Backtrack.Regex.Basic

/-!
# Repeating a round that can end in several ways

A round takes a place and gives the places it can end at, the preferred one in front.  A
quantifier then tells in which ways the repeated round can end (`Quantifier.repeats`): the
rounds that are due come first, and each round after them is optional.  Without an upper
bound a round goes on to another one only if less is `left` after it than before it.

What is done here is done alike for any kind of place: two kinds of places that correspond
have repetitions that correspond (`map_repeats`).
-/

namespace Backtrack

theorem findSome?_flatMap {α β γ : Type} (l : List α) (f : α → List β) (k : β → Option γ) :
    (l.flatMap f).findSome? k = l.findSome? fun a => (f a).findSome? k := by
  induction l with
  | nil => rfl
  | cons a l ih =>
    rw [List.flatMap_cons, List.findSome?_append, ih, List.findSome?_cons]
    cases (f a).findSome? k <;> rfl

namespace Quantifier

variable {α β : Type}

/-- Ways to stop and ways to go on: the lazy order has those that stop in front. -/
def prefer (isLazy : Bool) (stop more : List α) : List α :=
  if isLazy then stop ++ more else more ++ stop

/-- `n` rounds, one after the other. -/
def exactly (round : α → List α) : Nat → α → List α
  | 0, a => [a]
  | n + 1, a => (round a).flatMap (exactly round n)

/-- At most `n` rounds. -/
def upTo (round : α → List α) (isLazy : Bool) : Nat → α → List α
  | 0, a => [a]
  | n + 1, a => prefer isLazy [a] ((round a).flatMap (upTo round isLazy n))

/-- Any number of rounds; a round after which no less is `left` is the last one. -/
def anyNumber (left : α → Nat) (round : α → List α) (isLazy : Bool) (a : α) : List α :=
  prefer isLazy [a] <| (round a).flatMap fun b =>
    if left b < left a then anyNumber left round isLazy b else [b]
termination_by left a

/-- As many rounds as the quantifier allows. -/
def repeats (q : Quantifier) (left : α → Nat) (round : α → List α) (a : α) : List α :=
  (exactly round q.least a).flatMap fun b =>
    match q.most with
    | some most => upTo round q.lazy (most - q.least) b
    | none => anyNumber left round q.lazy b

/-! ## Places that correspond -/

theorem map_prefer (f : α → β) (isLazy : Bool) (stop more : List α) :
    (prefer isLazy stop more).map f = prefer isLazy (stop.map f) (more.map f) := by
  cases isLazy <;> simp [prefer]

theorem mem_prefer {isLazy : Bool} {stop more : List α} {a : α} :
    a ∈ prefer isLazy stop more ↔ a ∈ stop ∨ a ∈ more := by
  cases isLazy <;> simp [prefer, or_comm]

section

variable {P : α → Prop} {round : α → List α} {left : α → Nat}

/-- What every round preserves, all rounds together preserve. -/
theorem forall_mem_exactly (hround : ∀ a, P a → ∀ b ∈ round a, P b) (n : Nat) :
    ∀ a, P a → ∀ b ∈ exactly round n a, P b := by
  induction n with
  | zero =>
    intro a ha b hb
    rw [exactly, List.mem_singleton] at hb
    exact hb ▸ ha
  | succ n ih =>
    intro a ha b hb
    rw [exactly, List.mem_flatMap] at hb
    obtain ⟨c, hc, hb⟩ := hb
    exact ih c (hround a ha c hc) b hb

theorem forall_mem_upTo (hround : ∀ a, P a → ∀ b ∈ round a, P b) (isLazy : Bool) (n : Nat) :
    ∀ a, P a → ∀ b ∈ upTo round isLazy n a, P b := by
  induction n with
  | zero =>
    intro a ha b hb
    rw [upTo, List.mem_singleton] at hb
    exact hb ▸ ha
  | succ n ih =>
    intro a ha b hb
    rw [upTo, mem_prefer, List.mem_singleton, List.mem_flatMap] at hb
    rcases hb with rfl | ⟨c, hc, hb⟩
    · exact ha
    · exact ih c (hround a ha c hc) b hb

theorem forall_mem_anyNumber (hround : ∀ a, P a → ∀ b ∈ round a, P b) (isLazy : Bool) (a : α)
    (ha : P a) : ∀ b ∈ anyNumber left round isLazy a, P b := by
  induction hn : left a using Nat.strongRecOn generalizing a with
  | ind n ih =>
    intro b hb
    rw [anyNumber, mem_prefer, List.mem_singleton, List.mem_flatMap] at hb
    rcases hb with rfl | ⟨c, hc, hb⟩
    · exact ha
    · split at hb
      · exact ih (left c) (by omega) c (hround a ha c hc) rfl b hb
      · rw [List.mem_singleton] at hb
        exact hb ▸ hround a ha c hc

theorem forall_mem_repeats (q : Quantifier) (hround : ∀ a, P a → ∀ b ∈ round a, P b) {a : α}
    (ha : P a) : ∀ b ∈ q.repeats left round a, P b := by
  intro b hb
  rw [repeats, List.mem_flatMap] at hb
  obtain ⟨c, hc, hb⟩ := hb
  have hPc := forall_mem_exactly hround q.least a ha c hc
  cases hm : q.most with
  | some most =>
    rw [hm] at hb
    exact forall_mem_upTo hround q.lazy _ c hPc b hb
  | none =>
    rw [hm] at hb
    exact forall_mem_anyNumber hround q.lazy c hPc b hb

end

section

variable {P : α → Prop} {round : α → List α} {left : α → Nat}
  {view : α → β} {round' : β → List β} {left' : β → Nat}

theorem map_flatMap_of_forall {l : List α} {f : α → List α} {f' : β → List β}
    (h : ∀ a ∈ l, (f a).map view = f' (view a)) :
    (l.flatMap f).map view = (l.map view).flatMap f' := by
  induction l with
  | nil => rfl
  | cons a l ih =>
    rw [List.flatMap_cons, List.map_append, h a (by simp), ih fun a ha => h a (by simp [ha])]
    rfl

theorem map_exactly (hP : ∀ a, P a → ∀ b ∈ round a, P b)
    (hround : ∀ a, P a → (round a).map view = round' (view a)) (n : Nat) :
    ∀ a, P a → (exactly round n a).map view = exactly round' n (view a) := by
  induction n with
  | zero => exact fun a _ => rfl
  | succ n ih =>
    intro a ha
    rw [exactly, exactly, map_flatMap_of_forall fun b hb => ih b (hP a ha b hb), hround a ha]

theorem map_upTo (hP : ∀ a, P a → ∀ b ∈ round a, P b)
    (hround : ∀ a, P a → (round a).map view = round' (view a)) (isLazy : Bool) (n : Nat) :
    ∀ a, P a → (upTo round isLazy n a).map view = upTo round' isLazy n (view a) := by
  induction n with
  | zero => exact fun a _ => rfl
  | succ n ih =>
    intro a ha
    rw [upTo, upTo, map_prefer, map_flatMap_of_forall fun b hb => ih b (hP a ha b hb),
      hround a ha]
    rfl

theorem map_anyNumber (hP : ∀ a, P a → ∀ b ∈ round a, P b)
    (hround : ∀ a, P a → (round a).map view = round' (view a))
    (hleft : ∀ a, P a → left a = left' (view a)) (isLazy : Bool) (a : α) (ha : P a) :
    (anyNumber left round isLazy a).map view = anyNumber left' round' isLazy (view a) := by
  induction hn : left a using Nat.strongRecOn generalizing a with
  | ind n ih =>
    rw [anyNumber, anyNumber, map_prefer, ← hround a ha, List.map_singleton]
    refine congrArg _ (map_flatMap_of_forall fun b hb => ?_)
    have hb := hP a ha b hb
    rw [← hleft a ha, ← hleft b hb]
    split
    · exact ih (left b) (by omega) b hb rfl
    · rfl

/-- Rounds that correspond, as long as `P` holds, can be repeated in ways that correspond. -/
theorem map_repeats (q : Quantifier) (hP : ∀ a, P a → ∀ b ∈ round a, P b)
    (hround : ∀ a, P a → (round a).map view = round' (view a))
    (hleft : ∀ a, P a → left a = left' (view a)) {a : α} (ha : P a) :
    (q.repeats left round a).map view = q.repeats left' round' (view a) := by
  rw [repeats, repeats, ← map_exactly hP hround q.least a ha]
  refine map_flatMap_of_forall fun b hb => ?_
  have hb := forall_mem_exactly hP q.least a ha b hb
  cases q.most with
  | some most => exact map_upTo hP hround q.lazy _ b hb
  | none => exact map_anyNumber hP hround hleft q.lazy b hb

end

end Quantifier

end Backtrack
