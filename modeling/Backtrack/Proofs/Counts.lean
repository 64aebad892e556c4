import Backtrack.Proofs.Outcomes
import Backtrack.Proofs.Matches
import Backtrack.Proofs.SizeLimit

/-!
# How often an item repeats

An item that matches exactly one character is known by the characters it accepts
(`Regex.charSet?`).  A repetition of such an item tries all counts that its bounds allow, the
greatest first or, if it is lazy, the least first, and it keeps the first one from which the rest of
the pattern matches.

Main statement: `Program.attempt_repeated`, an attempt to match a repeated item and then a rest
succeeds exactly if some count does, and then with the greatest or the least one and with what the
rest matches by itself.  It is put together from:

    an item comes to the same as consuming one character     (findSome?_completions_item)
    bounded rounds try the counts in order                   (findSome?_upTo)
    unbounded rounds are as many as are left                 (findSome?_anyNumber)
    a repetition keeps the first count that does             (exists_of_findSome?_repeats)
    what matches from a place does not depend on the start   (map_outcome_head?)
-/

namespace Backtrack

/-! ## Attempts at one place -/

/-- What the attempt at byte offset `b` comes to: a search from there that tells of a match that
begins there. -/
def Program.attemptAt (p : Program) (subject : String) (b : Nat) : Option State :=
  (p.run subject b).filter (·.start == b)

/-- The attempt at a boundary comes to the first completion of the tree. -/
theorem Program.map_attemptAt {t : Regex} {captures : Nat} {p : Program}
    (h : compile t captures = .ok p) {subject : String} {b : Nat}
    (hb : Text.isBoundary subject b = true) :
    (p.attemptAt subject b).map State.unmarked =
      (t.completions false (.fresh subject b captures 0)).head? := by
  have hstart : ∀ c τ, (t.completions false (.fresh subject c captures 0)).head? = some τ →
      τ.start = c := fun c τ hτ => (Regex.follows_of_mem_completions (List.mem_of_head? hτ)).start
  have hrun := run_of_compile h subject b
  rw [Text.boundariesFrom_of_isBoundary hb, List.findSome?_cons] at hrun
  unfold attemptAt
  cases hhead : (t.completions false (.fresh subject b captures 0)).head? with
  | some τ =>
    rw [hhead] at hrun
    obtain ⟨σ, hσ, rfl⟩ := Option.map_eq_some_iff.1 hrun
    have hkeep : σ.unmarked.start = b := hstart b _ hhead
    rw [hσ, Option.filter_some, if_pos (show (σ.start == b) = true from beq_iff_eq.2 hkeep)]
    rfl
  | none =>
    rw [hhead] at hrun
    -- what is found later begins later
    cases hσ : p.run subject b with
    | none => rfl
    | some σ =>
      rw [hσ] at hrun
      obtain ⟨c, hle, -, hc, -⟩ := Text.exists_of_findSome?_boundariesFrom hrun.symm
      have hlater : σ.unmarked.start = c := hstart c _ hc
      have hne : ¬ (σ.start == b) = true := by
        rw [beq_iff_eq]
        show σ.unmarked.start ≠ b
        omega
      rw [Option.filter_some, if_neg hne]
      rfl

/-! ## Items that match one character -/

theorem State.consume_of_peek {σ : State} {c : Char} (h : σ.peek = some c)
    (accepts : Char → Bool) :
    σ.consume accepts = if accepts c = true then some (σ.advance c.utf8Size) else none := by
  unfold consume
  rw [h]

theorem State.consume_at_end {σ : State} (h : σ.peek = none) (accepts : Char → Bool) :
    σ.consume accepts = none := by
  unfold consume
  rw [h]

namespace Regex

/-- The characters that each member of a class accepts, if all of them look at a character. -/
def memberSets? : List Regex → Option (List (Char → Bool))
  | [] => some []
  | .atom a :: rest => a.charSet?.bind fun accepts => (memberSets? rest).map (accepts :: ·)
  | _ :: _ => none

/-- The characters that an item accepts which matches exactly one of them. -/
def charSet? : Regex → Option (Char → Bool)
  | .atom a => a.charSet?
  | .charClass members => (memberSets? members).map fun sets c => sets.any fun accepts => accepts c
  | .negation (.charClass members) =>
    (memberSets? members).map fun sets c => !sets.any fun accepts => accepts c
  | _ => none

variable {β : Type} {X : Regex} {accepts : Char → Bool} {σ : State}

theorem run_eq_consume {a : Atom} (h : a.charSet? = some accepts) (σ : State) :
    a.run σ = σ.consume accepts := by
  unfold Atom.run
  rw [h]

/-- The members of a class consume a character that any of them accepts. -/
theorem findSome?_completionsAny {members : List Regex} {sets : List (Char → Bool)}
    (h : memberSets? members = some sets) (σ : State) (k : State → Option β) :
    (completionsAny false members σ).findSome? k =
      (σ.consume fun c => sets.any fun accepts => accepts c).bind k := by
  induction members generalizing sets with
  | nil =>
    cases h
    cases hpeek : σ.peek with
    | none => simp [completionsAny, State.consume_at_end hpeek]
    | some c => simp [completionsAny, State.consume_of_peek hpeek]
  | cons t rest ih =>
    cases t with
    | atom a =>
      obtain ⟨accepts, ha, hrest⟩ := Option.bind_eq_some_iff.1 h
      obtain ⟨sets, hsets, rfl⟩ := Option.map_eq_some_iff.1 hrest
      rw [completionsAny, List.findSome?_append, ih hsets, completions]
      show ((a.run σ).toList.findSome? k).or _ = _
      rw [run_eq_consume ha]
      cases hpeek : σ.peek with
      | none => simp [State.consume_at_end hpeek]
      | some c =>
        simp only [State.consume_of_peek hpeek, List.any_cons]
        cases haccepts : accepts c with
        | false => simp
        | true =>
          -- the members after the first one that accepts lead to the same state
          by_cases hany : (sets.any fun accepts => accepts c) = true <;>
            cases hk : k (σ.advance c.utf8Size) <;> simp [hany, hk]
    | _ => cases h

/-- The opposites of all members of a class hold where none of them accepts the next character. -/
theorem completionsAll_opposites {members : List Regex} {sets : List (Char → Bool)}
    (h : memberSets? members = some sets) (σ : State) :
    completionsAll true members σ =
      if (σ.consume fun c => sets.any fun accepts => accepts c).isSome then [] else [σ] := by
  induction members generalizing sets with
  | nil =>
    cases h
    cases hpeek : σ.peek with
    | none => simp [completionsAll, State.consume_at_end hpeek]
    | some c => simp [completionsAll, State.consume_of_peek hpeek]
  | cons t rest ih =>
    cases t with
    | atom a =>
      obtain ⟨accepts, ha, hrest⟩ := Option.bind_eq_some_iff.1 h
      obtain ⟨sets, hsets, rfl⟩ := Option.map_eq_some_iff.1 hrest
      have hrest := ih hsets
      rw [completionsAll, completions]
      simp only [Automaton.run, if_true, Test.run, run_eq_consume ha]
      cases hpeek : σ.peek with
      | none => simpa [State.consume_at_end hpeek] using hrest
      | some c =>
        cases haccepts : accepts c with
        | false => simpa [State.consume_of_peek hpeek, haccepts] using hrest
        | true => simp [State.consume_of_peek hpeek, haccepts]
    | _ => cases h

/-- An item comes to the same as consuming a character that it accepts. -/
theorem findSome?_completions_item (hX : X.charSet? = some accepts) (σ : State)
    (k : State → Option β) :
    (completions false X σ).findSome? k = (σ.consume accepts).bind k := by
  cases X with
  | atom a =>
    rw [completions]
    show (a.run σ).toList.findSome? k = _
    rw [run_eq_consume hX]
    cases σ.consume accepts <;> simp
  | charClass members =>
    obtain ⟨sets, hsets, rfl⟩ := Option.map_eq_some_iff.1 hX
    rw [completions, if_neg Bool.false_ne_true]
    exact findSome?_completionsAny hsets σ k
  | negation body =>
    cases body with
    | charClass members =>
      obtain ⟨sets, hsets, rfl⟩ := Option.map_eq_some_iff.1 hX
      rw [completions, if_neg Bool.false_ne_true, completions, if_pos rfl,
        completionsAll_opposites hsets]
      cases hpeek : σ.peek with
      | none => simp [State.consume_at_end hpeek, Test.run]
      | some c =>
        by_cases hany : (sets.any fun accepts => accepts c) = true <;>
          simp [State.consume_of_peek hpeek, Test.run, hany]
    | _ => cases hX
  | _ => cases hX

end Regex

/-! ## Several characters -/

namespace Text

/-- The stretch of `s` from byte offset `i` to `j` has `n` characters, and all of them pass
`accepts`. -/
def Run (accepts : Char → Bool) (s : String) (n i j : Nat) : Prop :=
  ∃ u v w, s = u ++ v ++ w ∧ u.utf8ByteSize = i ∧ (u ++ v).utf8ByteSize = j ∧
    v.toList.length = n ∧ ∀ c ∈ v.toList, accepts c = true

variable {accepts : Char → Bool} {s : String} {n i j : Nat}

theorem run_zero_iff : Run accepts s 0 i j ↔ isBoundary s i = true ∧ i = j := by
  rw [isBoundary_iff]
  constructor
  · rintro ⟨u, v, w, rfl, rfl, rfl, hv, -⟩
    obtain rfl := String.toList_eq_nil_iff.1 (List.length_eq_zero_iff.1 hv)
    rw [String.append_empty]
    exact ⟨⟨u, w, rfl, rfl⟩, rfl⟩
  · rintro ⟨⟨u, w, rfl, rfl⟩, rfl⟩
    exact ⟨u, "", w, by rw [String.append_empty], rfl, by rw [String.append_empty], rfl,
      fun c hc => by cases hc⟩

theorem run_succ_iff : Run accepts s (n + 1) i j ↔
    ∃ c, charAt? s i = some c ∧ accepts c = true ∧ Run accepts s n (i + c.utf8Size) j := by
  constructor
  · rintro ⟨u, v, w, rfl, rfl, rfl, hlength, hall⟩
    obtain ⟨c, cs, hv⟩ := List.exists_cons_of_length_eq_add_one hlength
    obtain rfl : v = String.singleton c ++ String.ofList cs := by
      rw [← String.toList_inj, hv]
      simp
    simp only [String.toList_append, String.toList_singleton, String.toList_ofList,
      List.cons_append, List.nil_append, List.length_cons, Nat.add_right_cancel_iff,
      List.forall_mem_cons] at hlength hall
    refine ⟨c, charAt?_eq_some_iff.2 ⟨u, String.ofList cs ++ w, ?_, rfl⟩, hall.1,
      u ++ String.singleton c, String.ofList cs, w, ?_, ?_, ?_, ?_, ?_⟩
    · simp only [String.append_assoc]
    · simp only [String.append_assoc]
    · rw [String.utf8ByteSize_append, String.utf8ByteSize_singleton]
    · simp only [String.append_assoc]
    · simpa using hlength
    · simpa using hall.2
  · rintro ⟨c, hc, haccepts, u', v, w, hs, hu', rfl, hlength, hall⟩
    obtain ⟨u, rest, rfl, rfl⟩ := charAt?_eq_some_iff.1 hc
    obtain ⟨x, rfl⟩ : ∃ x, u' = u ++ x := by
      refine exists_append_of_le (v := String.singleton c ++ rest) (y := v ++ w) ?_ (by omega)
      rw [hs, String.append_assoc]
    have hx : String.singleton c ++ rest = x ++ (v ++ w) := by
      simpa only [String.append_assoc, String.append_right_inj] using hs
    have hsize : x.utf8ByteSize = (String.singleton c).utf8ByteSize := by
      rw [String.utf8ByteSize_append] at hu'
      rw [String.utf8ByteSize_singleton]
      omega
    obtain ⟨y, hy⟩ := exists_append_of_le hx (Nat.le_of_eq hsize.symm)
    have hempty : y = "" := by
      rw [hy, String.utf8ByteSize_append] at hsize
      rw [← String.utf8ByteSize_eq_zero_iff]
      omega
    obtain rfl : x = String.singleton c := by rw [hy, hempty, String.append_empty]
    refine ⟨u, String.singleton c ++ v, w, ?_, rfl, ?_, ?_, ?_⟩
    · rw [hs]
      simp only [String.append_assoc]
    · rw [String.append_assoc]
    · simpa using hlength
    · simpa using ⟨haccepts, hall⟩

end Text

namespace State

variable {accepts : Char → Bool} {σ τ : State}

/-- `n` characters further on, if all of them pass `accepts`. -/
def consumes (accepts : Char → Bool) : Nat → State → Option State
  | 0, σ => some σ
  | n + 1, σ => (σ.consume accepts).bind (consumes accepts n)

theorem consumes_add (m n : Nat) (σ : State) :
    σ.consumes accepts (m + n) = (σ.consumes accepts m).bind (consumes accepts n) := by
  induction m generalizing σ with
  | zero => rw [Nat.zero_add, consumes, Option.bind_some]
  | succ m ih =>
    rw [Nat.succ_add, consumes, consumes, Option.bind_assoc]
    exact congrArg _ (funext ih)

/-- Consuming characters leads over a run of them. -/
theorem consumes_eq_some_iff {n : Nat} (hb : Text.isBoundary σ.subject σ.offset = true) :
    σ.consumes accepts n = some τ ↔
      ∃ e, Text.Run accepts σ.subject n σ.offset e ∧ τ = { σ with offset := e } := by
  induction n generalizing σ with
  | zero =>
    rw [consumes, Option.some.injEq]
    constructor
    · rintro rfl
      exact ⟨σ.offset, Text.run_zero_iff.2 ⟨hb, rfl⟩, rfl⟩
    · rintro ⟨e, hrun, rfl⟩
      obtain ⟨-, rfl⟩ := Text.run_zero_iff.1 hrun
      rfl
  | succ n ih =>
    rw [consumes]
    constructor
    · intro h
      obtain ⟨ρ, hρ, h⟩ := Option.bind_eq_some_iff.1 h
      unfold consume at hρ
      split at hρ
      · next c hc =>
        obtain ⟨haccepts, hρ⟩ := Option.ite_none_right_eq_some.1 hρ
        cases hρ
        obtain ⟨e, hrun, rfl⟩ := (ih (Text.isBoundary_add_utf8Size hc)).1 h
        exact ⟨e, Text.run_succ_iff.2 ⟨c, hc, haccepts, hrun⟩, rfl⟩
      · cases hρ
    · rintro ⟨e, hrun, rfl⟩
      obtain ⟨c, hc, haccepts, hrun⟩ := Text.run_succ_iff.1 hrun
      have hconsume : σ.consume accepts = some (σ.advance c.utf8Size) := by
        unfold consume peek
        rw [hc]
        exact if_pos haccepts
      rw [hconsume]
      exact (ih (Text.isBoundary_add_utf8Size hc)).2 ⟨e, hrun, rfl⟩

/-- With each character less is left. -/
theorem left_lt_of_consume (h : σ.consume accepts = some τ) : τ.left < σ.left := by
  have honward : Onward 0 0 σ τ := .of_consume h
  rw [honward.left_lt_iff]
  unfold consume at h
  split at h
  · next c hc =>
    obtain ⟨-, h⟩ := Option.ite_none_right_eq_some.1 h
    cases h
    exact Nat.lt_add_of_pos_right (Char.utf8Size_pos c)
  · cases h

theorem left_add_le_of_consumes {n : Nat} (h : σ.consumes accepts n = some τ) :
    τ.left + n ≤ σ.left := by
  induction n generalizing σ with
  | zero =>
    cases h
    exact Nat.le_refl _
  | succ n ih =>
    obtain ⟨ρ, hρ, h⟩ := Option.bind_eq_some_iff.1 h
    have := left_lt_of_consume hρ
    have := ih h
    omega

end State

/-! ## Counts -/

namespace Quantifier

variable {β : Type}

/-- Counts in the order in which they are tried, given in ascending order. -/
def inOrder (isLazy : Bool) (counts : List Nat) : List Nat :=
  if isLazy then counts else counts.reverse

/-- Count `i` is tried before `j`, or they are the same. -/
def Precedes (isLazy : Bool) (i j : Nat) : Prop := if isLazy then i ≤ j else j ≤ i

theorem pairwise_inOrder (isLazy : Bool) (n : Nat) :
    (inOrder isLazy (List.range n)).Pairwise (Precedes isLazy) := by
  have hrange := (List.pairwise_lt_range (n := n)).imp Nat.le_of_lt
  cases isLazy with
  | true => exact hrange
  | false => exact List.pairwise_reverse.2 hrange

theorem mem_inOrder {isLazy : Bool} {i n : Nat} : i ∈ inOrder isLazy (List.range n) ↔ i < n := by
  cases isLazy <;> simp [inOrder]

theorem precedes_refl (isLazy : Bool) (i : Nat) : Precedes isLazy i i := by
  cases isLazy <;> exact Nat.le_refl i

theorem Precedes.add_left {isLazy : Bool} {i j : Nat} (h : Precedes isLazy i j) (n : Nat) :
    Precedes isLazy (n + i) (n + j) := by
  cases isLazy <;> exact Nat.add_le_add_left h n

/-- What is found is found with the first count that does. -/
theorem exists_of_findSome?_inOrder {isLazy : Bool} {n : Nat} {f : Nat → Option β} {r : β}
    (h : (inOrder isLazy (List.range n)).findSome? f = some r) :
    ∃ i, i < n ∧ f i = some r ∧ ∀ j, j < n → (f j).isSome = true → Precedes isLazy i j := by
  obtain ⟨before, i, after, hsplit, hi, hbefore⟩ := List.findSome?_eq_some_iff.1 h
  have hmem : i ∈ inOrder isLazy (List.range n) := by simp [hsplit]
  refine ⟨i, mem_inOrder.1 hmem, hi, fun j hj hsome => ?_⟩
  have hpairwise := pairwise_inOrder isLazy n
  have hjmem : j ∈ inOrder isLazy (List.range n) := mem_inOrder.2 hj
  rw [hsplit] at hpairwise hjmem
  rcases List.mem_append.1 hjmem with hjmem | hjmem
  · rw [hbefore j hjmem] at hsome
    cases hsome
  · rcases List.mem_cons.1 hjmem with rfl | hjmem
    · exact precedes_refl isLazy j
    · exact (List.pairwise_cons.1 (List.pairwise_append.1 hpairwise).2.1).1 j hjmem

/-- To stop comes before or after all counts that go on. -/
theorem findSome?_inOrder_succ (isLazy : Bool) (n : Nat) (f : Nat → Option β) :
    (inOrder isLazy (List.range (n + 1))).findSome? f =
      if isLazy then (f 0).or ((inOrder isLazy (List.range n)).findSome? fun i => f (i + 1))
      else ((inOrder isLazy (List.range n)).findSome? fun i => f (i + 1)).or (f 0) := by
  have hmap : ∀ l : List Nat, (l.map Nat.succ).findSome? f = l.findSome? fun i => f (i + 1) :=
    fun l => List.findSome?_map ..
  rw [List.range_succ_eq_map]
  cases isLazy with
  | true =>
    simp only [inOrder, if_true, List.findSome?_cons, hmap]
    cases f 0 <;> rfl
  | false =>
    simp only [inOrder, Bool.false_eq_true, if_false, List.reverse_cons, List.findSome?_append,
      ← List.map_reverse, hmap, List.findSome?_singleton]

theorem findSome?_prefer (isLazy : Bool) (stop more : List State) (k : State → Option β) :
    (prefer isLazy stop more).findSome? k =
      if isLazy then (stop.findSome? k).or (more.findSome? k)
      else (more.findSome? k).or (stop.findSome? k) := by
  unfold prefer
  cases isLazy <;> exact List.findSome?_append

section

variable {accepts : Char → Bool} {round : State → List State} {k : State → Option β}

/-- A round comes to the same as consuming one character, whatever comes after it. -/
def Consumes (accepts : Char → Bool) (round : State → List State) (k : State → Option β) : Prop :=
  ∀ σ (f : State → List State),
    ((round σ).flatMap f).findSome? k = (σ.consume accepts).bind fun τ => (f τ).findSome? k

theorem findSome?_exactly (h : Consumes accepts round k) (f : State → List State) (n : Nat)
    (σ : State) :
    ((exactly round n σ).flatMap f).findSome? k =
      (σ.consumes accepts n).bind fun τ => (f τ).findSome? k := by
  induction n generalizing σ with
  | zero =>
    rw [exactly, List.flatMap_singleton]
    rfl
  | succ n ih =>
    rw [exactly, List.flatMap_assoc, h, State.consumes, Option.bind_assoc]
    exact congrArg _ (funext ih)

/-- Bounded rounds try the counts up to their bound in order. -/
theorem findSome?_upTo (h : Consumes accepts round k) (isLazy : Bool) (n : Nat) (σ : State) :
    (upTo round isLazy n σ).findSome? k =
      (inOrder isLazy (List.range (n + 1))).findSome? fun i => (σ.consumes accepts i).bind k := by
  induction n generalizing σ with
  | zero =>
    rw [upTo, findSome?_inOrder_succ]
    cases isLazy <;> simp [inOrder, State.consumes]
  | succ n ih =>
    have hmore : ((round σ).flatMap (upTo round isLazy n)).findSome? k =
        (inOrder isLazy (List.range (n + 1))).findSome? fun i =>
          (σ.consumes accepts (i + 1)).bind k := by
      rw [h]
      simp only [State.consumes]
      cases σ.consume accepts with
      | none => exact (List.findSome?_eq_none_iff.2 fun i _ => rfl).symm
      | some τ => exact ih τ
    rw [upTo, findSome?_prefer, findSome?_inOrder_succ, hmore, List.findSome?_singleton]
    rfl

/-- Rounds without a bound are at most as many as there are bytes left. -/
theorem findSome?_anyNumber (h : Consumes accepts round k) (isLazy : Bool) (n : Nat) {σ : State}
    (hn : σ.left ≤ n) :
    (anyNumber State.left round isLazy σ).findSome? k = (upTo round isLazy n σ).findSome? k := by
  induction n generalizing σ with
  | zero =>
    have hnone : σ.consume accepts = none := by
      cases hτ : σ.consume accepts with
      | none => rfl
      | some τ =>
        have := State.left_lt_of_consume hτ
        omega
    rw [anyNumber, upTo, findSome?_prefer, h, hnone, Option.bind_none, Option.or_none,
      Option.none_or, ite_self]
  | succ n ih =>
    rw [anyNumber, upTo, findSome?_prefer, findSome?_prefer, h, h]
    have hmore : ((σ.consume accepts).bind fun τ =>
        (if τ.left < σ.left then anyNumber State.left round isLazy τ else [τ]).findSome? k) =
          (σ.consume accepts).bind fun τ => (upTo round isLazy n τ).findSome? k := by
      cases hτ : σ.consume accepts with
      | none => rfl
      | some τ =>
        have hlt := State.left_lt_of_consume hτ
        rw [Option.bind_some, Option.bind_some, if_pos hlt]
        exact ih (by omega)
    rw [hmore]

/-- After the rounds that are due, a repetition tries the counts up to some bound in order: those
that it allows, and of these at least all for which there are enough bytes. -/
theorem findSome?_repeats (h : Consumes accepts round k) {q : Quantifier}
    (hq : ∀ most, q.most = some most → q.least ≤ most) (σ : State) :
    ∃ n, (∀ i, i < n → q.Allows (q.least + i)) ∧
      (∀ i τ, q.Allows (q.least + i) → σ.consumes accepts (q.least + i) = some τ → i < n) ∧
      (q.repeats State.left round σ).findSome? k =
        (inOrder q.lazy (List.range n)).findSome? fun i =>
          (σ.consumes accepts (q.least + i)).bind k := by
  have hsplit : ∀ n, ((σ.consumes accepts q.least).bind fun τ =>
      (inOrder q.lazy (List.range n)).findSome? fun i => (τ.consumes accepts i).bind k) =
        (inOrder q.lazy (List.range n)).findSome? fun i =>
          (σ.consumes accepts (q.least + i)).bind k := by
    intro n
    simp only [State.consumes_add]
    cases σ.consumes accepts q.least with
    | none => exact (List.findSome?_eq_none_iff.2 fun i _ => rfl).symm
    | some τ => rfl
  unfold repeats
  cases hmost : q.most with
  | some most =>
    refine ⟨most - q.least + 1, fun i hi => ⟨by omega, ?_⟩, fun i τ hallows _ => ?_, ?_⟩
    · rintro _ hm
      obtain rfl := Option.some.inj (hmost.symm.trans hm)
      have := hq most hmost
      omega
    · have := hallows.2 most hmost
      omega
    · rw [← hsplit, findSome?_exactly h]
      exact congrArg _ (funext fun τ => findSome?_upTo h q.lazy _ τ)
  | none =>
    refine ⟨σ.left + 1, fun i hi => ⟨by omega, ?_⟩, fun i τ _ hτ => ?_, ?_⟩
    · rintro _ hm
      rw [hmost] at hm
      cases hm
    · have := State.left_add_le_of_consumes hτ
      omega
    · rw [← hsplit, findSome?_exactly h]
      cases hτ : σ.consumes accepts q.least with
      | none => rfl
      | some τ =>
        have hle : τ.left ≤ σ.left := Nat.le_of_add_right_le (State.left_add_le_of_consumes hτ)
        rw [Option.bind_some, Option.bind_some, findSome?_anyNumber h q.lazy _ hle,
          findSome?_upTo h]

/-- A repetition comes to something exactly if some count does that it allows. -/
theorem isSome_findSome?_repeats (h : Consumes accepts round k) {q : Quantifier}
    (hq : ∀ most, q.most = some most → q.least ≤ most) (σ : State) :
    ((q.repeats State.left round σ).findSome? k).isSome = true ↔
      ∃ i, q.Allows i ∧ ((σ.consumes accepts i).bind k).isSome = true := by
  obtain ⟨n, hallows, hless, hfind⟩ := findSome?_repeats h hq σ
  rw [hfind, List.findSome?_isSome_iff]
  constructor
  · rintro ⟨i, hi, hsome⟩
    exact ⟨q.least + i, hallows i (mem_inOrder.1 hi), hsome⟩
  · rintro ⟨j, hj, hsome⟩
    obtain ⟨i, rfl⟩ := Nat.exists_eq_add_of_le hj.1
    obtain ⟨r, hr⟩ := Option.isSome_iff_exists.1 hsome
    obtain ⟨τ, hτ, -⟩ := Option.bind_eq_some_iff.1 hr
    exact ⟨i, mem_inOrder.2 (hless i τ hj hτ), hsome⟩

/-- A repetition comes to what the first count does that comes to anything. -/
theorem exists_of_findSome?_repeats (h : Consumes accepts round k) {q : Quantifier}
    (hq : ∀ most, q.most = some most → q.least ≤ most) {σ : State} {r : β}
    (hr : (q.repeats State.left round σ).findSome? k = some r) :
    ∃ i, q.Allows i ∧ (σ.consumes accepts i).bind k = some r ∧
      ∀ j, q.Allows j → ((σ.consumes accepts j).bind k).isSome = true → Precedes q.lazy i j := by
  obtain ⟨n, hallows, hless, hfind⟩ := findSome?_repeats h hq σ
  obtain ⟨i, hi, hir, hfirst⟩ := exists_of_findSome?_inOrder (hfind.symm.trans hr)
  refine ⟨q.least + i, hallows i hi, hir, fun j hj hsome => ?_⟩
  obtain ⟨j, rfl⟩ := Nat.exists_eq_add_of_le hj.1
  obtain ⟨r', hr'⟩ := Option.isSome_iff_exists.1 hsome
  obtain ⟨τ, hτ, -⟩ := Option.bind_eq_some_iff.1 hr'
  exact (hfirst j (hless j τ hj hτ) hsome).add_left q.least

end

end Quantifier

/-! ## A repeated item and a rest -/

namespace Regex

variable {X R : Regex} {q : Quantifier} {accepts : Char → Bool} {σ τ : State}

/-- What a tree matches from a place does not depend on where the attempt began. -/
theorem map_outcome_head? (hR : R.Plain) (hslots : R.slots.Nodup) (hsubject : σ.subject = τ.subject)
    (houtcome : σ.outcome = τ.outcome) :
    (completions false R σ).head?.map State.outcome =
      (completions false R τ).head?.map State.outcome := by
  rw [← List.head?_map, ← List.head?_map, map_completions hR hslots hsubject,
    map_completions hR hslots rfl, houtcome]

/-- A repeated item and a rest come to the rest after the rounds of the item. -/
theorem head?_completions_rest (X R : Regex) (q : Quantifier) (σ : State) :
    (completions false (.seq [.repeated X q, R]) σ).head? =
      (q.repeats State.left (completions false X) σ).findSome? fun τ =>
        (completions false R τ).head? := by
  rw [completions, if_neg Bool.false_ne_true, completionsAll, completions, List.head?_flatMap]
  refine congrArg (List.findSome? · _) (funext fun τ => ?_)
  simp [completionsAll]

/-- A rest weighs no more than what it is a part of. -/
theorem weight_rest_le (X R : Regex) (q : Quantifier) :
    R.weight ≤ weight (.seq [.repeated X q, R]) :=
  Nat.le_trans (weight_le_weightOf (by simp)) (Nat.le_add_left _ 2)

end Regex

namespace Program

variable {p r : Program} {X R : Regex} {q : Quantifier} {captures : Nat} {subject : String}
  {accepts : Char → Bool} {s i e : Nat}

theorem exists_compile_rest (h : compile (.seq [.repeated X q, R]) captures = .ok p) :
    ∃ r, compile R captures = .ok r :=
  exists_compile_of_weight_le h (Regex.weight_rest_le X R q) captures

/-- So many characters from byte offset `s` on are allowed and accepted, and from where they end,
at `e`, the rest `r` matches. -/
structure Fits (r : Program) (subject : String) (accepts : Char → Bool) (q : Quantifier)
    (s i e : Nat) : Prop where
  allowed : q.Allows i
  accepted : Text.Run accepts subject i s e
  rest : (r.attemptAt subject e).isSome = true

/-- What the rest matches by itself is what it matches after the item. -/
theorem map_outcome_attemptAt (hR : R.Plain) (hslots : R.slots.Nodup)
    (hr : compile R captures = .ok r) (hrun : Text.Run accepts subject i s e) :
    (r.attemptAt subject e).map State.outcome =
      (Regex.completions false R { State.fresh subject s captures 0 with offset := e }).head?.map
        State.outcome := by
  have he : Text.isBoundary subject e = true := by
    obtain ⟨u, v, w, hsplit, -, hstop, -⟩ := hrun
    exact Text.isBoundary_iff.2 ⟨u ++ v, w, hsplit, hstop⟩
  have hview : State.outcome ∘ State.unmarked = State.outcome := rfl
  rw [← hview, ← Option.map_map, map_attemptAt hr he]
  exact Regex.map_outcome_head? hR hslots rfl rfl

/-- A count that fits comes to something. -/
theorem Fits.isSome (hR : R.Plain) (hslots : R.slots.Nodup) (hr : compile R captures = .ok r)
    (hs : Text.isBoundary subject s = true) (h : r.Fits subject accepts q s i e) :
    (((State.fresh subject s captures 0).consumes accepts i).bind fun τ =>
      (Regex.completions false R τ).head?).isSome = true := by
  have hτ : (State.fresh subject s captures 0).consumes accepts i =
      some { State.fresh subject s captures 0 with offset := e } :=
    (State.consumes_eq_some_iff hs).2 ⟨e, h.accepted, rfl⟩
  have hrest := h.rest
  rw [← Option.isSome_map (f := State.outcome),
    map_outcome_attemptAt hR hslots hr h.accepted] at hrest
  rw [hτ, Option.bind_some, ← Option.isSome_map (f := State.outcome)]
  exact hrest

/-- A count that comes to something fits, and the rest comes to the same by itself. -/
theorem exists_fits (hR : R.Plain) (hslots : R.slots.Nodup) (hr : compile R captures = .ok r)
    (hs : Text.isBoundary subject s = true) {ρ : State} (hallowed : q.Allows i)
    (h : (((State.fresh subject s captures 0).consumes accepts i).bind fun τ =>
      (Regex.completions false R τ).head?) = some ρ) :
    ∃ e τ, r.Fits subject accepts q s i e ∧ r.attemptAt subject e = some τ ∧
      τ.outcome = ρ.outcome := by
  obtain ⟨τ', hτ', hrest⟩ := Option.bind_eq_some_iff.1 h
  obtain ⟨e, hrun, rfl⟩ := (State.consumes_eq_some_iff hs).1 hτ'
  have hsame : (r.attemptAt subject e).map State.outcome = some ρ.outcome :=
    (map_outcome_attemptAt hR hslots hr hrun).trans (congrArg (Option.map State.outcome) hrest)
  obtain ⟨τ, hτ, houtcome⟩ := Option.map_eq_some_iff.1 hsame
  exact ⟨e, τ, ⟨hallowed, hrun, Option.isSome_of_eq_some hτ⟩, hτ, houtcome⟩

/-- **A repeated item takes as many characters as the rest lets it.**  An attempt to match the item
and then the rest succeeds exactly if some count that its bounds allow fits: so many characters are
accepted, and from where they end an attempt to match the rest succeeds.  It succeeds with the
greatest such count, or with the least if the item is lazy, and then it ends where the rest ends by
itself, with the same groups.

Every tree that is read from a pattern is plain and has each slot once. -/
theorem attempt_repeated (hX : X.charSet? = some accepts)
    (hq : ∀ most, q.most = some most → q.least ≤ most) (hR : R.Plain) (hslots : R.slots.Nodup)
    (hp : compile (.seq [.repeated X q, R]) captures = .ok p)
    (hs : Text.isBoundary subject s = true) :
    ∃ r, compile R captures = .ok r ∧
      ((p.attemptAt subject s).isSome = true ↔ ∃ i e, r.Fits subject accepts q s i e) ∧
      ∀ σ, p.attemptAt subject s = some σ → ∃ i e τ,
        r.Fits subject accepts q s i e ∧ r.attemptAt subject e = some τ ∧
        σ.offset = τ.offset ∧ σ.captures = τ.captures ∧
        ∀ j d, r.Fits subject accepts q s j d → if q.lazy then i ≤ j else j ≤ i := by
  obtain ⟨r, hr⟩ := exists_compile_rest hp
  have hitem : Quantifier.Consumes accepts (Regex.completions false X) fun τ =>
      (Regex.completions false R τ).head? := fun σ f => by
    rw [findSome?_flatMap, Regex.findSome?_completions_item hX]
  have hattempt := map_attemptAt hp hs
  rw [Regex.head?_completions_rest] at hattempt
  refine ⟨r, hr, ?_, fun σ hσ => ?_⟩
  · rw [← Option.isSome_map (f := State.unmarked), hattempt,
      Quantifier.isSome_findSome?_repeats hitem hq]
    constructor
    · rintro ⟨i, hallowed, hsome⟩
      obtain ⟨ρ, hρ⟩ := Option.isSome_iff_exists.1 hsome
      obtain ⟨e, -, hfits, -⟩ := exists_fits hR hslots hr hs hallowed hρ
      exact ⟨i, e, hfits⟩
    · rintro ⟨i, e, hfits⟩
      exact ⟨i, hfits.allowed, hfits.isSome hR hslots hr hs⟩
  · rw [hσ] at hattempt
    obtain ⟨i, hallowed, hi, hfirst⟩ :=
      Quantifier.exists_of_findSome?_repeats hitem hq hattempt.symm
    obtain ⟨e, τ, hfits, hτ, houtcome⟩ := exists_fits hR hslots hr hs hallowed hi
    exact ⟨i, e, τ, hfits, hτ, (congrArg Outcome.offset houtcome).symm,
      (congrArg Outcome.captures houtcome).symm,
      fun j d hj => hfirst j hj.allowed (hj.isSome hR hslots hr hs)⟩

/-- The rest takes back two of the four characters that the class accepts, one of them by two of
its members. -/
theorem attempt_repeated_taken_back :
    let X : Regex := .charClass [.atom (.range 'a' 'é'), .atom (.char 'é')]
    let R : Regex := .seq [.group 0 (.seq [.char 'é'])]
    ∃ (p r : Program) (accepts : Char → Bool) (σ τ : State) (i e : Nat),
      compile (.seq [.repeated X ⟨1, none, false⟩, R]) 1 = .ok p ∧
      X.charSet? = some accepts ∧ p.attemptAt "xaééb" 1 = some σ ∧
      r.attemptAt "xaééb" e = some τ ∧ 2 ≤ i ∧ Text.Run accepts "xaééb" i 1 e ∧
      σ.offset = τ.offset ∧ σ.captures = τ.captures := by
  intro X R
  let q : Quantifier := ⟨1, none, false⟩
  let t : Regex := .seq [.repeated X q, R]
  let p : Program := ⟨t.graph 1, t.graph_halts 1⟩
  have hp : compile t 1 = .ok p := if_neg (by decide)
  have hR : R.WellFormed 1 := by decide
  have hs : Text.isBoundary "xaééb" 1 = true := by decide
  have haccepts : X.charSet?.map "aé".toList.all = some true := by decide
  obtain ⟨accepts, hX, hall⟩ := Option.map_eq_some_iff.1 haccepts
  have hq : ∀ most, q.most = some most → q.least ≤ most := nofun
  obtain ⟨r, hr, hsome, hbest⟩ := attempt_repeated hX hq hR.plain hR.nodup hp hs
  -- two characters fit
  have htwo : r.Fits "xaééb" accepts q 1 2 4 := by
    refine ⟨⟨by decide, nofun⟩, ⟨"x", "aé", "éb", rfl, rfl, rfl, rfl, List.all_eq_true.1 hall⟩, ?_⟩
    rw [← Option.isSome_map (f := State.unmarked), map_attemptAt hr (by decide)]
    decide +kernel
  obtain ⟨σ, hσ⟩ := Option.isSome_iff_exists.1 (hsome.2 ⟨2, 4, htwo⟩)
  obtain ⟨i, e, τ, hfits, hτ, hoffset, hcaptures, hgreatest⟩ := hbest σ hσ
  exact ⟨p, r, accepts, σ, τ, i, e, hp, hX, hσ, hτ, hgreatest 2 4 htwo, hfits.accepted, hoffset,
    hcaptures⟩

end Program

end Backtrack
