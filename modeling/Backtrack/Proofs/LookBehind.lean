import Backtrack.Proofs.Frame

/-!
# Looking behind

All that a pattern can see of the text before the place where a search begins is whether there is
any, and whether its last character is a newline.  So a text in front of the one that is searched
may be replaced by any other that ends alike: what is found moves along with the text behind it.

`State.behind u σ` is state `σ` where `u` stands in front of its subject.  Main statement:
`Program.run_behind`, searches behind two such texts find the same, further to the right or to
the left.  It is put together from:

    boundaries and characters behind a text       (Text.boundariesFrom_behind, Text.charAt?_behind)
    an atom behind a text                         (Atom.run_eq_runBehind)
    a tree behind a text                          (Regex.completions_behind)
-/

namespace Backtrack

/-! ## Texts -/

namespace Text

/-- Whether the last character of a text is a newline. -/
def endsLine (u : String) : Bool := u.toList.getLast? == some '\n'

theorem charAt?_of_not_isBoundary {s : String} {i : Nat} (h : isBoundary s i = false) :
    charAt? s i = none := by
  rw [charAt?, posAt?_of_not_isBoundary h, Option.bind_none]

theorem charBefore?_of_not_isBoundary {s : String} {i : Nat} (h : isBoundary s i = false) :
    charBefore? s i = none := by
  rw [charBefore?, posAt?_of_not_isBoundary h, Option.bind_none]

variable (u w : String) (i : Nat)

theorem isBoundary_behind : isBoundary (u ++ w) (u.utf8ByteSize + i) = isBoundary w i := by
  apply Bool.eq_iff_iff.2
  rw [isBoundary_iff, isBoundary_iff]
  constructor
  · rintro ⟨x, y, hxy, hsize⟩
    obtain ⟨v, rfl⟩ := exists_append_of_le hxy (by omega)
    refine ⟨v, y, ?_, ?_⟩
    · rw [String.append_assoc] at hxy
      rw [← String.toList_inj] at hxy ⊢
      simpa using hxy
    · rw [String.utf8ByteSize_append] at hsize
      omega
  · rintro ⟨x, y, rfl, rfl⟩
    exact ⟨u ++ x, y, (String.append_assoc ..).symm, String.utf8ByteSize_append⟩

theorem charAt?_behind : charAt? (u ++ w) (u.utf8ByteSize + i) = charAt? w i := by
  cases h : isBoundary w i with
  | true =>
    obtain ⟨x, y, rfl, rfl⟩ := isBoundary_iff.1 h
    rw [← String.append_assoc, ← String.utf8ByteSize_append, charAt?_append, charAt?_append]
  | false =>
    have hbehind := isBoundary_behind u w i
    rw [h] at hbehind
    rw [charAt?_of_not_isBoundary h, charAt?_of_not_isBoundary hbehind]

/-- Not at the seam, the character before a place is one of the second text. -/
theorem charBefore?_behind (hi : 0 < i) :
    charBefore? (u ++ w) (u.utf8ByteSize + i) = charBefore? w i := by
  cases h : isBoundary w i with
  | true =>
    obtain ⟨x, y, rfl, rfl⟩ := isBoundary_iff.1 h
    rw [← String.append_assoc, ← String.utf8ByteSize_append, charBefore?_append,
      charBefore?_append, String.toList_append, List.getLast?_append]
    cases hlast : x.toList.getLast? with
    | some c => rfl
    | none =>
      rw [List.getLast?_eq_none_iff, String.toList_eq_nil_iff] at hlast
      rw [hlast, String.utf8ByteSize_empty] at hi
      omega
  | false =>
    have hbehind := isBoundary_behind u w i
    rw [h] at hbehind
    rw [charBefore?_of_not_isBoundary h, charBefore?_of_not_isBoundary hbehind]

theorem boundariesFrom_behind :
    boundariesFrom (u ++ w) (u.utf8ByteSize + i) =
      (boundariesFrom w i).map (u.utf8ByteSize + ·) := by
  unfold boundariesFrom
  rw [String.utf8ByteSize_append,
    show u.utf8ByteSize + w.utf8ByteSize + 1 - (u.utf8ByteSize + i) = w.utf8ByteSize + 1 - i by
      omega,
    ← List.map_add_range', List.filter_map]
  congr 2
  funext b
  exact isBoundary_behind u w b

end Text

/-! ## States -/

/-- The same stretch where `n` more bytes come before. -/
def Span.later (n : Nat) (s : Span) : Span := ⟨n + s.start, n + s.stop⟩

/-- The same slot where `n` more bytes come before. -/
def Slot.later (n : Nat) (s : Slot) : Slot := ⟨s.opened.map (n + ·), s.span.map (Span.later n)⟩

theorem Slot.close_later (s : Slot) (n offset : Nat) :
    (s.later n).close (n + offset) = (s.close offset).later n := by
  obtain ⟨opened, span⟩ := s
  cases opened <;> rfl

namespace State

/-- The same state where `u` comes before the subject. -/
def behind (u : String) (σ : State) : State where
  subject := u ++ σ.subject
  start := u.utf8ByteSize + σ.start
  offset := u.utf8ByteSize + σ.offset
  slots := σ.slots.map (.later u.utf8ByteSize)
  marks := σ.marks.map (u.utf8ByteSize + ·)

variable (u : String) (σ : State)

theorem peek_behind : (σ.behind u).peek = σ.peek := Text.charAt?_behind ..

theorem atEnd_behind : (σ.behind u).atEnd = σ.atEnd := by
  apply decide_eq_decide.2
  show (u ++ σ.subject).utf8ByteSize ≤ u.utf8ByteSize + σ.offset ↔ _
  rw [String.utf8ByteSize_append]
  omega

theorem beforeFinalNewline_behind : (σ.behind u).beforeFinalNewline = σ.beforeFinalNewline := by
  unfold beforeFinalNewline
  rw [peek_behind]
  congr 1
  apply Bool.eq_iff_iff.2
  rw [beq_iff_eq, beq_iff_eq]
  show u.utf8ByteSize + σ.offset + 1 = (u ++ σ.subject).utf8ByteSize ↔ _
  rw [String.utf8ByteSize_append]
  omega

theorem left_behind : (σ.behind u).left = σ.left := by
  show (u ++ σ.subject).utf8ByteSize - (u.utf8ByteSize + σ.offset) = _
  rw [String.utf8ByteSize_append, Nat.add_sub_add_left]
  rfl

theorem consume_behind (accepts : Char → Bool) :
    (σ.behind u).consume accepts = (σ.consume accepts).map (behind u) := by
  unfold consume
  rw [peek_behind]
  cases σ.peek with
  | none => rfl
  | some c =>
    by_cases hc : accepts c = true
    · simp only [hc, if_true, Option.map_some, advance, behind, Nat.add_assoc]
    · simp only [hc, if_false, Option.map_none, Bool.false_eq_true]

/-- What is done to one slot behind a text. -/
theorem modify_behind (i : Nat) {f g : Slot → Slot}
    (h : ∀ s : Slot, f (s.later u.utf8ByteSize) = (g s).later u.utf8ByteSize) :
    (σ.slots.map (Slot.later u.utf8ByteSize)).modify i f =
      (σ.slots.modify i g).map (.later u.utf8ByteSize) := by
  apply Array.ext_getElem?
  intro j
  rw [Array.getElem?_modify, Array.getElem?_map, Array.getElem?_map, Array.getElem?_modify]
  by_cases hij : i = j
  · rw [if_pos hij, if_pos hij, Option.map_map, Option.map_map]
    congr 1
    funext s
    exact h s
  · rw [if_neg hij, if_neg hij]

theorem openSlot_behind (i : Nat) : (σ.behind u).openSlot i = (σ.openSlot i).behind u := by
  have hslots := modify_behind u σ i (f := fun s => ⟨some (u.utf8ByteSize + σ.offset), s.span⟩)
    (g := fun s => ⟨some σ.offset, s.span⟩) fun s => rfl
  simp only [openSlot, behind, hslots]

theorem closeSlot_behind (i : Nat) : (σ.behind u).closeSlot i = (σ.closeSlot i).behind u := by
  have hslots := modify_behind u σ i (f := (·.close (u.utf8ByteSize + σ.offset)))
    (g := (·.close σ.offset)) fun s => s.close_later _ _
  simp only [closeSlot, behind, hslots]

theorem fresh_behind (w : String) (b captures : Nat) :
    fresh (u ++ w) (u.utf8ByteSize + b) captures 0 = (fresh w b captures 0).behind u := by
  simp only [fresh, behind, Array.map_replicate]
  rfl

theorem captures_behind :
    (σ.behind u).captures = σ.captures.map (Option.map (.later u.utf8ByteSize)) := by
  unfold captures behind
  rw [Array.toList_map, List.map_map, List.map_map]
  rfl

/-- State `τ` has come to the same as `σ`, where there are `n` bytes in the place of `m`. -/
structure Moved (m n : Nat) (σ τ : State) : Prop where
  start : τ.start + m = σ.start + n
  offset : τ.offset + m = σ.offset + n
  captures : τ.captures.map (Option.map (Span.later m)) = σ.captures.map (Option.map (Span.later n))

/-- What is the same state behind two texts has moved from the one to the other. -/
theorem moved_of_behind {u u' : String} {ρ σ τ : State} (hσ : σ.unmarked = ρ.behind u)
    (hτ : τ.unmarked = ρ.behind u') : σ.Moved u.utf8ByteSize u'.utf8ByteSize τ := by
  refine ⟨?_, ?_, ?_⟩
  · show τ.unmarked.start + u.utf8ByteSize = σ.unmarked.start + u'.utf8ByteSize
    rw [hσ, hτ]
    show u'.utf8ByteSize + ρ.start + u.utf8ByteSize = u.utf8ByteSize + ρ.start + u'.utf8ByteSize
    omega
  · show τ.unmarked.offset + u.utf8ByteSize = σ.unmarked.offset + u'.utf8ByteSize
    rw [hσ, hτ]
    show u'.utf8ByteSize + ρ.offset + u.utf8ByteSize = u.utf8ByteSize + ρ.offset + u'.utf8ByteSize
    omega
  · show τ.unmarked.captures.map _ = σ.unmarked.captures.map _
    rw [hσ, hτ, captures_behind, captures_behind, List.map_map, List.map_map]
    congr 1
    funext s
    cases s with
    | none => rfl
    | some s => simp only [Function.comp_apply, Option.map_some, Span.later, Nat.add_left_comm]

end State

/-! ## Atoms -/

namespace Atom

/-- Whether an atom that looks at a place holds there if some text comes before the subject, one
that ends in a newline or not. -/
def holdsBehind (newline : Bool) : Atom → State → Bool
  | .metachar .subjectStart, _ => false
  | .lineStart, σ => if σ.offset = 0 then newline else σ.prev == some '\n'
  | a, σ => a.holds σ

/-- The state after an atom if some text comes before the subject, one that ends in a newline or
not. -/
def runBehind (newline : Bool) (a : Atom) (σ : State) : Option State :=
  match a.charSet? with
  | some accepts => σ.consume accepts
  | none => if a.holdsBehind newline σ then some σ else none

variable {u : String}

theorem holds_behind (hu : u ≠ "") (a : Atom) (σ : State) :
    a.holds (σ.behind u) = a.holdsBehind (Text.endsLine u) σ := by
  have hpos : 0 < u.utf8ByteSize := by
    rcases Nat.eq_zero_or_pos u.utf8ByteSize with hzero | hpos
    · exact absurd (String.utf8ByteSize_eq_zero_iff.1 hzero) hu
    · exact hpos
  have hstart : (σ.behind u).atStart = false := by
    apply beq_eq_false_iff_ne.2
    show u.utf8ByteSize + σ.offset ≠ 0
    omega
  cases a with
  | metachar m =>
    cases m with
    | subjectStart => exact hstart
    | subjectEnd => exact σ.atEnd_behind u
    | subjectEndNewline =>
      show ((σ.behind u).atEnd || (σ.behind u).beforeFinalNewline) = _
      rw [σ.atEnd_behind u, σ.beforeFinalNewline_behind u]
      rfl
    | digit => rfl
    | space => rfl
    | nonSpace => rfl
  | lineStart =>
    show ((σ.behind u).atStart || (σ.behind u).prev == some '\n') = if σ.offset = 0 then _ else _
    rw [hstart, Bool.false_or]
    show (Text.charBefore? (u ++ σ.subject) (u.utf8ByteSize + σ.offset) == some '\n') = _
    by_cases hoffset : σ.offset = 0
    · rw [if_pos hoffset, hoffset, Nat.add_zero, Text.charBefore?_append]
      rfl
    · rw [if_neg hoffset, Text.charBefore?_behind u σ.subject σ.offset (by omega)]
      rfl
  | lineEnd =>
    show ((σ.behind u).atEnd || (σ.behind u).peek == some '\n') = _
    rw [σ.atEnd_behind u, σ.peek_behind u]
    rfl
  | char c => rfl
  | range first last => rfl
  | dot => rfl

/-- **An atom** sees nothing of the text before the subject but how it ends. -/
theorem run_eq_runBehind (hu : u ≠ "") (a : Atom) (σ : State) :
    a.run (σ.behind u) = (a.runBehind (Text.endsLine u) σ).map (State.behind u) := by
  unfold run runBehind
  cases a.charSet? with
  | some accepts => exact σ.consume_behind u accepts
  | none =>
    simp only [holds_behind hu a σ]
    by_cases h : a.holdsBehind (Text.endsLine u) σ = true
    · rw [if_pos h, if_pos h]
      rfl
    · rw [if_neg h, if_neg h]
      rfl

end Atom

/-! ## Trees -/

/-- What `g` makes of a state behind a text is the same for all texts that are not empty and end
alike: there is one `f` that tells it without the text. -/
def TellsAlike (newline : Bool) (g : State → List State) : Prop :=
  ∃ f : State → List State, ∀ u, u ≠ "" → Text.endsLine u = newline →
    ∀ σ, g (σ.behind u) = (f σ).map (State.behind u)

namespace TellsAlike

variable {newline : Bool} {g h : State → List State}

/-- One after the other. -/
theorem flatMap (hg : TellsAlike newline g) (hh : TellsAlike newline h) :
    TellsAlike newline fun σ => (g σ).flatMap h := by
  obtain ⟨f, hf⟩ := hg
  obtain ⟨f', hf'⟩ := hh
  refine ⟨fun σ => (f σ).flatMap f', fun u hu hnewline σ => ?_⟩
  simp only [hf u hu hnewline, List.flatMap_map, List.map_flatMap, hf' u hu hnewline]

/-- Side by side. -/
theorem append (hg : TellsAlike newline g) (hh : TellsAlike newline h) :
    TellsAlike newline fun σ => g σ ++ h σ := by
  obtain ⟨f, hf⟩ := hg
  obtain ⟨f', hf'⟩ := hh
  refine ⟨fun σ => f σ ++ f' σ, fun u hu hnewline σ => ?_⟩
  show g (σ.behind u) ++ h (σ.behind u) = _
  rw [hf u hu hnewline, hf' u hu hnewline, List.map_append]

/-- Again and again: how much of the subject is left does not change with the text before it. -/
theorem repeats (hg : TellsAlike newline g) (count : Quantifier) :
    TellsAlike newline fun σ => count.repeats State.left g σ := by
  obtain ⟨f, hf⟩ := hg
  refine ⟨fun σ => count.repeats State.left f σ, fun u hu hnewline σ => ?_⟩
  symm
  exact Quantifier.map_repeats (P := fun _ => True) count (fun _ _ _ _ => trivial)
    (fun τ _ => (hf u hu hnewline τ).symm) (fun τ _ => (τ.left_behind u).symm) trivial

end TellsAlike

namespace Regex

variable {newline negated : Bool}

theorem completionsAll_behind {ts : List Regex}
    (ih : ∀ t ∈ ts, TellsAlike newline (completions negated t)) :
    TellsAlike newline (completionsAll negated ts) := by
  induction ts with
  | nil => exact ⟨fun σ => [σ], fun u _ _ σ => rfl⟩
  | cons t rest ihts => exact (ih t (by simp)).flatMap (ihts fun t ht => ih t (by simp [ht]))

theorem completionsAny_behind {ts : List Regex}
    (ih : ∀ t ∈ ts, TellsAlike newline (completions negated t)) :
    TellsAlike newline (completionsAny negated ts) := by
  induction ts with
  | nil => exact ⟨fun _ => [], fun u _ _ σ => rfl⟩
  | cons t rest ihts => exact (ih t (by simp)).append (ihts fun t ht => ih t (by simp [ht]))

theorem completions_atom_behind (a : Atom) :
    TellsAlike newline (completions negated (.atom a)) := by
  cases negated with
  | false =>
    refine ⟨fun σ => (a.runBehind newline σ).toList, fun u hu hnewline σ => ?_⟩
    show (a.run (σ.behind u)).toList = _
    rw [a.run_eq_runBehind hu, hnewline, Option.toList_map]
  | true =>
    refine ⟨fun σ => if (a.runBehind newline σ).isSome then [] else [σ],
      fun u hu hnewline σ => ?_⟩
    simp only [completions, Automaton.run, Test.run, if_true, a.run_eq_runBehind hu, hnewline]
    cases a.runBehind newline σ <;> rfl

theorem anyChar_behind : TellsAlike newline fun σ => (Test.anyChar.run σ).toList := by
  refine ⟨fun σ => (Test.anyChar.run σ).toList, fun u _ _ σ => ?_⟩
  show ((σ.behind u).consume _).toList = _
  rw [State.consume_behind, Option.toList_map]
  rfl

theorem completions_group_behind {slot : Nat} {body : Regex}
    (ih : TellsAlike newline (completions negated body)) :
    TellsAlike newline (completions negated (.group slot body)) := by
  obtain ⟨f, hf⟩ := ih
  refine ⟨fun σ => (f (σ.openSlot slot)).map (·.closeSlot slot), fun u hu hnewline σ => ?_⟩
  rw [completions, σ.openSlot_behind, hf u hu hnewline, List.map_map, List.map_map]
  congr 1
  funext τ
  exact τ.closeSlot_behind u slot

/-- **A tree** has the same completions behind all texts that end alike. -/
theorem completions_behind (t : Regex) (newline negated : Bool) :
    TellsAlike newline (completions negated t) := by
  induction t generalizing negated with
  | atom a => exact completions_atom_behind a
  | seq items ih =>
    cases negated with
    | false => exact completionsAll_behind fun t ht => ih t ht false
    | true => exact completionsAny_behind fun t ht => ih t ht true
  | alt branches ih =>
    cases negated with
    | false => exact completionsAny_behind fun t ht => ih t ht false
    | true => exact completionsAll_behind fun t ht => ih t ht true
  | charClass members ih =>
    cases negated with
    | false => exact completionsAny_behind fun t ht => ih t ht false
    | true => exact completionsAll_behind fun t ht => ih t ht true
  | negation body ih =>
    cases negated with
    | false => exact (ih true).flatMap anyChar_behind
    | true => exact ih false
  | group slot body ih => exact completions_group_behind (ih negated)
  | repeated body count ih => exact (ih negated).repeats count

end Regex

/-! ## Searching -/

namespace Program

variable {t : Regex} {captures : Nat} {p : Program}

/-- A search behind a text finds what can be told without the text, further to the right. -/
theorem exists_run_behind (h : compile t captures = .ok p) (newline : Bool) (w : String) (j : Nat) :
    ∃ r : Option State, ∀ u, u ≠ "" → Text.endsLine u = newline →
      (p.run (u ++ w) (u.utf8ByteSize + j)).map State.unmarked = r.map (State.behind u) := by
  obtain ⟨f, hf⟩ := t.completions_behind newline false
  refine ⟨(Text.boundariesFrom w j).findSome? fun b => (f (.fresh w b captures 0)).head?,
    fun u hu hnewline => ?_⟩
  rw [run_of_compile h, Text.boundariesFrom_behind, List.findSome?_map, List.map_findSome?]
  congr 1
  funext b
  rw [Function.comp_apply, Function.comp_apply, State.fresh_behind, hf u hu hnewline,
    List.head?_map]

/-- **Look-behind ends after one character.**  Behind two texts that are not empty and end alike,
searches find nothing, or the same at places as far apart as the texts are long. -/
theorem run_behind (h : compile t captures = .ok p) {u u' : String} (hu : u ≠ "") (hu' : u' ≠ "")
    (hends : Text.endsLine u = Text.endsLine u') (w : String) (j : Nat) :
    (p.run (u ++ w) (u.utf8ByteSize + j) = none ∧ p.run (u' ++ w) (u'.utf8ByteSize + j) = none) ∨
      ∃ σ τ, p.run (u ++ w) (u.utf8ByteSize + j) = some σ ∧
        p.run (u' ++ w) (u'.utf8ByteSize + j) = some τ ∧
        σ.Moved u.utf8ByteSize u'.utf8ByteSize τ := by
  obtain ⟨r, hr⟩ := exists_run_behind h (Text.endsLine u) w j
  have hleft := hr u hu rfl
  have hright := hr u' hu' hends.symm
  cases r with
  | none => exact .inl ⟨Option.map_eq_none_iff.1 hleft, Option.map_eq_none_iff.1 hright⟩
  | some ρ =>
    obtain ⟨σ, hσ, hσρ⟩ := Option.map_eq_some_iff.1 hleft
    obtain ⟨τ, hτ, hτρ⟩ := Option.map_eq_some_iff.1 hright
    exact .inr ⟨σ, τ, hσ, hτ, State.moved_of_behind hσρ hτρ⟩

/-- Behind one line and behind another: the class and the loop after the start of a line match the
same, two bytes further to the right. -/
theorem run_behind_lines :
    ∃ p σ τ, compile (.seq [.atom .lineStart, .repeated (.group 0 (.char 'é')) ⟨1, none, false⟩,
        .negation (.charClass [.atom (.metachar .digit)])]) 2 = .ok p ∧
      p.run ("\n" ++ "éé-1") 1 = some σ ∧ p.run ("-1\n" ++ "éé-1") 3 = some τ ∧
      σ.Moved 1 3 τ ∧ τ.start = 3 ∧ τ.offset = 8 ∧ τ.captures = [some ⟨5, 7⟩, none] := by
  let t : Regex := .seq [.atom .lineStart, .repeated (.group 0 (.char 'é')) ⟨1, none, false⟩,
    .negation (.charClass [.atom (.metachar .digit)])]
  let p : Program := ⟨t.graph 2, t.graph_halts 2⟩
  have hp : compile t 2 = .ok p := if_neg (by decide)
  have hrun := congrArg (Option.map fun τ => (τ.start, τ.offset, τ.captures))
    (run_of_compile hp ("-1\n" ++ "éé-1") 3)
  rw [Option.map_map] at hrun
  have hseen : (p.run ("-1\n" ++ "éé-1") 3).map (fun τ => (τ.start, τ.offset, τ.captures)) =
      some (3, 8, [some ⟨5, 7⟩, none]) :=
    hrun.trans (by decide +kernel)
  have hbehind : (p.run ("\n" ++ "éé-1") 1 = none ∧ p.run ("-1\n" ++ "éé-1") 3 = none) ∨
      ∃ σ τ, p.run ("\n" ++ "éé-1") 1 = some σ ∧ p.run ("-1\n" ++ "éé-1") 3 = some τ ∧
        σ.Moved 1 3 τ :=
    run_behind hp (show "\n" ≠ "" by decide) (show "-1\n" ≠ "" by decide) rfl "éé-1" 0
  rcases hbehind with ⟨-, hnone⟩ | ⟨σ, τ, hσ, hτ, hmoved⟩
  · rw [hnone] at hseen
    cases hseen
  · rw [hτ, Option.map_some, Option.some.injEq, Prod.mk.injEq, Prod.mk.injEq] at hseen
    exact ⟨p, σ, τ, hp, hσ, hτ, hmoved, hseen⟩

end Program

end Backtrack
