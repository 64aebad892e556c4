import Backtrack.Proofs.Counts

/-!
# Classes and the sets they stand for

An atom that looks at a character stands for a set of characters (`Atom.Has`), and a class for the
union of the sets of its members (`InUnion`).  A negated class stands for the complement, although
its graph is built in another way: not a choice between the members but a row of their opposites,
after which one character is consumed.

Main statement: `Program.class_stands_for_union`.

    the program of a class            the first character in the union      (firstWhere_run)
    the program of the negated class  the first character not in the union  (firstWhere_run)
    both at one place                 one matches, none at the end          (isSome_attemptAt_iff)
    members in any order and number   the same matches                      (FirstWhere.unique)
-/

namespace Backtrack

/-! ## Sets of characters -/

/-- The blank ASCII characters. -/
def blanks : List Char := [' ', '\t', '\n', '\r', '\x0b', '\x0c']

/-- Character `c` is one of those that an atom stands for.  An atom that looks at a place stands for
none. -/
def Atom.Has : Atom → Char → Prop
  | .char x, c => c = x
  | .range first last, c => first ≤ c ∧ c ≤ last
  | .dot, c => c ≠ '\n'
  | .metachar .digit, c => '0' ≤ c ∧ c ≤ '9'
  | .metachar .space, c => c ∈ blanks
  | .metachar .nonSpace, c => c ∉ blanks
  | .metachar .subjectStart, _ | .metachar .subjectEnd, _ | .metachar .subjectEndNewline, _
  | .lineStart, _ | .lineEnd, _ => False

instance Atom.decidableHas : (a : Atom) → (c : Char) → Decidable (a.Has c)
  | .char x, c => inferInstanceAs (Decidable (c = x))
  | .range first last, c => inferInstanceAs (Decidable (first ≤ c ∧ c ≤ last))
  | .dot, c => inferInstanceAs (Decidable (c ≠ '\n'))
  | .metachar .digit, c => inferInstanceAs (Decidable ('0' ≤ c ∧ c ≤ '9'))
  | .metachar .space, c => inferInstanceAs (Decidable (c ∈ blanks))
  | .metachar .nonSpace, c => inferInstanceAs (Decidable (c ∉ blanks))
  | .metachar .subjectStart, _ | .metachar .subjectEnd, _ | .metachar .subjectEndNewline, _
  | .lineStart, _ | .lineEnd, _ => .isFalse id

/-- Character `c` is one of those that some of the atoms stand for. -/
def InUnion (members : List Atom) (c : Char) : Prop := ∃ a ∈ members, a.Has c

instance (members : List Atom) (c : Char) : Decidable (InUnion members c) :=
  inferInstanceAs (Decidable (∃ a ∈ members, a.Has c))

theorem isBlank_iff {c : Char} : isBlank c = true ↔ c ∈ blanks := by
  simp [isBlank, blanks, or_assoc]

/-- An atom accepts the characters that it stands for. -/
theorem Atom.accepts_iff {a : Atom} {accepts : Char → Bool} (h : a.charSet? = some accepts)
    (c : Char) : accepts c = true ↔ a.Has c := by
  cases a with
  | char x =>
    cases h
    exact beq_iff_eq
  | range first last =>
    cases h
    simp [Has]
  | dot =>
    cases h
    exact bne_iff_ne
  | metachar m =>
    cases m with
    | digit =>
      cases h
      show (decide (c.val ≥ 48) && decide (c.val ≤ 57)) = true ↔ _
      rw [Bool.and_eq_true, decide_eq_true_iff, decide_eq_true_iff]
      exact Iff.rfl
    | space =>
      cases h
      exact isBlank_iff
    | nonSpace =>
      cases h
      show (!isBlank c) = true ↔ c ∉ blanks
      rw [← isBlank_iff, Bool.not_eq_true', Bool.not_eq_true]
    | subjectStart => cases h
    | subjectEnd => cases h
    | subjectEndNewline => cases h
  | lineStart => cases h
  | lineEnd => cases h

namespace Regex

/-- A class with the given members. -/
def classOf (members : List Atom) : Regex := .charClass (members.map .atom)

/-- Members that look at a character accept together what is in their union. -/
theorem exists_memberSets {members : List Atom}
    (h : ∀ a ∈ members, a.charSet?.isSome = true) :
    ∃ sets, memberSets? (members.map .atom) = some sets ∧
      ∀ c, (sets.any fun accepts => accepts c) = true ↔ InUnion members c := by
  induction members with
  | nil => exact ⟨[], rfl, fun c => by simp [InUnion]⟩
  | cons a rest ih =>
    obtain ⟨accepts, haccepts⟩ := Option.isSome_iff_exists.1 (h a List.mem_cons_self)
    obtain ⟨sets, hsets, hrest⟩ := ih fun b hb => h b (List.mem_cons_of_mem a hb)
    refine ⟨accepts :: sets, ?_, fun c => ?_⟩
    · rw [List.map_cons, memberSets?, haccepts, Option.bind_some, hsets, Option.map_some]
    · rw [List.any_cons, Bool.or_eq_true, Atom.accepts_iff haccepts, hrest]
      simp [InUnion]

/-- A class accepts what is in the union of its members. -/
theorem exists_charSet_classOf {members : List Atom}
    (h : ∀ a ∈ members, a.charSet?.isSome = true) :
    ∃ accepts, (classOf members).charSet? = some accepts ∧
      ∀ c, accepts c = true ↔ InUnion members c := by
  obtain ⟨sets, hsets, hunion⟩ := exists_memberSets h
  refine ⟨_, ?_, hunion⟩
  rw [classOf, charSet?, hsets, Option.map_some]

/-- A negated class accepts what is not in the union of its members. -/
theorem exists_charSet_negation {members : List Atom}
    (h : ∀ a ∈ members, a.charSet?.isSome = true) :
    ∃ accepts, (negation (classOf members)).charSet? = some accepts ∧
      ∀ c, accepts c = true ↔ ¬ InUnion members c := by
  obtain ⟨sets, hsets, hunion⟩ := exists_memberSets h
  refine ⟨fun c => !sets.any fun accepts => accepts c, ?_, fun c => ?_⟩
  · rw [classOf, charSet?, hsets, Option.map_some]
  · rw [Bool.not_eq_true', ← Bool.not_eq_true, hunion]

/-- A class with `n` members is estimated at two vertices more. -/
theorem estimate_classOf_le (members : List Atom) :
    (classOf members).estimate ≤ members.length + 2 := by
  have hall : ∀ sum, estimateAll (members.map .atom) sum ≤ members.length + sum := by
    induction members with
    | nil => exact fun sum => Nat.le_add_left sum 0
    | cons a rest ih =>
      intro sum
      rw [List.map_cons, estimateAll, List.length_cons]
      have hsum : saturatingAdd sum (estimate (.atom a)) ≤ sum + 1 := Nat.min_le_left _ _
      have := ih (saturatingAdd sum (estimate (.atom a)))
      omega
  exact hall 2

end Regex

/-! ## The first character of a kind -/

namespace Text

variable {P Q : Char → Prop} {s : String} {i : Nat}

/-- Where the first character that passes `P` stands in `s` at byte offset `i` or later, if there is
one. -/
def FirstWhere (P : Char → Prop) (s : String) (i : Nat) : Option Span → Prop
  | some x => ∃ c, i ≤ x.start ∧ charAt? s x.start = some c ∧ P c ∧ x.stop = x.start + c.utf8Size ∧
      ∀ j d, i ≤ j → j < x.start → charAt? s j = some d → ¬ P d
  | none => ∀ j d, i ≤ j → charAt? s j = some d → ¬ P d

theorem FirstWhere.congr {r : Option Span} (h : FirstWhere P s i r) (hPQ : ∀ c, P c ↔ Q c) :
    FirstWhere Q s i r := by
  obtain rfl : P = Q := funext fun c => propext (hPQ c)
  exact h

/-- There is one answer to where the first character stands. -/
theorem FirstWhere.unique {r r' : Option Span} (h : FirstWhere P s i r)
    (h' : FirstWhere P s i r') : r = r' := by
  cases r with
  | none =>
    cases r' with
    | none => rfl
    | some y =>
      obtain ⟨d, hy, hd, hPd, -⟩ := h'
      exact absurd hPd (h y.start d hy hd)
  | some x =>
    obtain ⟨c, hx, hc, hPc, hstop, hfirst⟩ := h
    cases r' with
    | none => exact absurd hPc (h' x.start c hx hc)
    | some y =>
      obtain ⟨d, hy, hd, hPd, hstop', hfirst'⟩ := h'
      have hstart : x.start = y.start := by
        rcases Nat.lt_trichotomy x.start y.start with hlt | heq | hgt
        · exact absurd hPc (hfirst' x.start c hx hlt hc)
        · exact heq
        · exact absurd hPd (hfirst y.start d hy hgt hd)
      rw [← hstart, hc] at hd
      cases hd
      obtain ⟨xstart, xstop⟩ := x
      obtain ⟨ystart, ystop⟩ := y
      simp only at hstart hstop hstop'
      rw [hstop, hstop', hstart]

end Text

/-! ## Programs of an item -/

/-- From where the attempt began to how far it has come. -/
def State.span (σ : State) : Span := ⟨σ.start, σ.offset⟩

theorem State.consume_eq_some_iff {accepts : Char → Bool} {σ τ : State} :
    σ.consume accepts = some τ ↔
      ∃ c, σ.peek = some c ∧ accepts c = true ∧ τ = σ.advance c.utf8Size := by
  unfold consume
  cases σ.peek with
  | none => simp
  | some c => by_cases h : accepts c = true <;> simp [h, @eq_comm _ τ]

theorem State.not_accepts_of_consume {accepts : Char → Bool} {σ : State} {c : Char}
    (h : σ.consume accepts = none) (hc : σ.peek = some c) : ¬ accepts c = true := by
  intro hacc
  rw [consume_of_peek hc, if_pos hacc] at h
  cases h

namespace Program

variable {p q : Program} {X : Regex} {accepts : Char → Bool} {subject : String}

/-- A program of the item `X` and nothing else, be it by itself or the whole of a pattern. -/
def IsOf (p : Program) (X : Regex) : Prop :=
  ∃ t captures, (t = X ∨ t = .seq [X]) ∧ compile t captures = .ok p

theorem head?_completions_item {t : Regex} (ht : t = X ∨ t = .seq [X])
    (hX : X.charSet? = some accepts) (σ : State) :
    (t.completions false σ).head? = σ.consume accepts := by
  have hitem : (X.completions false σ).head? = σ.consume accepts := by
    have h := Regex.findSome?_completions_item hX σ some
    rw [Option.bind_fun_some] at h
    rw [← h]
    cases X.completions false σ <;> rfl
  rcases ht with rfl | rfl
  · exact hitem
  · rw [Regex.completions, if_neg Bool.false_ne_true, Regex.completionsAll]
    simp only [Regex.completionsAll, List.flatMap_singleton']
    exact hitem

/-- A search tells the first character that the item accepts. -/
theorem firstWhere_run (h : p.IsOf X) (hX : X.charSet? = some accepts) (subject : String)
    (start : Nat) :
    Text.FirstWhere (accepts · = true) subject start ((p.run subject start).map State.span) := by
  obtain ⟨t, captures, ht, hp⟩ := h
  have hrun := run_of_compile hp subject start
  simp only [head?_completions_item ht hX] at hrun
  cases hσ : p.run subject start with
  | none =>
    rw [hσ] at hrun
    intro j d hj hd hacc
    have hnone := Text.findSome?_boundariesFrom_eq_none.1 hrun.symm j hj
      (Text.isBoundary_of_charAt? hd)
    exact State.not_accepts_of_consume hnone hd hacc
  | some σ =>
    rw [hσ] at hrun
    obtain ⟨b, hle, -, hb, hbefore⟩ := Text.exists_of_findSome?_boundariesFrom hrun.symm
    obtain ⟨c, hc, hacc, hτ⟩ := State.consume_eq_some_iff.1 hb
    have hstart : σ.start = b := congrArg State.start hτ
    have hstop : σ.offset = b + c.utf8Size := congrArg State.offset hτ
    refine ⟨c, ?_, ?_, hacc, ?_, ?_⟩
    · show start ≤ σ.start
      omega
    · show Text.charAt? subject σ.start = some c
      rw [hstart]
      exact hc
    · show σ.offset = σ.start + c.utf8Size
      rw [hstop, hstart]
    · intro j d hj hlt hd haccd
      have hjb : j < b := by
        rw [← hstart]
        exact hlt
      have hnone := hbefore j hj hjb (Text.isBoundary_of_charAt? hd)
      exact State.not_accepts_of_consume hnone hd haccd

/-- An attempt succeeds where a character stands that the item accepts. -/
theorem isSome_attemptAt_iff (h : p.IsOf X) (hX : X.charSet? = some accepts) {b : Nat}
    (hb : Text.isBoundary subject b = true) :
    (p.attemptAt subject b).isSome = true ↔
      ∃ c, Text.charAt? subject b = some c ∧ accepts c = true := by
  obtain ⟨t, captures, ht, hp⟩ := h
  rw [← Option.isSome_map (f := State.unmarked), map_attemptAt hp hb, head?_completions_item ht hX,
    Option.isSome_iff_exists]
  constructor
  · rintro ⟨τ, hτ⟩
    obtain ⟨c, hc, hacc, -⟩ := State.consume_eq_some_iff.1 hτ
    exact ⟨c, hc, hacc⟩
  · rintro ⟨c, hc, hacc⟩
    exact ⟨_, State.consume_eq_some_iff.2 ⟨c, hc, hacc, rfl⟩⟩

/-- An item whose estimate is small enough has a program. -/
theorem exists_isOf (h : X.estimate + 3 ≤ maxVertices) : ∃ p : Program, p.IsOf X := by
  have hle : saturatingAdd X.estimate 3 ≤ maxVertices := Nat.le_trans (Nat.min_le_left _ _) h
  exact ⟨_, X, 0, .inl rfl, if_neg (Nat.not_lt.2 hle)⟩

/-! ## Classes -/

section

variable {members : List Atom} (hmembers : ∀ a ∈ members, a.charSet?.isSome = true)

include hmembers

theorem firstWhere_run_class (hp : p.IsOf (.classOf members)) (subject : String) (start : Nat) :
    Text.FirstWhere (InUnion members) subject start ((p.run subject start).map State.span) := by
  obtain ⟨accepts, hX, hunion⟩ := Regex.exists_charSet_classOf hmembers
  exact (firstWhere_run hp hX subject start).congr hunion

theorem firstWhere_run_negation (hq : q.IsOf (.negation (.classOf members))) (subject : String)
    (start : Nat) :
    Text.FirstWhere (¬ InUnion members ·) subject start ((q.run subject start).map State.span) := by
  obtain ⟨accepts, hX, hunion⟩ := Regex.exists_charSet_negation hmembers
  exact (firstWhere_run hq hX subject start).congr hunion

/-- Where a character begins, the class or its negation matches, and not both. -/
theorem isSome_attemptAt_negation (hp : p.IsOf (.classOf members))
    (hq : q.IsOf (.negation (.classOf members))) {b : Nat} {c : Char}
    (hc : Text.charAt? subject b = some c) :
    (q.attemptAt subject b).isSome = true ↔ ¬ (p.attemptAt subject b).isSome = true := by
  obtain ⟨accepts, hX, hunion⟩ := Regex.exists_charSet_classOf hmembers
  obtain ⟨refuses, hY, hothers⟩ := Regex.exists_charSet_negation hmembers
  have hb := Text.isBoundary_of_charAt? hc
  have hclass : (p.attemptAt subject b).isSome = true ↔ InUnion members c := by
    rw [isSome_attemptAt_iff hp hX hb, hc]
    simp [hunion]
  have hnegation : (q.attemptAt subject b).isSome = true ↔ ¬ InUnion members c := by
    rw [isSome_attemptAt_iff hq hY hb, hc]
    simp [hothers]
  rw [hclass, hnegation]

/-- Where no character begins, neither of them matches. -/
theorem attemptAt_eq_none_of_end (hp : p.IsOf (.classOf members))
    (hq : q.IsOf (.negation (.classOf members))) {b : Nat}
    (hb : Text.isBoundary subject b = true) (hend : Text.charAt? subject b = none) :
    p.attemptAt subject b = none ∧ q.attemptAt subject b = none := by
  obtain ⟨accepts, hX, -⟩ := Regex.exists_charSet_classOf hmembers
  obtain ⟨refuses, hY, -⟩ := Regex.exists_charSet_negation hmembers
  have hnone : ∀ {r : Program} {Z : Regex} {f : Char → Bool}, r.IsOf Z → Z.charSet? = some f →
      r.attemptAt subject b = none := by
    intro r Z f hr hZ
    rw [← Option.not_isSome_iff_eq_none, isSome_attemptAt_iff hr hZ hb, hend]
    rintro ⟨c, hc, -⟩
    cases hc
  exact ⟨hnone hp hX, hnone hq hY⟩

end

/-- **A class stands for the union of its members, and its negation for the complement.**  Members
are any atoms that look at a character.  The program of the class tells the first character from
the start of the search on that is in the union, and the program of the negated class the first one
that is not, each of them with exactly that character.  So where a character begins one of the two
matches, and at the end of the subject neither does.  The order of the members and how often they
are repeated do not matter. -/
theorem class_stands_for_union {members : List Atom}
    (hmembers : ∀ a ∈ members, a.charSet?.isSome = true) :
    (members.length + 6 ≤ maxVertices →
      (∃ p : Program, p.IsOf (.classOf members)) ∧
        ∃ q : Program, q.IsOf (.negation (.classOf members))) ∧
    (∀ p : Program, p.IsOf (.classOf members) → ∀ subject start,
      Text.FirstWhere (InUnion members) subject start ((p.run subject start).map State.span)) ∧
    (∀ q : Program, q.IsOf (.negation (.classOf members)) → ∀ subject start,
      Text.FirstWhere (¬ InUnion members ·) subject start ((q.run subject start).map State.span)) ∧
    (∀ p q : Program, p.IsOf (.classOf members) → q.IsOf (.negation (.classOf members)) →
      ∀ subject b, Text.isBoundary subject b = true →
        (b < subject.utf8ByteSize →
          ((q.attemptAt subject b).isSome = true ↔ ¬ (p.attemptAt subject b).isSome = true)) ∧
        (b = subject.utf8ByteSize →
          p.attemptAt subject b = none ∧ q.attemptAt subject b = none)) ∧
    (∀ others : List Atom, (∀ a, a ∈ others ↔ a ∈ members) →
      (∀ p p' : Program, p.IsOf (.classOf members) → p'.IsOf (.classOf others) →
        ∀ subject start,
          (p.run subject start).map State.span = (p'.run subject start).map State.span) ∧
      ∀ q q' : Program, q.IsOf (.negation (.classOf members)) →
        q'.IsOf (.negation (.classOf others)) → ∀ subject start,
          (q.run subject start).map State.span = (q'.run subject start).map State.span) := by
  refine ⟨fun hsize => ?_, fun p hp => firstWhere_run_class hmembers hp,
    fun q hq => firstWhere_run_negation hmembers hq, ?_, ?_⟩
  · have hclass := Regex.estimate_classOf_le members
    have hnegation : (Regex.negation (.classOf members)).estimate ≤
        (Regex.classOf members).estimate + 1 := by
      rw [Regex.estimate]
      exact Nat.min_le_left _ _
    exact ⟨exists_isOf (by omega), exists_isOf (by omega)⟩
  · intro p q hp hq subject b hb
    constructor
    · intro hlt
      obtain ⟨c, hc⟩ := Text.exists_charAt? hb hlt
      exact isSome_attemptAt_negation hmembers hp hq hc
    · rintro rfl
      refine attemptAt_eq_none_of_end hmembers hp hq hb ?_
      rw [Option.eq_none_iff_forall_ne_some]
      intro c hc
      have hle := Text.add_utf8Size_le hc
      have hpos := Char.utf8Size_pos c
      omega
  · intro others hsame
    have hothers : ∀ a ∈ others, a.charSet?.isSome = true := fun a ha => hmembers a ((hsame a).1 ha)
    have hunion : ∀ c, InUnion others c ↔ InUnion members c := by
      intro c
      unfold InUnion
      simp only [hsame]
    constructor
    · intro p p' hp hp' subject start
      have h' := (firstWhere_run_class hothers hp' subject start).congr hunion
      exact (firstWhere_run_class hmembers hp subject start).unique h'
    · intro q q' hq hq' subject start
      have h' := (firstWhere_run_negation hothers hq' subject start).congr
        fun c => not_congr (hunion c)
      exact (firstWhere_run_negation hmembers hq subject start).unique h'

/-- Members that overlap and a character of two bytes: the class passes over a newline and a capital
letter, and its negation takes the newline.  Where the newline begins only the negation matches, and
at the end neither does. -/
theorem class_stands_for_union_overlapping :
    let members : List Atom := [.range 'a' 'é', .metachar .digit, .char 'é']
    (∀ a ∈ members, a.charSet?.isSome = true) ∧
    ∃ p q : Program, p.IsOf (.classOf members) ∧ q.IsOf (.negation (.classOf members)) ∧
      (p.run "\nZé" 0).map State.span = some ⟨2, 4⟩ ∧
      (q.run "\nZé" 0).map State.span = some ⟨0, 1⟩ ∧
      ((q.attemptAt "\nZé" 0).isSome = true ↔ ¬ (p.attemptAt "\nZé" 0).isSome = true) ∧
      p.attemptAt "\nZé" 4 = none ∧ q.attemptAt "\nZé" 4 = none := by
  intro members
  have hmembers : ∀ a ∈ members, a.charSet?.isSome = true := by decide
  obtain ⟨hexists, hclass, hnegation, hplace, -⟩ := class_stands_for_union hmembers
  obtain ⟨⟨p, hp⟩, q, hq⟩ := hexists (by decide)
  have hnewline : Text.charAt? "\nZé" 0 = some '\n' := Text.charAt?_append "" "\nZé"
  have hcapital : Text.charAt? "\nZé" 1 = some 'Z' := Text.charAt?_append "\n" "Zé"
  have haccent : Text.charAt? "\nZé" 2 = some 'é' := Text.charAt?_append "\nZ" "é"
  have hfirst : Text.FirstWhere (InUnion members) "\nZé" 0 (some ⟨2, 4⟩) := by
    refine ⟨'é', by decide, haccent, by decide, rfl, fun j d _ hj hd => ?_⟩
    obtain rfl | rfl : j = 0 ∨ j = 1 := by
      have hlt : j < 2 := hj
      omega
    · cases hnewline.symm.trans hd
      decide
    · cases hcapital.symm.trans hd
      decide
  have hother : Text.FirstWhere (¬ InUnion members ·) "\nZé" 0 (some ⟨0, 1⟩) :=
    ⟨'\n', by decide, hnewline, by decide, rfl, fun j d _ hj _ => absurd hj (Nat.not_lt_zero j)⟩
  have hend := (hplace p q hp hq "\nZé" 4 (by decide)).2 (by decide)
  exact ⟨hmembers, p, q, hp, hq, (hclass p hp "\nZé" 0).unique hfirst,
    (hnegation q hq "\nZé" 0).unique hother,
    (hplace p q hp hq "\nZé" 0 (by decide)).1 (by decide), hend⟩

end Program

end Backtrack
