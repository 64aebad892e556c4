import Backtrack.Proofs.Pieces

/-!
# The grammar of character classes

A class can be told from its text without a reader that looks back at the members it has: the text
after the bracket and perhaps a circumflex is split into tokens, up to a closing bracket that is not
the first of them (`ClassText.split`); tokens are grouped from left to right, a literal, a dash and
a literal being a range (`ClassText.group`); and a range that is out of order is an error, the first
one that there is (`ClassText.atoms`).

Main statement: `Parser.readAll_class`, a parser that reads a bracket reads what `ClassText.read`
makes of the text after it.

What the grammar makes of an open class and the rest of its text (`OpenClass.comesTo`) is left as it
is by each character that the class reads (`OpenClass.comesTo_cons`).
-/

namespace Backtrack

/-! ## The grammar -/

/-- A character of a class, perhaps after a backslash, and the offset where it or this backslash
stands. -/
structure ClassToken where
  offset : Nat
  escaped : Bool
  char : Char
deriving DecidableEq, Repr

namespace ClassToken

/-- What the token stands for by itself. -/
def atom (t : ClassToken) : Atom := if t.escaped then .ofEscape t.char else .char t.char

/-- The character that the token stands for, unless it is a metacharacter. -/
def literal? (t : ClassToken) : Option Char :=
  if t.escaped = true ∧ (Metachar.ofLetter? t.char).isSome = true then none else some t.char

def isDash (t : ClassToken) : Bool := !t.escaped && t.char == '-'

end ClassToken

/-- What a class has as one member. -/
inductive ClassItem where
  | single (t : ClassToken)
  | range (first last : Char) (dash : Nat)
deriving DecidableEq, Repr

namespace ClassItem

def atom : ClassItem → Atom
  | single t => t.atom
  | range first last _ => .range first last

def error? : ClassItem → Option PatternError
  | single _ => none
  | range first last dash => if last < first then some (.invalidRange first last dash) else none

end ClassItem

/-- How the text of a class ends: with a closing bracket, which ends at `offset`, before `rest`;
right after the backslash at `offset`; or anywhere else. -/
inductive ClassEnd where
  | closed (offset : Nat) (rest : List Char)
  | inEscape (offset : Nat)
  | unclosed
deriving DecidableEq, Repr

/-- A class that ends with its closing bracket, the offset where the bracket ends, and the text
after it. -/
structure ClosedClass where
  tree : Regex
  offset : Nat
  rest : List Char
deriving DecidableEq

namespace ClassText

/-- The tokens of a class whose text begins at byte offset `offset`.  It ends at the first bracket
that is not escaped; but a bracket that is the `first` token is one like any other. -/
def split (first : Bool) (offset : Nat) : List Char → List ClassToken × ClassEnd
  | [] => ([], .unclosed)
  | ['\\'] => ([], .inEscape offset)
  | '\\' :: c :: cs =>
    let (tokens, ending) := split false (offset + 1 + c.utf8Size) cs
    (⟨offset, true, c⟩ :: tokens, ending)
  | c :: cs =>
    if c = ']' ∧ first = false then ([], .closed (offset + 1) cs)
    else
      let (tokens, ending) := split false (offset + c.utf8Size) cs
      (⟨offset, false, c⟩ :: tokens, ending)

/-- Groups tokens from left to right: a literal, a dash and a literal are a range. -/
def group : List ClassToken → List ClassItem
  | x :: d :: y :: rest =>
    match x.literal?, d.isDash, y.literal? with
    | some first, true, some last => .range first last d.offset :: group rest
    | _, _, _ => .single x :: group (d :: y :: rest)
  | [x, d] => [.single x, .single d]
  | [x] => [.single x]
  | [] => []

/-- The members of a class, or what is wrong with the first of them that is out of order. -/
def atoms : List ClassItem → Except PatternError (List Atom)
  | [] => .ok []
  | item :: items =>
    match item.error? with
    | some e => .error e
    | none => (atoms items).map (item.atom :: ·)

def tree (negated : Bool) (members : List Atom) : Regex :=
  let positive := .charClass (members.map .atom)
  if negated then .negation positive else positive

/-- A class with its members known, the bracket that opens it being at `opened`. -/
def conclude (opened : Nat) (negated : Bool) (ending : ClassEnd)
    (members : Except PatternError (List Atom)) : Except PatternError ClosedClass :=
  members.bind fun members =>
    match ending with
    | .closed offset rest => .ok ⟨tree negated members, offset, rest⟩
    | .inEscape offset => .error (.unterminatedEscape offset)
    | .unclosed => .error (.unclosedClass opened)

/-- The class whose text begins at byte offset `offset`, after any circumflex. -/
def readMembers (opened : Nat) (negated : Bool) (offset : Nat) (cs : List Char) :
    Except PatternError ClosedClass :=
  let (tokens, ending) := split true offset cs
  conclude opened negated ending (atoms (group tokens))

/-- The class whose bracket stands at byte offset `opened`, before `cs`. -/
def read (opened : Nat) : List Char → Except PatternError ClosedClass
  | '^' :: cs => readMembers opened true (opened + 2) cs
  | cs => readMembers opened false (opened + 1) cs

/-! ## Splitting and grouping -/

section

variable {first : Bool} {offset : Nat} {c : Char} {cs : List Char}

theorem split_close : split false offset (']' :: cs) = ([], .closed (offset + 1) cs) := rfl

/-- An escape is no bracket, be it first or not. -/
theorem split_escape : split first offset ('\\' :: cs) = split false offset ('\\' :: cs) := by
  cases cs <;> rfl

theorem split_bare (hescape : c ≠ '\\') (hclose : c = ']' → first = true) :
    split first offset (c :: cs) =
      (⟨offset, false, c⟩ :: (split false (offset + c.utf8Size) cs).1,
        (split false (offset + c.utf8Size) cs).2) := by
  rw [split.eq_def]
  split
  · next h => cases h
  · next h => exact absurd (List.cons.inj h).1 hescape
  · next h => exact absurd (List.cons.inj h).1 hescape
  · next h =>
    obtain ⟨rfl, rfl⟩ := List.cons.inj h
    rw [if_neg]
    rintro ⟨hc, hfirst⟩
    rw [hclose hc] at hfirst
    cases hfirst

end

section

variable {x d y : ClassToken} {ts : List ClassToken} {a b : Char}

theorem literal?_of_isDash (h : d.isDash = true) : d.literal? = some '-' := by
  obtain ⟨offset, escaped, char⟩ := d
  simp only [ClassToken.isDash, Bool.and_eq_true, Bool.not_eq_true', beq_iff_eq] at h
  obtain ⟨rfl, rfl⟩ := h
  rfl

theorem atom_of_literal? (h : x.literal? = some a) : x.atom = .char a := by
  obtain ⟨offset, escaped, char⟩ := x
  unfold ClassToken.literal? at h
  split at h
  · cases h
  · next hletter =>
    cases h
    unfold ClassToken.atom
    cases escaped with
    | false => rfl
    | true =>
      have hnone : Metachar.ofLetter? char = none := by simpa using hletter
      exact Parser.ofEscape_of_not_letter hnone

/-- What is no literal is a metacharacter. -/
theorem exists_atom_of_not_literal (h : x.literal? = none) : ∃ m, x.atom = .metachar m := by
  obtain ⟨offset, escaped, char⟩ := x
  unfold ClassToken.literal? at h
  split at h
  · next hletter =>
    obtain ⟨m, hm⟩ := Option.isSome_iff_exists.1 hletter.2
    refine ⟨m, ?_⟩
    unfold ClassToken.atom Atom.ofEscape
    rw [if_pos hletter.1, hm]
  · cases h

theorem group_range (hx : x.literal? = some a) (hd : d.isDash = true) (hy : y.literal? = some b) :
    group (x :: d :: y :: ts) = .range a b d.offset :: group ts := by
  rw [group, hx, hd, hy]

/-- A token that no dash follows stands by itself. -/
theorem group_single (h : ∀ d ∈ ts.head?, d.isDash = false) :
    group (x :: ts) = .single x :: group ts := by
  match ts with
  | [] => rfl
  | [d] => rfl
  | d :: y :: rest =>
    rw [group, h d rfl]
    cases x.literal? <;> rfl

theorem group_metachar (h : x.literal? = none) : group (x :: ts) = .single x :: group ts := by
  match ts with
  | [] => rfl
  | [d] => rfl
  | d :: y :: rest => rw [group, h]

/-- A dash before a metacharacter joins nothing. -/
theorem group_dash_metachar (hy : y.literal? = none) :
    group (x :: d :: y :: ts) = .single x :: .single d :: .single y :: group ts := by
  have hbare : ∀ e ∈ (y :: ts).head?, e.isDash = false := by
    intro e he
    cases he
    rw [← Bool.not_eq_true]
    intro hdash
    rw [literal?_of_isDash hdash] at hy
    cases hy
  rw [group, hy, group_single hbare, group_metachar hy]
  cases x.literal? <;> cases d.isDash <;> rfl

end

end ClassText

/-! ## Open classes -/

namespace OpenClass

open ClassText

variable {k : OpenClass} {offset : Nat} {c : Char} {cs : List Char} {ts : List ClassToken}

/-- A bare character as a token, wherever it stands. -/
def bare (c : Char) : ClassToken := ⟨0, false, c⟩

/-- Members, latest first, as those that no later token changes, in order, and the tokens that may
still be the beginning of a range. -/
def hold : List Atom → List Atom × List ClassToken
  | .char c :: members => (members.reverse, [bare c])
  | members => (members.reverse, [])

/-- The members of an open class that no later token changes, and the tokens that may still be the
beginning of a range. -/
def parts (k : OpenClass) : List Atom × List ClassToken :=
  match k.mode with
  | .range start | .escape _ (some start) =>
    (k.members.reverse, [bare start.first, ⟨start.dash, false, '-'⟩])
  | _ => hold k.members

/-- The members of the class if `ts` are the tokens to come. -/
def membersWith (k : OpenClass) (ts : List ClassToken) : Except PatternError (List Atom) :=
  (atoms (group (k.parts.2 ++ ts))).map (k.parts.1 ++ ·)

/-- The tokens to come, if the class goes on at byte offset `offset` with `cs`. -/
def upcoming (k : OpenClass) (offset : Nat) (cs : List Char) : List ClassToken × ClassEnd :=
  match k.mode with
  | .escape opened _ => split false opened ('\\' :: cs)
  | .range _ => split false offset cs
  | _ => split k.members.isEmpty offset cs

/-- What the grammar makes of the class if it goes on at byte offset `offset` with `cs`. -/
def comesTo (k : OpenClass) (offset : Nat) (cs : List Char) : Except PatternError ClosedClass :=
  conclude k.opened k.negated (k.upcoming offset cs).2 (k.membersWith (k.upcoming offset cs).1)

/-! ### Tokens that become members -/

theorem atoms_single (x : ClassToken) (items : List ClassItem) :
    atoms (.single x :: items) = (atoms items).map (x.atom :: ·) := rfl

theorem map_map {α β γ : Type} (x : Except PatternError α) (f : α → β) (g : β → γ) :
    (x.map f).map g = x.map (g ∘ f) := by
  cases x <;> rfl

/-- Of a token only the character counts, if it is a literal. -/
theorem atoms_group_congr {x : ClassToken} (h : x.literal? = some c) :
    atoms (group (x :: ts)) = atoms (group (bare c :: ts)) := by
  have hatom : x.atom = (bare c).atom := atom_of_literal? h
  have hbare : (bare c).literal? = some c := rfl
  match ts with
  | [] => simp only [group, atoms_single, hatom]
  | [d] => simp only [group, atoms_single, hatom]
  | d :: y :: rest =>
    rw [group, group, h, hbare]
    cases d.isDash with
    | false => simp only [atoms_single, hatom]
    | true =>
      cases y.literal? with
      | none => simp only [atoms_single, hatom]
      | some b => rfl

theorem hold_eq (members : List Atom) :
    (∃ c rest, members = .char c :: rest ∧ hold members = (rest.reverse, [bare c])) ∨
      hold members = (members.reverse, []) := by
  match members with
  | .char c :: rest => exact .inl ⟨c, rest, rfl, rfl⟩
  | [] => exact .inr rfl
  | .range .. :: _ | .dot :: _ | .metachar _ :: _ | .lineStart :: _ | .lineEnd :: _ =>
    exact .inr rfl

/-- Whether a member begins, or a backslash that begins one has been read. -/
def AtMember (k : OpenClass) : Prop := k.mode = .member ∨ ∃ opened, k.mode = .escape opened none

theorem AtMember.parts_eq (h : k.AtMember) : k.parts = hold k.members := by
  obtain ⟨opened, negated, members, mode⟩ := k
  rcases h with rfl | ⟨o, rfl⟩ <;> rfl

/-- A member stands as it is, if it is no literal or no dash comes next. -/
theorem AtMember.membersWith_eq (h : k.AtMember)
    (hdash : ∀ d ∈ ts.head?, d.isDash = true → (hold k.members).2 = []) :
    k.membersWith ts = (atoms (group ts)).map (k.members.reverse ++ ·) := by
  unfold membersWith
  rw [h.parts_eq]
  rcases hold_eq k.members with ⟨c, rest, hmembers, hhold⟩ | hhold
  · have hbare : ∀ d ∈ ts.head?, d.isDash = false := by
      intro d hd
      rw [← Bool.not_eq_true]
      intro hisDash
      have hnil := hdash d hd hisDash
      rw [hhold] at hnil
      cases hnil
    rw [hhold, List.singleton_append, group_single hbare, atoms_single, map_map, hmembers]
    congr 1
    funext atoms
    simp [bare, ClassToken.atom]
  · rw [hhold]
    rfl

theorem AtMember.membersWith_nil (h : k.AtMember) : k.membersWith [] = .ok k.members.reverse := by
  rw [h.membersWith_eq (by intro d hd; cases hd)]
  simp [group, atoms, Except.map]

/-- A token that joins nothing is one more member. -/
theorem AtMember.membersWith_cons (h : k.AtMember) {t : ClassToken}
    (ht : t.isDash = true → (hold k.members).2 = []) :
    k.membersWith (t :: ts) = (k.push t.atom).membersWith ts := by
  rw [h.membersWith_eq fun d hd => by cases hd; exact ht]
  cases hliteral : t.literal? with
  | some c =>
    rw [atoms_group_congr hliteral, atom_of_literal? hliteral]
    rfl
  | none =>
    have hpush : (k.push t.atom).AtMember := .inl rfl
    have hatom : hold (k.push t.atom).members = ((k.push t.atom).members.reverse, []) := by
      obtain ⟨m, hm⟩ := exists_atom_of_not_literal hliteral
      rw [hm]
      rfl
    rw [group_metachar hliteral, atoms_single, map_map,
      hpush.membersWith_eq fun d _ _ => by rw [hatom]]
    congr 1
    funext atoms
    simp [push]

/-! ### Tokens of a range -/

/-- Whether the right end of a range begins, or a backslash that begins it has been read. -/
def AtRangeEnd (k : OpenClass) (start : RangeStart) : Prop :=
  k.mode = .range start ∨ ∃ opened, k.mode = .escape opened (some start)

variable {start : RangeStart}

theorem AtRangeEnd.parts_eq (h : k.AtRangeEnd start) :
    k.parts = (k.members.reverse, [bare start.first, ⟨start.dash, false, '-'⟩]) := by
  obtain ⟨opened, negated, members, mode⟩ := k
  rcases h with rfl | ⟨o, rfl⟩ <;> rfl

/-- A dash that nothing follows stands for itself. -/
theorem AtRangeEnd.membersWith_nil (h : k.AtRangeEnd start) :
    k.membersWith [] = .ok (k.pushDash start).members.reverse := by
  unfold membersWith
  rw [h.parts_eq]
  simp [group, atoms, ClassItem.error?, ClassItem.atom, Except.map, bare, ClassToken.atom, pushDash,
    push]

/-- A literal completes the range, which may be out of order. -/
theorem AtRangeEnd.membersWith_literal (h : k.AtRangeEnd start) {y : ClassToken}
    (hy : y.literal? = some c) :
    k.membersWith (y :: ts) =
      if c < start.first then .error (.invalidRange start.first c start.dash)
      else (k.push (.range start.first c)).membersWith ts := by
  have hdash : (ClassToken.mk start.dash false '-').isDash = true := rfl
  have hpush : (k.push (.range start.first c)).AtMember := .inl rfl
  have hhold : (hold (k.push (.range start.first c)).members).2 = [] := rfl
  rw [hpush.membersWith_eq fun d _ _ => hhold]
  unfold membersWith
  rw [h.parts_eq]
  have hfirst : (bare start.first).literal? = some start.first := rfl
  show (atoms (group (bare start.first :: _ :: y :: ts))).map _ = _
  rw [group_range hfirst hdash hy, atoms]
  by_cases hlt : c < start.first
  · simp only [ClassItem.error?, if_pos hlt]
    rfl
  · simp only [ClassItem.error?, if_neg hlt]
    rw [map_map]
    congr 1
    funext atoms
    simp [push, ClassItem.atom]

theorem AtRangeEnd.membersWith_metachar (h : k.AtRangeEnd start) {y : ClassToken}
    (hy : y.literal? = none) :
    k.membersWith (y :: ts) = ((k.pushDash start).push y.atom).membersWith ts := by
  have hpush : ((k.pushDash start).push y.atom).AtMember := .inl rfl
  have hhold : (hold ((k.pushDash start).push y.atom).members).2 = [] := by
    obtain ⟨m, hm⟩ := exists_atom_of_not_literal hy
    rw [hm]
    rfl
  rw [hpush.membersWith_eq fun d _ _ => hhold]
  unfold membersWith
  rw [h.parts_eq]
  show (atoms (group (bare start.first :: _ :: y :: ts))).map _ = _
  rw [group_dash_metachar hy, atoms_single, atoms_single, atoms_single, map_map, map_map, map_map]
  congr 1
  funext atoms
  simp [push, pushDash, bare, ClassToken.atom]

/-! ### One character after the other -/

/-- The next character stands at byte offset `offset`, and it is not the first one after the
bracket. -/
def Placed (k : OpenClass) (offset : Nat) : Prop :=
  match k.mode with
  | .opening => False
  | .escape opened _ => offset = opened + 1
  | .member | .range _ => True

/-- What comes of a class whose tokens to come are known. -/
theorem comesTo_eq {ending : ClassEnd} (h : k.upcoming offset cs = (ts, ending)) :
    k.comesTo offset cs = conclude k.opened k.negated ending (k.membersWith ts) := by
  unfold comesTo
  rw [h]

/-- A class whose next token is one more member is the class with that member. -/
theorem comesTo_push {k' : OpenClass} {a : Atom} {t : ClassToken} {ds : List Char} {next : Nat}
    (ht : k.upcoming offset cs = (t :: (split false next ds).1, (split false next ds).2))
    (hpush : ∀ ts, k.membersWith (t :: ts) = (k'.push a).membersWith ts)
    (hopened : k'.opened = k.opened) (hnegated : k'.negated = k.negated) :
    k.comesTo offset cs = (k'.push a).comesTo next ds := by
  rw [comesTo_eq ht, hpush, ← hopened, ← hnegated]
  rfl

/-- Where the text ends, the grammar finds that the class is not closed. -/
theorem comesTo_nil (h : k.Placed offset) : k.comesTo offset [] = .error k.unfinished := by
  have hend : ∃ members, k.membersWith [] = .ok members := by
    obtain ⟨opened, negated, members, mode⟩ := k
    match mode with
    | .member => exact ⟨_, AtMember.membersWith_nil (.inl rfl)⟩
    | .range start => exact ⟨_, AtRangeEnd.membersWith_nil (.inl rfl)⟩
    | .escape slash none => exact ⟨_, AtMember.membersWith_nil (.inr ⟨slash, rfl⟩)⟩
    | .escape slash (some start) => exact ⟨_, AtRangeEnd.membersWith_nil (.inr ⟨slash, rfl⟩)⟩
  obtain ⟨members, hend⟩ := hend
  cases hmode : k.mode with
  | opening =>
    unfold Placed at h
    rw [hmode] at h
    cases h
  | member | range start =>
    have hunclosed : k.upcoming offset [] = ([], .unclosed) := by
      unfold upcoming
      rw [hmode]
      rfl
    rw [comesTo_eq hunclosed, hend]
    unfold unfinished
    rw [hmode]
    rfl
  | escape slash start =>
    have hescape : k.upcoming offset [] = ([], .inEscape slash) := by
      unfold upcoming
      rw [hmode]
      rfl
    rw [comesTo_eq hescape, hend]
    unfold unfinished
    rw [hmode]
    rfl

/-- What the class comes to after one step of the reader, before `cs`. -/
def stepComesTo (next : Nat) (cs : List Char) : ClassStep → Except PatternError ClosedClass
  | .reading k => k.comesTo next cs
  | .complete t => .ok ⟨t, next, cs⟩

/-- A bare character, where a member begins, is one more token unless it is a bracket that closes
the class or a backslash. -/
theorem upcoming_bare (hmode : k.mode = .member) (hescape : c ≠ '\\')
    (hclose : c = ']' → k.members = []) :
    k.upcoming offset (c :: cs) =
      (⟨offset, false, c⟩ :: (split false (offset + c.utf8Size) cs).1,
        (split false (offset + c.utf8Size) cs).2) := by
  unfold upcoming
  rw [hmode]
  exact split_bare hescape fun hc => by rw [hclose hc]; rfl

/-- Where a member begins, the grammar goes on as the reader does. -/
theorem comesTo_member (hmode : k.mode = .member) :
    k.comesTo offset (c :: cs) = stepComesTo (offset + c.utf8Size) cs (k.readMember offset c) := by
  have hmember : k.AtMember := .inl hmode
  unfold readMember
  split
  · -- A closing bracket: it is a member if it comes first.
    split
    · next hempty =>
      refine comesTo_push (upcoming_bare hmode (by decide) fun _ => hempty) (fun ts => ?_) rfl rfl
      exact hmember.membersWith_cons fun h => by cases h
    · next hne =>
      have hclosed : k.upcoming offset (']' :: cs) = ([], .closed (offset + 1) cs) := by
        have hfirst : k.members.isEmpty = false := by simpa using hne
        unfold upcoming
        rw [hmode]
        show split k.members.isEmpty offset (']' :: cs) = _
        rw [hfirst, split_close]
      rw [comesTo_eq hclosed, hmember.membersWith_nil]
      rfl
  · -- A dash: it may join a literal before it and one after it.
    have hdash : k.upcoming offset ('-' :: cs) =
        (⟨offset, false, '-'⟩ :: (split false (offset + 1) cs).1,
          (split false (offset + 1) cs).2) :=
      upcoming_bare hmode (by decide) nofun
    split
    · next first members hmembers =>
      obtain ⟨opened, negated, members, mode⟩ := k
      cases hmode
      cases hmembers
      rw [comesTo_eq hdash]
      rfl
    · next hliteral =>
      refine comesTo_push hdash (fun ts => ?_) rfl rfl
      refine hmember.membersWith_cons fun _ => ?_
      rcases hold_eq k.members with ⟨first, rest, hmembers, -⟩ | hhold
      · exact absurd hmembers (hliteral first rest)
      · rw [hhold]
  · -- A backslash: the token is known with the next character.
    obtain ⟨opened, negated, members, mode⟩ := k
    cases hmode
    unfold comesTo upcoming
    simp only [split_escape]
    rfl
  · next hbracket hdash hescape =>
    refine comesTo_push (upcoming_bare hmode hescape fun h => absurd h hbracket) (fun ts => ?_) rfl
      rfl
    refine hmember.membersWith_cons fun h => absurd ?_ hdash
    simpa [ClassToken.isDash] using h

/-- A literal that stands where a range ends completes the range, in the grammar and in the
reader. -/
theorem AtRangeEnd.comesTo_literal (h : k.AtRangeEnd start) {t : ClassToken} {ds : List Char}
    {next : Nat} (hliteral : t.literal? = some c)
    (ht : k.upcoming offset cs = (t :: (split false next ds).1, (split false next ds).2)) :
    k.comesTo offset cs = (k.pushRange start c).bind (stepComesTo next ds) := by
  unfold pushRange
  rw [comesTo_eq ht, h.membersWith_literal hliteral]
  split
  · rfl
  · rfl

/-- Where the right end of a range begins, the grammar goes on as the reader does. -/
theorem comesTo_range (hmode : k.mode = .range start) :
    k.comesTo offset (c :: cs) =
      (k.read offset c).bind (stepComesTo (offset + c.utf8Size) cs) := by
  have hrange : k.AtRangeEnd start := .inl hmode
  have hsplit : k.upcoming offset (c :: cs) = split false offset (c :: cs) := by
    unfold upcoming
    rw [hmode]
  rw [Parser.read_of_range hmode]
  split
  · -- A closing bracket: the dash stands for itself.
    rw [split_close] at hsplit
    rw [comesTo_eq hsplit, hrange.membersWith_nil]
    rfl
  · -- A backslash: the token is known with the next character.
    obtain ⟨opened, negated, members, mode⟩ := k
    cases hmode
    rfl
  · next hclose hescape =>
    rw [split_bare hescape fun h => absurd h hclose] at hsplit
    exact hrange.comesTo_literal rfl hsplit

theorem upcoming_escaped {slash : Nat} {start : Option RangeStart}
    (hmode : k.mode = .escape slash start) (hoffset : offset = slash + 1) :
    k.upcoming offset (c :: cs) =
      (⟨slash, true, c⟩ :: (split false (offset + c.utf8Size) cs).1,
        (split false (offset + c.utf8Size) cs).2) := by
  unfold upcoming
  rw [hmode, hoffset]
  rfl

/-- After a backslash where a member begins, the grammar goes on as the reader does. -/
theorem comesTo_escape {slash : Nat} (hmode : k.mode = .escape slash none)
    (hoffset : offset = slash + 1) :
    k.comesTo offset (c :: cs) =
      (k.read offset c).bind (stepComesTo (offset + c.utf8Size) cs) := by
  have hmember : k.AtMember := .inr ⟨slash, hmode⟩
  unfold OpenClass.read
  rw [hmode]
  refine comesTo_push (upcoming_escaped hmode hoffset) (fun ts => ?_) rfl rfl
  exact hmember.membersWith_cons fun h => by cases h

/-- After a backslash where a range ends, the grammar goes on as the reader does. -/
theorem comesTo_rangeEscape {slash : Nat} (hmode : k.mode = .escape slash (some start))
    (hoffset : offset = slash + 1) :
    k.comesTo offset (c :: cs) =
      (k.read offset c).bind (stepComesTo (offset + c.utf8Size) cs) := by
  have hrange : k.AtRangeEnd start := .inr ⟨slash, hmode⟩
  have htoken : k.upcoming offset (c :: cs) = _ := upcoming_escaped hmode hoffset
  unfold OpenClass.read
  rw [hmode]
  cases hletter : Metachar.ofLetter? c with
  | some m =>
    have hliteral : (ClassToken.mk slash true c).literal? = none := by
      simp [ClassToken.literal?, hletter]
    have hatom : (ClassToken.mk slash true c).atom = .metachar m := by
      simp [ClassToken.atom, Atom.ofEscape, hletter]
    refine comesTo_push htoken (fun ts => ?_) rfl rfl
    rw [hrange.membersWith_metachar hliteral, hatom]
  | none =>
    have hliteral : (ClassToken.mk slash true c).literal? = some c := by
      simp [ClassToken.literal?, hletter]
    exact hrange.comesTo_literal hliteral htoken

/-- **One character** of a class leaves what the grammar makes of it. -/
theorem comesTo_cons (h : k.Placed offset) :
    k.comesTo offset (c :: cs) =
      (k.read offset c).bind (stepComesTo (offset + c.utf8Size) cs) := by
  unfold Placed at h
  cases hmode : k.mode with
  | opening =>
    rw [hmode] at h
    cases h
  | member =>
    unfold OpenClass.read
    rw [hmode]
    exact comesTo_member hmode
  | range start => exact comesTo_range hmode
  | escape slash start =>
    rw [hmode] at h
    cases start with
    | none => exact comesTo_escape hmode h
    | some start => exact comesTo_rangeEscape hmode h

/-- What holds after a character of a class: it goes on at byte offset `next`, or the character is
the bracket that closes it. -/
def StepPlaced (c : Char) (next : Nat) : ClassStep → Prop
  | .reading k => k.Placed next
  | .complete _ => c = ']'

theorem stepPlaced_readMember (k : OpenClass) (offset : Nat) (c : Char) :
    StepPlaced c (offset + c.utf8Size) (k.readMember offset c) := by
  unfold readMember
  split
  · split
    · exact trivial
    · rfl
  · split
    · exact trivial
    · exact trivial
  · rfl
  · exact trivial

theorem stepPlaced_pushRange {step : ClassStep} {next : Nat}
    (h : k.pushRange start c = .ok step) : StepPlaced c next step := by
  unfold pushRange at h
  split at h
  · cases h
  · cases h
    exact trivial

/-- The reader knows the place of the next character. -/
theorem stepPlaced_read {step : ClassStep} (h : k.read offset c = .ok step) :
    StepPlaced c (offset + c.utf8Size) step := by
  unfold OpenClass.read at h
  split at h
  · split at h
    · cases h
      exact trivial
    · cases h
      exact stepPlaced_readMember _ offset c
  · cases h
    exact stepPlaced_readMember k offset c
  · split at h
    · cases h
      rfl
    · cases h
      rfl
    · exact stepPlaced_pushRange h
  · cases h
    exact trivial
  · split at h
    · cases h
      exact trivial
    · exact stepPlaced_pushRange h

/-- Before any member the grammar says the same of an open class and of its text. -/
theorem comesTo_first (opened : Nat) (negated : Bool) (offset : Nat) (cs : List Char) :
    (OpenClass.mk opened negated [] .member).comesTo offset cs =
      readMembers opened negated offset cs := by
  have hmember : (OpenClass.mk opened negated [] .member).AtMember := .inl rfl
  have hnone : ∀ members : Except PatternError (List Atom),
      members.map ([].reverse ++ ·) = members :=
    fun members => by cases members <;> rfl
  rw [comesTo_eq rfl, hmember.membersWith_eq fun _ _ _ => rfl, hnone]
  rfl

end OpenClass

/-! ## Classes in a pattern -/

namespace Parser

variable {p : Parser} {k k' : OpenClass} {c : Char} {cs : List Char}

section

variable (hm : p.mode = .charClass k)
include hm

theorem read_of_reading (h : k.read p.offset c = .ok (.reading k')) :
    p.read c = .ok { p with offset := p.offset + c.utf8Size, mode := .charClass k' } := by
  unfold read readInPlace
  simp only [hm, h]
  rfl

theorem read_of_complete {t : Regex} (h : k.read p.offset c = .ok (.complete t)) :
    p.read c = .ok { p.push t with offset := p.offset + c.utf8Size } := by
  unfold read readInPlace
  simp only [hm, h]
  rfl

theorem read_of_classError {e : PatternError} (h : k.read p.offset c = .error e) :
    p.read c = .error e := by
  unfold read readInPlace
  simp only [hm, h]
  rfl

end

/-- Reading `cs`, the rest of a class, gives what the grammar says: the class becomes an item right
after its closing bracket, or the pattern is refused. -/
def ReadsClass (p : Parser) (cs : List Char) : Except PatternError ClosedClass → Prop
  | .ok found =>
    ∃ body, cs = body ++ ']' :: found.rest ∧
      p.readAll (body ++ [']']) = .ok { p.push found.tree with offset := found.offset }
  | .error e => (p.readAll cs).bind finish = .error e

/-- One character before the rest of a class. -/
theorem ReadsClass.cons {q : Parser} {found : Except PatternError ClosedClass}
    (h : q.ReadsClass cs found) (hread : p.read c = .ok q)
    (hpush : ∀ t offset, { q.push t with offset } = { p.push t with offset }) :
    p.ReadsClass (c :: cs) found := by
  cases found with
  | ok found =>
    obtain ⟨body, rfl, hbody⟩ := h
    refine ⟨c :: body, rfl, ?_⟩
    rw [List.cons_append, readAll_cons, hread, ← hpush]
    exact hbody
  | error e =>
    show (p.readAll (c :: cs)).bind finish = .error e
    rw [readAll_cons, hread]
    exact h

/-- What a parser reads of a class depends on its next step only. -/
theorem ReadsClass.congr {q : Parser} {found : Except PatternError ClosedClass}
    (h : q.ReadsClass (c :: cs) found) (hread : p.read c = q.read c)
    (hpush : ∀ t offset, { q.push t with offset } = { p.push t with offset }) :
    p.ReadsClass (c :: cs) found := by
  have hreadAll : ∀ ds, p.readAll (c :: ds) = q.readAll (c :: ds) := by
    intro ds
    rw [readAll_cons, readAll_cons, hread]
  cases found with
  | ok found =>
    obtain ⟨body, hcs, hbody⟩ := h
    refine ⟨body, hcs, ?_⟩
    obtain ⟨ds, hds⟩ : ∃ ds, body ++ [']'] = c :: ds := by
      cases body with
      | nil => exact ⟨[], by rw [(List.cons.inj hcs).1]; rfl⟩
      | cons d body => exact ⟨body ++ [']'], by rw [(List.cons.inj hcs).1]; rfl⟩
    rw [hds] at hbody ⊢
    rw [hreadAll, hbody, hpush]
  | error e =>
    show (p.readAll (c :: cs)).bind finish = .error e
    rw [hreadAll]
    exact h

/-- From any place in a class but the first, the class is read as the grammar says. -/
theorem readsClass_comesTo (hm : p.mode = .charClass k) (hplaced : k.Placed p.offset)
    (cs : List Char) : p.ReadsClass cs (k.comesTo p.offset cs) := by
  induction cs generalizing p k with
  | nil =>
    rw [OpenClass.comesTo_nil hplaced]
    show finish p = _
    unfold finish
    rw [hm]
  | cons c cs ih =>
    rw [OpenClass.comesTo_cons hplaced]
    cases hk : k.read p.offset c with
    | error e =>
      show (p.readAll (c :: cs)).bind finish = .error e
      rw [readAll_cons, read_of_classError hm hk]
      rfl
    | ok step =>
      cases step with
      | reading k' =>
        have hnext : k'.Placed (p.offset + c.utf8Size) := OpenClass.stepPlaced_read hk
        have hrest := ih (p := { p with offset := p.offset + c.utf8Size, mode := .charClass k' })
          rfl hnext
        exact hrest.cons (read_of_reading hm hk) fun _ _ => rfl
      | complete t =>
        obtain rfl : c = ']' := OpenClass.stepPlaced_read hk
        refine ⟨[], rfl, ?_⟩
        show p.readAll [']'] = _
        rw [readAll_cons, read_of_complete hm hk]
        rfl

/-- The text after the bracket and any circumflex is read as the grammar says. -/
theorem readsClass_readMembers {opened : Nat} {negated : Bool}
    (hm : p.mode = .charClass ⟨opened, negated, [], .member⟩) (cs : List Char) :
    p.ReadsClass cs (ClassText.readMembers opened negated p.offset cs) := by
  have hplaced : (OpenClass.mk opened negated [] .member).Placed p.offset := trivial
  rw [← OpenClass.comesTo_first]
  exact readsClass_comesTo hm hplaced cs

theorem readsClass_read {opened : Nat} (hm : p.mode = .charClass (.start opened))
    (hoffset : p.offset = opened + 1) (cs : List Char) :
    p.ReadsClass cs (ClassText.read opened cs) := by
  cases cs with
  | nil =>
    show finish p = _
    unfold finish
    rw [hm]
    rfl
  | cons c cs =>
    by_cases hc : c = '^'
    · subst hc
      have hcaret : (OpenClass.start opened).read p.offset '^' =
          .ok (.reading ⟨opened, true, [], .member⟩) := rfl
      have hnegated := read_of_reading hm hcaret
      rw [hoffset] at hnegated
      exact (readsClass_readMembers rfl cs).cons hnegated fun _ _ => rfl
    · have hread : p.read c =
          { p with mode := .charClass ⟨opened, false, [], .member⟩ }.read c := by
        unfold read readInPlace
        simp only [hm, read_of_member (k := .start opened) (.inl rfl) hc]
        rfl
      have hgrammar : ClassText.read opened (c :: cs) =
          ClassText.readMembers opened false p.offset (c :: cs) := by
        rw [hoffset]
        unfold ClassText.read
        split
        · next heq => exact absurd (List.cons.inj heq).1 hc
        · rfl
      rw [hgrammar]
      have hmembers := readsClass_readMembers
        (p := { p with mode := .charClass ⟨opened, false, [], .member⟩ }) rfl (c :: cs)
      exact hmembers.congr hread fun _ _ => rfl

/-- **Classes.**  After a bracket, a pattern goes on as the grammar of classes says: its class is
read up to the closing bracket, or the pattern is refused for what is wrong with the class. -/
theorem readAll_class (hp : p.mode.isSettleable = true) (cs : List Char) :
    match ClassText.read p.offset cs with
    | .ok found =>
      ∃ body, cs = body ++ ']' :: found.rest ∧
        p.readAll ('[' :: (body ++ [']'])) =
          .ok { p.settle.push found.tree with offset := found.offset }
    | .error e => (p.readAll ('[' :: cs)).bind finish = .error e := by
  have hopen : p.read '[' =
      .ok { p.settle with offset := p.offset + 1, mode := .charClass (.start p.offset) } := by
    unfold read
    rw [readInPlace_of_isSettleable hp (by decide) (by decide) (by decide) (by decide)]
    show Except.ok _ = _
    rw [p.settle_unchanged.2.2]
    rfl
  have hread := readsClass_read
    (p := { p.settle with offset := p.offset + 1, mode := .charClass (.start p.offset) }) rfl rfl cs
  split
  · next found hfound =>
    rw [hfound] at hread
    obtain ⟨body, hcs, hbody⟩ := hread
    refine ⟨body, hcs, ?_⟩
    rw [readAll_cons, hopen]
    exact hbody
  · next e hfound =>
    rw [hfound] at hread
    rw [readAll_cons, hopen]
    exact hread

/-- After `é{2`, whose brace the bracket settles. -/
theorem readAll_class_after_braces :
    let p : Parser := ⟨4, 0, [], ⟨[], [.char 'é']⟩, .braces ⟨2, ['2'], none⟩⟩
    p.mode.isSettleable = true ∧
      (∃ body, "^]+-a\\d-é-]x".toList = body ++ [']', 'x'] ∧
        p.readAll ('[' :: (body ++ [']'])) =
          .ok { p.settle.push (.negation (.charClass [.char ']', .atom (.range '+' 'a'),
            .atom (.metachar .digit), .char '-', .char 'é', .char '-'])) with offset := 17 }) ∧
      (p.readAll ('[' :: "]y-z-x-a\\".toList)).bind finish = .error (.invalidRange 'x' 'a' 11) := by
  intro p
  have hp : p.mode.isSettleable = true := rfl
  have hclosed := readAll_class hp "^]+-a\\d-é-]x".toList
  have hrange := readAll_class hp "]y-z-x-a\\".toList
  exact ⟨hp, hclosed, hrange⟩

end Parser

end Backtrack
