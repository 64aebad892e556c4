import Backtrack.Proofs.Relocation

/-!
# The outline of a pattern

Which parentheses of a pattern are those of groups can be told from its text alone: a scan from left
to right keeps track of backslashes and of the brackets of classes, and counts the parentheses that
are neither escaped nor in a class (`Outline`).  It refuses a parenthesis that closes nothing.

Main statement: `Parser.after_outline`, a parser that has read some characters has the outline of
these characters.  What two parentheses enclose is told in the same way (`Outline.Encloses`), and it
is one text (`Outline.Encloses.unique`).
-/

namespace Backtrack

/-! ## The outline of a pattern text -/

/-- Where the next character of a pattern stands: `classStart` is right after the bracket that opens
a class, and `classFirst` right after the circumflex that negates it. -/
inductive Place where
  | plain
  | escaped
  | classStart
  | classFirst
  | inClass
  | classEscaped
deriving DecidableEq

/-- What is known of the parentheses of a pattern after some of its characters: how many have been
opened, and how many of these have not been closed. -/
structure Outline where
  place : Place
  opened : Nat
  depth : Nat
deriving DecidableEq

namespace Outline

/-- Before the first character. -/
def start : Outline := ⟨.plain, 0, 0⟩

/-- One more character.  A bracket that comes first in a class does not close it, and a parenthesis
is one only if it is neither escaped nor in a class; it must not close what has not been opened. -/
def next (o : Outline) (c : Char) : Option Outline :=
  match o.place with
  | .plain =>
    if c = '(' then some { o with opened := o.opened + 1, depth := o.depth + 1 }
    else if c = ')' then if o.depth = 0 then none else some { o with depth := o.depth - 1 }
    else some { o with
      place := if c = '\\' then .escaped else if c = '[' then .classStart else .plain }
  | .escaped => some { o with place := .plain }
  | .classStart =>
    some { o with
      place := if c = '^' then .classFirst else if c = '\\' then .classEscaped else .inClass }
  | .classFirst => some { o with place := if c = '\\' then .classEscaped else .inClass }
  | .inClass =>
    some { o with
      place := if c = ']' then .plain else if c = '\\' then .classEscaped else .inClass }
  | .classEscaped => some { o with place := .inClass }

/-- Some more characters. -/
def after (o : Outline) (cs : List Char) : Option Outline := cs.foldlM next o

/-- The outline of a whole text. -/
def ofText (text : String) : Option Outline := start.after text.toList

/-- Whether the next character after the text would stand there. -/
def EndsAt (text : String) (place : Place) : Prop := ∃ o, ofText text = some o ∧ o.place = place

theorem after_cons (o : Outline) (c : Char) (cs : List Char) :
    o.after (c :: cs) = (o.next c).bind (·.after cs) := by
  rw [after, List.foldlM_cons]
  rfl

theorem after_singleton (o : Outline) (c : Char) : o.after [c] = o.next c := by
  rw [after_cons]
  exact Option.bind_fun_some _

/-- What a character can do: it opens a parenthesis, or it closes one, or it does the same whatever
parentheses come before. -/
theorem next_cases {o o' : Outline} {c : Char} (h : o.next c = some o') :
    (o.place = .plain ∧ c = '(' ∧ o' = ⟨.plain, o.opened + 1, o.depth + 1⟩) ∨
    (o.place = .plain ∧ c = ')' ∧ o.depth ≠ 0 ∧ o' = ⟨.plain, o.opened, o.depth - 1⟩) ∨
    (o'.depth = o.depth ∧ o'.opened = o.opened ∧ ∀ opened depth,
      (⟨o.place, opened, depth⟩ : Outline).next c = some ⟨o'.place, opened, depth⟩) := by
  obtain ⟨place, n, d⟩ := o
  cases place with
  | plain =>
    simp only [next] at h ⊢
    by_cases hopen : c = '('
    · rw [if_pos hopen] at h
      cases h
      exact .inl ⟨trivial, hopen, rfl⟩
    · rw [if_neg hopen] at h
      by_cases hclose : c = ')'
      · rw [if_pos hclose] at h
        split at h
        · cases h
        · next hd =>
          cases h
          exact .inr (.inl ⟨trivial, hclose, hd, rfl⟩)
      · rw [if_neg hclose] at h
        cases h
        refine .inr (.inr ⟨rfl, rfl, fun opened depth => ?_⟩)
        rw [if_neg hopen, if_neg hclose]
  | _ =>
    cases h
    exact .inr (.inr ⟨rfl, rfl, fun opened depth => rfl⟩)

/-- Only a parenthesis that is neither escaped nor in a class counts as opened. -/
theorem opened_of_next {o o' : Outline} {c : Char} (h : o.next c = some o') :
    o'.opened = o.opened ∨ o.place = .plain ∧ c = '(' ∧ o'.opened = o.opened + 1 := by
  rcases next_cases h with ⟨hplain, hc, rfl⟩ | ⟨-, -, -, rfl⟩ | ⟨-, hopened, -⟩
  · exact .inr ⟨hplain, hc, rfl⟩
  · exact .inl rfl
  · exact .inl hopened

/-- Each of the parentheses that are opened is opened somewhere. -/
theorem exists_opening {o o' : Outline} {cs : List Char} (h : o.after cs = some o') {i : Nat}
    (hle : o.opened ≤ i) (hlt : i < o'.opened) :
    ∃ u v depth, cs = u ++ '(' :: v ∧ o.after u = some ⟨.plain, i, depth⟩ := by
  induction cs generalizing o with
  | nil =>
    cases h
    omega
  | cons c cs ih =>
    rw [after_cons] at h
    obtain ⟨o₁, ho₁, h⟩ := Option.bind_eq_some_iff.1 h
    by_cases hi : o₁.opened ≤ i
    · obtain ⟨u, v, depth, rfl, hu⟩ := ih h hi
      exact ⟨c :: u, v, depth, rfl, by rw [after_cons, ho₁, Option.bind_some, hu]⟩
    · rcases opened_of_next ho₁ with heq | ⟨hplain, rfl, heq⟩
      · omega
      · obtain rfl : i = o.opened := by omega
        exact ⟨[], cs, o.depth, rfl, by rw [← hplain]; rfl⟩

theorem after_append (o : Outline) (cs ds : List Char) :
    o.after (cs ++ ds) = (o.after cs).bind (·.after ds) := by
  rw [after, List.foldlM_append]
  rfl

theorem opened_le_of_after {o o' : Outline} {cs : List Char} (h : o.after cs = some o') :
    o.opened ≤ o'.opened := by
  induction cs generalizing o with
  | nil =>
    cases h
    exact Nat.le_refl _
  | cons c cs ih =>
    rw [after_cons] at h
    obtain ⟨o₁, ho₁, h⟩ := Option.bind_eq_some_iff.1 h
    have hrest := ih h
    rcases opened_of_next ho₁ with heq | ⟨-, -, heq⟩ <;> omega

/-- Of the parentheses of `text` that are neither escaped nor in a class, the one that is opened
after `i` others and the one that closes it enclose `body`. -/
def Encloses (text : String) (i : Nat) (body : String) : Prop :=
  ∃ before rest depth inside, text = before ++ "(" ++ body ++ ")" ++ rest ∧
    ofText before = some ⟨.plain, i, depth⟩ ∧ ofText body = some ⟨.plain, inside, 0⟩

/-- A text is split in one way only at a character after which no split qualifies that qualified
before it. -/
theorem eq_of_append_cons {P : List Char → Prop} {c : Char} (hP : ∀ u v, P u → ¬ P (u ++ c :: v))
    {u u' v v' : List Char} (h : u ++ c :: v = u' ++ c :: v') (hu : P u) (hu' : P u') :
    u = u' ∧ v = v' := by
  rcases List.append_eq_append_iff.1 h with ⟨a, rfl, ha⟩ | ⟨a, rfl, ha⟩
  · cases a with
    | nil => exact ⟨(List.append_nil u).symm, (List.cons.inj ha).2⟩
    | cons d a =>
      obtain ⟨rfl, -⟩ := List.cons.inj ha
      exact absurd hu' (hP u a hu)
  · cases a with
    | nil => exact ⟨List.append_nil u', (List.cons.inj ha).2.symm⟩
    | cons d a =>
      obtain ⟨rfl, -⟩ := List.cons.inj ha
      exact absurd hu (hP u' a hu')

/-- After an opening parenthesis more of them have been opened. -/
theorem not_opened_again {u v : List Char} {i depth depth' : Nat}
    (h : start.after u = some ⟨.plain, i, depth⟩) :
    start.after (u ++ '(' :: v) ≠ some ⟨.plain, i, depth'⟩ := by
  intro h'
  rw [after_append, h, Option.bind_some, after_cons] at h'
  have hle : i + 1 ≤ i := opened_le_of_after (o := ⟨.plain, i + 1, depth + 1⟩) h'
  omega

/-- Where all parentheses are closed, none can be closed. -/
theorem after_closing {u v : List Char} {inside : Nat}
    (h : start.after u = some ⟨.plain, inside, 0⟩) : start.after (u ++ ')' :: v) = none := by
  rw [after_append, h, Option.bind_some, after_cons]
  rfl

/-- Two parentheses that belong together enclose one text. -/
theorem Encloses.unique {text body body' : String} {i : Nat} (h : Encloses text i body)
    (h' : Encloses text i body') : body = body' := by
  obtain ⟨u, w, depth, inside, htext, hu, hbody⟩ := h
  obtain ⟨u', w', depth', inside', htext', hu', hbody'⟩ := h'
  rw [htext, ← String.toList_inj] at htext'
  simp only [String.toList_append, List.append_assoc] at htext'
  replace htext' : u.toList ++ '(' :: (body.toList ++ ')' :: w.toList) =
    u'.toList ++ '(' :: (body'.toList ++ ')' :: w'.toList) := htext'
  obtain ⟨-, hsame⟩ := eq_of_append_cons
    (P := fun u => ∃ depth, start.after u = some ⟨.plain, i, depth⟩)
    (fun u v ⟨depth, hu⟩ ⟨depth', hv⟩ => not_opened_again hu hv) htext' ⟨_, hu⟩ ⟨_, hu'⟩
  obtain ⟨hsame, -⟩ := eq_of_append_cons
    (P := fun u => ∃ inside, start.after u = some ⟨.plain, inside, 0⟩)
    (fun u v ⟨inside, hu⟩ ⟨inside', hv⟩ => by rw [after_closing hu] at hv; cases hv)
    hsame ⟨_, hbody⟩ ⟨_, hbody'⟩
  exact String.toList_inj.1 hsame

end Outline

/-! ## The outline that a parser knows -/

/-- Where the next character of an open class stands. -/
def OpenClass.place (k : OpenClass) : Place :=
  match k.mode with
  | .opening => .classStart
  | .member => if k.members = [] then .classFirst else .inClass
  | .range _ => .inClass
  | .escape .. => .classEscaped

/-- Right after the bracket, a class has no members. -/
def OpenClass.Begun (k : OpenClass) : Prop :=
  match k.mode with
  | .opening => k.members = []
  | _ => True

/-- Where the next character stands after one more character of a class. -/
def ClassStep.place : ClassStep → Place
  | .reading k => k.place
  | .complete _ => .plain

/-- Right after the bracket, a class has no members. -/
def ClassStep.Begun : ClassStep → Prop
  | .reading k => k.Begun
  | .complete _ => True

namespace OpenClass

variable {k : OpenClass} {offset : Nat} {c : Char} {s : ClassStep}

theorem place_push (k : OpenClass) (a : Atom) : (k.push a).place = .inClass := rfl

theorem begun_push (k : OpenClass) (a : Atom) : (k.push a).Begun := trivial

theorem place_of_pushRange {start : RangeStart} {last : Char}
    (h : k.pushRange start last = .ok s) : s.place = .inClass ∧ s.Begun := by
  unfold pushRange at h
  split at h
  · cases h
  · cases h
    exact ⟨rfl, trivial⟩

/-- A member is an escape, or the class is closed, or it goes on. -/
theorem place_readMember (k : OpenClass) (offset : Nat) (c : Char) :
    (k.readMember offset c).Begun ∧
    (k.readMember offset c).place =
      if c = ']' ∧ k.members ≠ [] then .plain
      else if c = '\\' then .classEscaped else .inClass := by
  unfold readMember
  split
  · by_cases hmembers : k.members = []
    · simp [hmembers, ClassStep.Begun, ClassStep.place, place_push, begun_push]
    · simp [hmembers, ClassStep.Begun, ClassStep.place]
  · split <;> exact ⟨trivial, rfl⟩
  · exact ⟨trivial, rfl⟩
  · next hbracket _ hescape =>
    refine ⟨trivial, ?_⟩
    rw [if_neg fun h => hbracket h.1, if_neg hescape]
    rfl

/-- A character of a class changes the outline as it changes the class. -/
theorem next_of_read (hk : k.Begun) (h : k.read offset c = .ok s) (opened depth : Nat) :
    (⟨k.place, opened, depth⟩ : Outline).next c = some ⟨s.place, opened, depth⟩ ∧ s.Begun := by
  unfold read at h
  cases hm : k.mode with
  | opening =>
    have hmembers : k.members = [] := by
      rw [Begun, hm] at hk
      exact hk
    simp only [hm] at h
    by_cases hnegated : c = '^'
    · rw [if_pos hnegated] at h
      cases h
      refine ⟨?_, trivial⟩
      simp [place, hm, Outline.next, ClassStep.place, hmembers, hnegated]
    · rw [if_neg hnegated] at h
      cases h
      obtain ⟨hbegun, hplace⟩ := place_readMember { k with mode := .member } offset c
      refine ⟨?_, hbegun⟩
      rw [hplace]
      simp [place, hm, Outline.next, hmembers, hnegated]
  | member =>
    simp only [hm] at h
    cases h
    obtain ⟨hbegun, hplace⟩ := place_readMember k offset c
    refine ⟨?_, hbegun⟩
    rw [hplace]
    by_cases hmembers : k.members = [] <;> simp [place, hm, Outline.next, hmembers]
  | range start =>
    simp only [hm] at h
    split at h
    · cases h
      exact ⟨by simp [place, hm, Outline.next, ClassStep.place], trivial⟩
    · cases h
      exact ⟨by simp [place, hm, Outline.next, ClassStep.place], trivial⟩
    · next hbracket hescape =>
      obtain ⟨hplace, hbegun⟩ := place_of_pushRange h
      refine ⟨?_, hbegun⟩
      simp only [place, hm, Outline.next, hplace]
      rw [if_neg hbracket, if_neg hescape]
  | escape opened start =>
    cases start with
    | none =>
      simp only [hm] at h
      cases h
      exact ⟨by simp [place, hm, Outline.next, ClassStep.place, push], trivial⟩
    | some start =>
      simp only [hm] at h
      split at h
      · cases h
        exact ⟨by simp [place, hm, Outline.next, ClassStep.place, push], trivial⟩
      · obtain ⟨hplace, hbegun⟩ := place_of_pushRange h
        exact ⟨by simp [place, hm, Outline.next, hplace], hbegun⟩

end OpenClass

def Mode.place : Mode → Place
  | .item | .quantifier .. | .braces _ => .plain
  | .escape _ => .escaped
  | .charClass k => k.place

namespace Parser

variable {p q : Parser} {c : Char} {cs : List Char}

/-- What a parser knows of the parentheses. -/
def outline (p : Parser) : Outline := ⟨p.mode.place, p.groups, p.enclosing.length⟩

/-- Right after its bracket, a class has no members. -/
def Begun (p : Parser) : Prop :=
  match p.mode with
  | .charClass k => k.Begun
  | _ => True

theorem begun_start : (start 0).Begun := trivial

theorem isSettleable_iff_place {m : Mode} : m.isSettleable = true ↔ m.place = .plain := by
  cases m with
  | charClass k =>
    obtain ⟨opened, negated, members, mode⟩ := k
    cases mode with
    | member =>
      by_cases h : members = [] <;> simp [Mode.isSettleable, Mode.place, OpenClass.place, h]
    | _ => simp [Mode.isSettleable, Mode.place, OpenClass.place]
  | _ => simp [Mode.isSettleable, Mode.place]

/-- Settling what is pending leaves the outline as it is. -/
theorem outline_settle (h : p.mode.isSettleable = true) : p.settle.outline = p.outline := by
  obtain ⟨henclosing, hgroups, -⟩ := p.settle_unchanged
  unfold outline
  rw [henclosing, hgroups, mode_settle_of_isSettleable h, isSettleable_iff_place.1 h]
  rfl

/-- Where neither an escape nor a class has begun, this character begins neither and is no
parenthesis. -/
abbrev Ordinary (c : Char) : Prop := c ≠ '(' ∧ c ≠ ')' ∧ c ≠ '\\' ∧ c ≠ '['

/-- An ordinary character changes nothing. -/
theorem next_outline_of_plain (hp : p.mode.place = .plain) (hq : q.mode.place = .plain)
    (hgroups : q.groups = p.groups) (henclosing : q.enclosing = p.enclosing)
    (hc : Ordinary c) : p.outline.next c = some q.outline := by
  unfold outline Outline.next
  rw [hp, hq, hgroups, henclosing]
  simp only [if_neg hc.1, if_neg hc.2.1, if_neg hc.2.2.1, if_neg hc.2.2.2]

theorem next_outline_quantify {least : Nat} {most : Option Nat} (hm : p.mode = .item)
    (hc : Ordinary c) (h : p.quantify least most = .ok q) :
    p.outline.next c = some q.outline ∧ q.Begun := by
  unfold quantify at h
  split at h
  · cases h
  · cases h
    exact ⟨next_outline_of_plain (by rw [hm]; rfl) rfl rfl rfl hc, trivial⟩

theorem next_outline_readItem (hm : p.mode = .item) (h : p.readItem c = .ok q) :
    p.outline.next c = some q.outline ∧ q.Begun := by
  have hplain : p.mode.place = .plain := by rw [hm]; rfl
  unfold readItem at h
  split at h
  · -- a bar
    cases h
    exact ⟨next_outline_of_plain hplain hplain rfl rfl (by decide), by simp only [Begun, hm]⟩
  · -- an opening parenthesis
    cases h
    refine ⟨?_, by simp only [Begun, hm]⟩
    simp [outline, Outline.next, hplain]
  · -- a closing parenthesis
    unfold closeGroup at h
    split at h
    · cases h
    · next g enclosing henclosing =>
      cases h
      exact ⟨by simp [outline, Outline.next, hm, henclosing, Mode.place], trivial⟩
  · exact next_outline_quantify hm (by decide) h
  · exact next_outline_quantify hm (by decide) h
  · exact next_outline_quantify hm (by decide) h
  · -- an opening brace
    cases h
    split
    · exact ⟨next_outline_of_plain hplain rfl rfl rfl (by decide), trivial⟩
    · exact ⟨next_outline_of_plain hplain rfl rfl rfl (by decide), trivial⟩
  · -- a bracket
    cases h
    exact ⟨by simp [outline, Outline.next, hm, Mode.place, OpenClass.start, OpenClass.place], rfl⟩
  · -- a backslash
    cases h
    exact ⟨by simp [outline, Outline.next, hm, Mode.place], trivial⟩
  -- what is one item by itself
  · cases h
    exact ⟨next_outline_of_plain hplain rfl rfl rfl (by decide), trivial⟩
  · cases h
    exact ⟨next_outline_of_plain hplain rfl rfl rfl (by decide), trivial⟩
  · cases h
    exact ⟨next_outline_of_plain hplain rfl rfl rfl (by decide), trivial⟩
  · cases h
    refine ⟨next_outline_of_plain hplain rfl rfl rfl ?_, trivial⟩
    refine ⟨?_, ?_, ?_, ?_⟩ <;> assumption

theorem next_outline_settle (hm : p.mode.isSettleable = true) (h : p.settle.readItem c = .ok q) :
    p.outline.next c = some q.outline ∧ q.Begun := by
  rw [← outline_settle hm]
  exact next_outline_readItem (mode_settle_of_isSettleable hm) h

theorem next_outline_closeBraces {b : Braces} (hm : p.mode = .braces b)
    (h : p.closeBraces b = .ok q) : p.outline.next '}' = some q.outline ∧ q.Begun := by
  have hplain : p.mode.place = .plain := by rw [hm]; rfl
  unfold closeBraces at h
  split at h
  · exact next_outline_settle (by rw [hm]; rfl) h
  · cases h
    exact ⟨next_outline_of_plain hplain rfl rfl rfl (by decide), trivial⟩
  · split at h
    · cases h
    · cases h
      exact ⟨next_outline_of_plain hplain rfl rfl rfl (by decide), trivial⟩

/-- A character of a quantifier in braces is no parenthesis. -/
theorem ordinary_of_push? {b b' : Braces} (h : b.push? c = some b') : Ordinary c := by
  have hnone : ∀ d : Char, d ≠ ',' → d.isDigit = false → b.push? d = none := by
    intro d hcomma hdigit
    unfold Braces.push?
    cases b.upper <;> simp [hcomma, hdigit]
  refine ⟨?_, ?_, ?_, ?_⟩ <;>
    · rintro rfl
      rw [hnone _ (by decide) (by decide)] at h
      cases h

/-- **Each character** changes the outline as it changes the parser. -/
theorem next_outline_readInPlace (hp : p.Begun) (h : p.readInPlace c = .ok q) :
    p.outline.next c = some q.outline ∧ q.Begun := by
  unfold readInPlace at h
  cases hm : p.mode with
  | item =>
    rw [hm] at h
    exact next_outline_readItem hm h
  | escape offset =>
    rw [hm] at h
    cases h
    exact ⟨by simp [outline, hm, Mode.place, Outline.next, push], trivial⟩
  | quantifier least most =>
    simp only [hm] at h
    split at h
    · next hlazy =>
      cases h
      refine ⟨next_outline_of_plain (by rw [hm]; rfl) rfl rfl rfl ?_, trivial⟩
      rw [hlazy]
      decide
    · exact next_outline_settle (by rw [hm]; rfl) h
  | braces b =>
    simp only [hm] at h
    split at h
    · next hpush =>
      cases h
      exact ⟨next_outline_of_plain (by rw [hm]; rfl) rfl rfl rfl (ordinary_of_push? hpush), trivial⟩
    · split at h
      · next hbrace =>
        rw [hbrace]
        exact next_outline_closeBraces hm h
      · exact next_outline_settle (by rw [hm]; rfl) h
  | charClass k =>
    simp only [hm] at h
    obtain ⟨s, hread, rfl⟩ := map_eq_ok_iff.1 h
    have hk : k.Begun := by
      rw [Begun, hm] at hp
      exact hp
    obtain ⟨hnext, hbegun⟩ := k.next_of_read hk hread p.groups p.enclosing.length
    unfold outline
    rw [hm]
    cases s with
    | reading k' => exact ⟨hnext, hbegun⟩
    | complete t => exact ⟨hnext, trivial⟩

theorem next_outline (hp : p.Begun) (h : p.read c = .ok q) :
    p.outline.next c = some q.outline ∧ q.Begun := by
  obtain ⟨r, hread, rfl⟩ := map_eq_ok_iff.1 h
  obtain ⟨hnext, hbegun⟩ := next_outline_readInPlace hp hread
  exact ⟨hnext, hbegun⟩

theorem Begun.readAll (hp : p.Begun) (h : p.readAll cs = .ok q) : q.Begun := by
  induction cs generalizing p with
  | nil =>
    cases h
    exact hp
  | cons c cs ih =>
    obtain ⟨r, hread, h⟩ := readAll_cons_eq_ok.1 h
    exact ih (next_outline hp hread).2 h

/-- Some characters change the outline as they change the parser. -/
theorem after_outline (hp : p.Begun) (h : p.readAll cs = .ok q) :
    p.outline.after cs = some q.outline := by
  induction cs generalizing p with
  | nil =>
    cases h
    rfl
  | cons c cs ih =>
    obtain ⟨r, hread, h⟩ := readAll_cons_eq_ok.1 h
    obtain ⟨hnext, hbegun⟩ := next_outline hp hread
    rw [Outline.after_cons, hnext, Option.bind_some]
    exact ih hbegun h

/-- Where the next character of a pattern stands can be told from the text before it. -/
theorem endsAt_of_readAll (h : (start 0).readAll cs = .ok p) :
    Outline.EndsAt (String.ofList cs) p.mode.place := by
  refine ⟨p.outline, ?_, rfl⟩
  rw [Outline.ofText, String.toList_ofList]
  exact after_outline begun_start h

end Parser

end Backtrack
