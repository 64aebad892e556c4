import Backtrack.Proofs.Pieces

/-!
# Reading where something has been read before

A pattern can stand at the end of a longer text.  Offsets then count from further left, its
groups are numbered from a higher slot on, and branches that are complete stand in front of
its own.  `Prior` is what comes before, and `Parser.after r p` is where parser `p` would be
if `r` had come before all that it has read.  Reading comes to the same:

    a character of a class     (OpenClass.read_after)
    one character              (Parser.read_after)
    any number of them         (Parser.readAll_after)
    the end of the pattern     (Parser.finish_after)

Main statements: `Regex.parse_bar`, what two patterns are with a bar between them, and
`Regex.parseFrom_append`, what a pattern is that begins in the middle of a text.  That reading
never looks at what comes before is not put into this by cutting the text: a parser that takes its
characters from the whole text comes to the same (`Regex.parseFrom_eq_readOn`).
-/

namespace Backtrack

/-! ## Errors -/

/-- The same error where `n` more bytes come before. -/
def PatternError.later (n : Nat) : PatternError → PatternError
  | unterminatedEscape offset => unterminatedEscape (offset + n)
  | unclosedGroup offset => unclosedGroup (offset + n)
  | unmatchedParen offset => unmatchedParen (offset + n)
  | unclosedClass offset => unclosedClass (offset + n)
  | invalidRange first last offset => invalidRange first last (offset + n)
  | invalidBounds least most offset => invalidBounds least most (offset + n)
  | nothingToRepeat offset => nothingToRepeat (offset + n)
  | tooLarge limit => tooLarge limit

/-- The same result where `n` more bytes come before and `f` is done to what has been read. -/
def relocate {α β : Type} (n : Nat) (f : α → β) : Except PatternError α → Except PatternError β
  | .error e => .error (e.later n)
  | .ok a => .ok (f a)

/-! ## Trees -/

namespace Regex

mutual

/-- The tree with the slots of its groups raised by `n`. -/
def raise (n : Nat) : Regex → Regex
  | .atom a => .atom a
  | .seq items => .seq (raiseAll n items)
  | .alt branches => .alt (raiseAll n branches)
  | .charClass members => .charClass (raiseAll n members)
  | .negation body => .negation (raise n body)
  | .group slot body => .group (slot + n) (raise n body)
  | .repeated body count => .repeated (raise n body) count

/-- The trees with the slots of their groups raised by `n`. -/
def raiseAll (n : Nat) : List Regex → List Regex
  | [] => []
  | t :: rest => raise n t :: raiseAll n rest

end

/-- The branches of a tree; what is no alternation is its own only branch. -/
def branchList : Regex → List Regex
  | .alt branches => branches
  | t => [t]

/-- Trees side by side; a single one stands without an alternation. -/
def ofBranches : List Regex → Regex
  | [t] => t
  | ts => .alt ts

variable (n : Nat)

theorem raiseAll_eq_map (ts : List Regex) : raiseAll n ts = ts.map (raise n) := by
  induction ts with
  | nil => rfl
  | cons t rest ih => rw [raiseAll, ih, List.map_cons]

theorem raise_zero (t : Regex) : t.raise 0 = t := by
  have hall : ∀ ts : List Regex, (∀ t ∈ ts, t.raise 0 = t) → raiseAll 0 ts = ts := by
    intro ts ih
    rw [raiseAll_eq_map, List.map_congr_left ih, List.map_id']
  induction t with
  | atom a => rfl
  | seq items ih => rw [raise, hall items ih]
  | alt branches ih => rw [raise, hall branches ih]
  | charClass members ih => rw [raise, hall members ih]
  | negation body ih => rw [raise, ih]
  | group slot body ih => rw [raise, ih, Nat.add_zero]
  | repeated body count ih => rw [raise, ih]

theorem branchList_raise (t : Regex) : (t.raise n).branchList = t.branchList.map (raise n) := by
  cases t with
  | alt branches => exact raiseAll_eq_map n branches
  | _ => rfl

theorem raise_ofBranches (ts : List Regex) :
    (ofBranches ts).raise n = ofBranches (ts.map (raise n)) := by
  match ts with
  | [] => rfl
  | [t] => rfl
  | t :: u :: rest => exact congrArg Regex.alt (raiseAll_eq_map n (t :: u :: rest))

/-- Two lists of branches, one after the other, are an alternation. -/
theorem ofBranches_append {ts us : List Regex} (hts : ts ≠ []) (hus : us ≠ []) :
    ofBranches (ts ++ us) = .alt (ts ++ us) := by
  obtain ⟨t, ts, rfl⟩ := List.exists_cons_of_ne_nil hts
  obtain ⟨u, us, rfl⟩ := List.exists_cons_of_ne_nil hus
  cases ts <;> rfl

end Regex

open Regex (raise raiseAll raiseAll_eq_map ofBranches branchList)

namespace Level

variable (l : Level)

theorem close_eq_ofBranches :
    l.close = ofBranches (l.branches.reverse ++ [.seq l.items.reverse]) := by
  unfold close
  cases l.branches with
  | nil => rfl
  | cons b bs =>
    rw [Regex.ofBranches_append (by simp) (by simp)]
    exact congrArg Regex.alt List.reverse_cons

theorem branchList_close : branchList l.close = l.branches.reverse ++ [.seq l.items.reverse] := by
  unfold close
  cases l.branches with
  | nil => rfl
  | cons b bs => exact List.reverse_cons

end Level

/-! ## What comes before -/

/-- What comes before a pattern: so many bytes, so many groups, and branches that are complete
when the pattern begins, latest first. -/
structure Prior where
  bytes : Nat
  groups : Nat
  branches : List Regex

namespace Prior

/-- A level inside the groups `gs`, innermost first.  The branches that come before are those of
the level outside all groups. -/
def level (r : Prior) (gs : List OpenGroup) (l : Level) : Level where
  branches := raiseAll r.groups l.branches ++
    match gs with
    | [] => r.branches
    | _ :: _ => []
  items := raiseAll r.groups l.items

/-- The groups that are open, innermost first. -/
def enclosing (r : Prior) : List OpenGroup → List OpenGroup
  | [] => []
  | g :: gs =>
    ⟨g.opened + r.bytes, g.slot + r.groups, r.level gs g.outer⟩ :: r.enclosing gs

/-- A whole pattern. -/
def parsed (r : Prior) (p : Parsed) : Parsed where
  root := ofBranches (r.branches.reverse ++ branchList (p.root.raise r.groups))
  groups := p.groups + r.groups

variable (r : Prior) (gs : List OpenGroup) (g : OpenGroup) (l : Level)

theorem level_nextBranch : r.level gs l.nextBranch = (r.level gs l).nextBranch := by
  simp [level, Level.nextBranch, raiseAll_eq_map, raise]

theorem level_repeatLast (count : Quantifier) :
    r.level gs (l.repeatLast count) = (r.level gs l).repeatLast count := by
  obtain ⟨branches, items⟩ := l
  cases items <;> rfl

theorem items_level_eq_nil : (r.level gs l).items = [] ↔ l.items = [] := by
  show raiseAll r.groups l.items = [] ↔ _
  rw [raiseAll_eq_map, List.map_eq_nil_iff]

theorem close_level_cons : (r.level (g :: gs) l).close = l.close.raise r.groups := by
  rw [Level.close_eq_ofBranches, Level.close_eq_ofBranches, Regex.raise_ofBranches]
  simp [level, raiseAll_eq_map, raise]

theorem close_level_of_branches (h : r.branches = []) :
    (r.level gs l).close = l.close.raise r.groups := by
  rw [Level.close_eq_ofBranches, Level.close_eq_ofBranches, Regex.raise_ofBranches]
  cases gs <;> simp [level, raiseAll_eq_map, raise, h]

/-- Behind some bytes and nothing else, what has been read is what it is by itself. -/
theorem parsed_eq_self (hgroups : r.groups = 0) (hbranches : r.branches = []) (groups : Nat) :
    r.parsed ⟨l.close, groups⟩ = ⟨l.close, groups⟩ := by
  unfold parsed
  rw [hgroups, hbranches, Regex.raise_zero, List.reverse_nil, List.nil_append,
    Level.branchList_close, ← Level.close_eq_ofBranches, Nat.add_zero]

theorem close_level_nil :
    (r.level [] l).close =
      ofBranches (r.branches.reverse ++ branchList (l.close.raise r.groups)) := by
  rw [Level.close_eq_ofBranches, Regex.branchList_raise, Level.branchList_close]
  simp [level, raiseAll_eq_map, raise]

end Prior

/-! ## Character classes -/

/-- The same left end where `n` more bytes come before. -/
def RangeStart.later (n : Nat) (s : RangeStart) : RangeStart := { s with dash := s.dash + n }

/-- The same mode where `n` more bytes come before. -/
def ClassMode.later (n : Nat) : ClassMode → ClassMode
  | .opening => .opening
  | .member => .member
  | .range start => .range (start.later n)
  | .escape offset start => .escape (offset + n) (start.map (RangeStart.later n))

/-- The same class where `n` more bytes come before. -/
def OpenClass.later (n : Nat) (k : OpenClass) : OpenClass :=
  { k with opened := k.opened + n, mode := k.mode.later n }

/-- What one more character makes of an open class where `r` comes before. -/
def ClassStep.after (r : Prior) : ClassStep → ClassStep
  | .reading k => .reading (k.later r.bytes)
  | .complete t => .complete (t.raise r.groups)

namespace OpenClass

variable (r : Prior) (k : OpenClass) (offset : Nat) (c : Char)

/-- A class has no groups. -/
theorem raise_close (n : Nat) : k.close.raise n = k.close := by
  have hatoms : ∀ atoms : List Atom, raiseAll n (atoms.map .atom) = atoms.map .atom := by
    intro atoms
    rw [raiseAll_eq_map, List.map_map]
    rfl
  unfold close
  cases k.negated with
  | false => exact congrArg Regex.charClass (hatoms _)
  | true => exact congrArg (Regex.negation ∘ Regex.charClass) (hatoms _)

theorem complete_close_after : (ClassStep.complete k.close).after r = .complete k.close :=
  congrArg ClassStep.complete (k.raise_close r.groups)

theorem pushRange_after (start : RangeStart) (last : Char) :
    (k.later r.bytes).pushRange (start.later r.bytes) last =
      relocate r.bytes (.after r) (k.pushRange start last) := by
  unfold pushRange
  rw [apply_ite (relocate r.bytes (ClassStep.after r))]
  rfl

theorem readMember_after :
    (k.later r.bytes).readMember (offset + r.bytes) c = (k.readMember offset c).after r := by
  unfold readMember
  split
  · rw [apply_ite (ClassStep.after r), complete_close_after]
    rfl
  · obtain ⟨opened, negated, members, mode⟩ := k
    cases members with
    | nil => rfl
    | cons a members => cases a <;> rfl
  · rfl
  · rfl

/-- **A character of a class** is read in the same way. -/
theorem read_after :
    (k.later r.bytes).read (offset + r.bytes) c =
      relocate r.bytes (.after r) (k.read offset c) := by
  unfold read
  cases hm : k.mode with
  | opening =>
    simp only [later, ClassMode.later, hm]
    by_cases h : c = '^'
    · rw [if_pos h, if_pos h]
      rfl
    · rw [if_neg h, if_neg h]
      exact congrArg Except.ok (readMember_after r { k with mode := .member } offset c)
  | member =>
    simp only [later, ClassMode.later, hm]
    exact congrArg Except.ok (readMember_after r k offset c)
  | range start =>
    simp only [later, ClassMode.later, hm]
    split
    · exact congrArg Except.ok (complete_close_after r (k.pushDash start)).symm
    · rfl
    · exact pushRange_after r k start c
  | escape opened start =>
    cases start with
    | none =>
      simp only [later, ClassMode.later, hm]
      rfl
    | some start =>
      simp only [later, ClassMode.later, hm, Option.map_some]
      cases Metachar.ofLetter? c with
      | none => exact pushRange_after r k start c
      | some m => rfl

theorem unfinished_later (n : Nat) : (k.later n).unfinished = k.unfinished.later n := by
  unfold unfinished
  rw [show (k.later n).mode = k.mode.later n from rfl]
  cases k.mode <;> rfl

end OpenClass

/-! ## Quantifiers in braces -/

/-- The same quantifier where `n` more bytes come before. -/
def Braces.later (n : Nat) (b : Braces) : Braces := { b with opened := b.opened + n }

theorem Braces.push?_later (b : Braces) (n : Nat) (c : Char) :
    (b.later n).push? c = (b.push? c).map (later n) := by
  unfold push?
  cases hupper : b.upper with
  | none =>
    by_cases hdigit : c.isDigit = true
    · simp [later, hupper, hdigit]
    · by_cases hcomma : c = ',' <;> simp [later, hupper, hdigit, hcomma]
  | some upper => by_cases hdigit : c.isDigit = true <;> simp [later, hupper, hdigit]

/-! ## Parsers -/

/-- The same mode where `n` more bytes come before. -/
def Mode.later (n : Nat) : Mode → Mode
  | .item => .item
  | .escape offset => .escape (offset + n)
  | .quantifier least most => .quantifier least most
  | .braces b => .braces (b.later n)
  | .charClass k => .charClass (k.later n)

namespace Parser

/-- Where the parser would be if `r` had come before all that it has read. -/
def after (r : Prior) (p : Parser) : Parser where
  offset := p.offset + r.bytes
  groups := p.groups + r.groups
  enclosing := r.enclosing p.enclosing
  level := r.level p.enclosing p.level
  mode := p.mode.later r.bytes

variable (r : Prior) (p : Parser) (c : Char)

theorem mode_after : (p.after r).mode = p.mode.later r.bytes := rfl

theorem repeatLast_after (count : Quantifier) :
    (p.after r).repeatLast count = (p.repeatLast count).after r := by
  unfold repeatLast after
  rw [Prior.level_repeatLast]
  rfl

theorem foldl_push_after (cs : List Char) :
    cs.foldl (fun p c => p.push (.char c)) (p.after r) =
      (cs.foldl (fun p c => p.push (.char c)) p).after r :=
  List.foldl_hom (after r) fun _ _ => rfl

theorem settle_after : (p.after r).settle = p.settle.after r := by
  unfold settle
  rw [mode_after]
  cases p.mode with
  | quantifier least most => exact repeatLast_after r p _
  | braces b => exact foldl_push_after r p b.text
  | _ => rfl

theorem items_after_eq_nil : (p.after r).level.items = [] ↔ p.level.items = [] :=
  r.items_level_eq_nil p.enclosing p.level

theorem quantify_after (least : Nat) (most : Option Nat) :
    (p.after r).quantify least most = relocate r.bytes (after r) (p.quantify least most) := by
  unfold quantify
  simp only [items_after_eq_nil]
  rw [apply_ite (relocate r.bytes (after r))]
  rfl

theorem closeGroup_after : (p.after r).closeGroup = relocate r.bytes (after r) p.closeGroup := by
  obtain ⟨offset, groups, enclosing, level, mode⟩ := p
  cases enclosing with
  | nil => rfl
  | cons g gs =>
    simp only [closeGroup, after, Prior.enclosing, Prior.close_level_cons]
    rfl

theorem readItem_after :
    (p.after r).readItem c = relocate r.bytes (after r) (p.readItem c) := by
  unfold readItem
  split
  · -- a bar
    show Except.ok _ = Except.ok _
    unfold after
    rw [Prior.level_nextBranch]
  · -- an opening parenthesis: the new level is inside a group, so nothing comes before it
    show Except.ok _ = Except.ok _
    simp only [after, Prior.enclosing, Nat.add_right_comm]
    rfl
  · exact closeGroup_after r p
  · exact quantify_after r p _ _
  · exact quantify_after r p _ _
  · exact quantify_after r p _ _
  · -- an opening brace
    show Except.ok _ = Except.ok _
    simp only [items_after_eq_nil]
    rw [apply_ite (after r)]
    rfl
  all_goals rfl

theorem settle_readItem_after :
    (p.after r).settle.readItem c = relocate r.bytes (after r) (p.settle.readItem c) := by
  rw [settle_after, readItem_after]

theorem closeBraces_after (b : Braces) :
    (p.after r).closeBraces (b.later r.bytes) =
      relocate r.bytes (after r) (p.closeBraces b) := by
  unfold closeBraces
  rw [show (b.later r.bytes).bounds? = b.bounds? from rfl]
  cases b.bounds? with
  | none => exact settle_readItem_after r p '}'
  | some bounds =>
    obtain ⟨least, most⟩ := bounds
    cases most with
    | none => rfl
    | some most =>
      show _ = relocate _ _ (ite _ _ _)
      rw [apply_ite (relocate r.bytes (after r))]
      rfl

theorem readInPlace_after :
    (p.after r).readInPlace c = relocate r.bytes (after r) (p.readInPlace c) := by
  unfold readInPlace
  rw [mode_after]
  cases p.mode with
  | item => exact readItem_after r p c
  | escape offset => rfl
  | quantifier least most =>
    simp only [Mode.later]
    by_cases h : c = '?'
    · rw [if_pos h, if_pos h, repeatLast_after]
      rfl
    · rw [if_neg h, if_neg h, settle_readItem_after]
  | braces b =>
    simp only [Mode.later, Braces.push?_later]
    cases b.push? c with
    | some b => rfl
    | none =>
      by_cases h : c = '}'
      · simp only [if_pos h]
        exact closeBraces_after r p b
      · simp only [if_neg h]
        exact settle_readItem_after r p c
  | charClass k =>
    simp only [Mode.later]
    rw [show (p.after r).offset = p.offset + r.bytes from rfl, k.read_after r]
    cases k.read p.offset c with
    | error e => rfl
    | ok s => cases s <;> rfl

/-- **One character** is read in the same way. -/
theorem read_after : (p.after r).read c = relocate r.bytes (after r) (p.read c) := by
  unfold read
  rw [readInPlace_after]
  cases p.readInPlace c with
  | error e => rfl
  | ok q =>
    show Except.ok _ = Except.ok _
    simp only [after, Nat.add_right_comm]

/-- Any number of characters are read in the same way. -/
theorem readAll_after (cs : List Char) :
    (p.after r).readAll cs = relocate r.bytes (after r) (p.readAll cs) := by
  induction cs generalizing p with
  | nil => rfl
  | cons c cs ih =>
    rw [readAll_cons, readAll_cons, read_after]
    cases p.read c with
    | error e => rfl
    | ok q => exact ih q

/-- The end of the pattern comes to the same. -/
theorem finish_after : (p.after r).finish = relocate r.bytes r.parsed p.finish := by
  have hparsed : p.enclosing = [] → (⟨(p.after r).settle.level.close, (p.after r).groups⟩ : Parsed)
      = r.parsed ⟨p.settle.level.close, p.groups⟩ := by
    intro h
    rw [Prior.parsed, settle_after, ← Prior.close_level_nil, ← h, ← p.settle_unchanged.1]
    rfl
  unfold finish
  rw [mode_after, show (p.after r).enclosing = r.enclosing p.enclosing from rfl]
  cases p.mode with
  | escape offset => rfl
  | charClass k => exact congrArg Except.error (k.unfinished_later r.bytes)
  | _ =>
    cases h : p.enclosing with
    | nil => exact congrArg Except.ok (hparsed h)
    | cons g gs => rfl

/-- A pattern that is read after `r` and the same pattern by itself. -/
theorem readAll_finish_after (cs : List Char) :
    ((p.after r).readAll cs).bind finish =
      relocate r.bytes r.parsed ((p.readAll cs).bind finish) := by
  rw [readAll_after]
  cases p.readAll cs with
  | error e => rfl
  | ok q => exact finish_after r q

theorem utf8ByteSize_ofList_cons (c : Char) (cs : List Char) :
    (String.ofList (c :: cs)).utf8ByteSize = c.utf8Size + (String.ofList cs).utf8ByteSize := by
  rw [String.ofList_cons, String.utf8ByteSize_append, String.utf8ByteSize_singleton]

theorem offset_of_read {p q : Parser} {c : Char} (h : p.read c = .ok q) :
    q.offset = p.offset + c.utf8Size := by
  obtain ⟨r, -, rfl⟩ := map_eq_ok_iff.1 h
  rfl

/-- The offset counts the bytes that have been read. -/
theorem offset_of_readAll {p q : Parser} {cs : List Char} (h : p.readAll cs = .ok q) :
    q.offset = p.offset + (String.ofList cs).utf8ByteSize := by
  induction cs generalizing p with
  | nil =>
    cases h
    rfl
  | cons c cs ih =>
    obtain ⟨r, hread, h⟩ := readAll_cons_eq_ok.1 h
    rw [ih h, offset_of_read hread, utf8ByteSize_ofList_cons, Nat.add_assoc]

theorem left_lt_of_read {text : String} {p q : Parser} {c : Char}
    (hc : Text.charAt? text p.offset = some c) (hq : p.read c = .ok q) :
    text.utf8ByteSize - q.offset < text.utf8ByteSize - p.offset := by
  have hend := Text.add_utf8Size_le hc
  have hpos := c.utf8Size_pos
  rw [offset_of_read hq]
  omega

/-- Reads the character of `text` that stands at the parser's own offset, and so on, until none
stands there. -/
def readOn (text : String) (p : Parser) : Except PatternError Parser :=
  match hc : Text.charAt? text p.offset with
  | none => .ok p
  | some c =>
    match hq : p.read c with
    | .error e => .error e
    | .ok q =>
      have := left_lt_of_read hc hq
      q.readOn text
termination_by text.utf8ByteSize - p.offset

/-- A parser whose offset is where the characters `cs` begin reads these and nothing else. -/
theorem readOn_append (before : String) (cs : List Char) {p : Parser}
    (h : p.offset = before.utf8ByteSize) :
    p.readOn (before ++ String.ofList cs) = p.readAll cs := by
  have hchar : ∀ (u : String) (ds : List Char),
      Text.charAt? (u ++ String.ofList ds) u.utf8ByteSize = ds.head? := fun u ds => by
    rw [Text.charAt?_append, String.toList_ofList]
  induction cs generalizing before p with
  | nil =>
    rw [readOn]
    split
    · rfl
    · next c hc =>
      rw [h, hchar] at hc
      cases hc
  | cons c cs ih =>
    rw [readOn, readAll_cons]
    split
    · next hc =>
      rw [h, hchar] at hc
      cases hc
    · next d hc =>
      rw [h, hchar] at hc
      cases hc
      split
      · next e hq =>
        rw [hq]
        rfl
      · next q hq =>
        have htext : before ++ String.ofList (c :: cs) =
            before ++ String.singleton c ++ String.ofList cs := by
          rw [String.append_assoc, String.ofList_cons]
        have hoffset : q.offset = (before ++ String.singleton c).utf8ByteSize := by
          rw [offset_of_read hq, h, String.utf8ByteSize_append, String.utf8ByteSize_singleton]
        show q.readOn (before ++ String.ofList (c :: cs)) = _
        rw [hq, htext]
        exact ih _ hoffset

theorem offset_of_start {p : Parser} {cs : List Char} (h : (start 0).readAll cs = .ok p) :
    p.offset = (String.ofList cs).utf8ByteSize :=
  (offset_of_readAll h).trans (Nat.zero_add _)

/-- Where the pattern may end, a bar may come next, and then what comes before is the text so
far with all its groups and branches. -/
theorem read_bar {p : Parser} (hmode : p.mode.isSettleable = true) (henclosing : p.enclosing = []) :
    p.read '|' = .ok ((start 0).after
      ⟨p.offset + 1, p.groups, p.settle.level.nextBranch.branches⟩) := by
  obtain ⟨hgs, hgroups, -⟩ := p.settle_unchanged
  have hitem := mode_settle_of_isSettleable hmode
  unfold read
  rw [readInPlace_of_isSettleable hmode (by decide) (by decide) (by decide) (by decide)]
  show Except.ok { p.settle with level := p.settle.level.nextBranch, offset := p.offset + 1 } = _
  rw [henclosing] at hgs
  simp [after, start, Prior.enclosing, Prior.level, Mode.later, Level.nextBranch, Level.empty,
    raiseAll, hgs, hgroups, hitem]

end Parser

namespace Regex

/-- A pattern has been read where it may end. -/
theorem exists_readAll_of_parse {text : String} {s : Parsed} (h : parse text = .ok s) :
    ∃ p, (Parser.start 0).readAll text.toList = .ok p ∧ p.mode.isSettleable = true ∧
      p.enclosing = [] ∧ s = ⟨p.settle.level.close, p.groups⟩ := by
  obtain ⟨p, hp, h⟩ := bind_eq_ok_iff.1 h
  exact ⟨p, hp, Parser.finish_eq_ok_iff.1 h⟩

/-- **A bar between two patterns.**  The branches of the first pattern come before those of the
second one, whose groups are numbered after those of the first.  If the second pattern is
refused, then the whole is, for the same reason. -/
theorem parse_bar {left : String} {s : Parsed} (h : parse left = .ok s) (right : String) :
    parse (left ++ "|" ++ right) =
      relocate (left.utf8ByteSize + 1)
        (fun t => ⟨.alt (branchList s.root ++ branchList (t.root.raise s.groups)),
          t.groups + s.groups⟩)
        (parse right) := by
  obtain ⟨p, hp, hmode, henclosing, rfl⟩ := exists_readAll_of_parse h
  let r : Prior := ⟨p.offset + 1, p.groups, p.settle.level.nextBranch.branches⟩
  have hbytes : r.bytes = left.utf8ByteSize + 1 := by
    show p.offset + 1 = _
    rw [Parser.offset_of_readAll hp, String.ofList_toList]
    exact congrArg (· + 1) (Nat.zero_add _)
  have hbranches : r.branches.reverse = branchList p.settle.level.close := by
    rw [Level.branchList_close]
    exact List.reverse_cons
  have hread : parse (left ++ "|" ++ right) = relocate r.bytes r.parsed (parse right) := by
    unfold parse parseAt
    rw [String.toList_append, String.toList_append, List.append_assoc, Parser.readAll_append, hp]
    show (p.readAll ('|' :: right.toList)).bind Parser.finish = _
    rw [Parser.readAll_cons, Parser.read_bar hmode henclosing]
    exact Parser.readAll_finish_after r (Parser.start 0) right.toList
  rw [hread, hbytes]
  cases ht : parse right with
  | error e => rfl
  | ok t =>
    obtain ⟨q, -, -, -, rfl⟩ := exists_readAll_of_parse ht
    show Except.ok (r.parsed _) = Except.ok _
    rw [Prior.parsed, hbranches, ofBranches_append]
    · rw [Level.branchList_close]
      exact List.concat_ne_nil _ _
    · rw [branchList_raise, Level.branchList_close]
      simp

/-- **Reading from a place on.**  Reading that begins at a boundary, with `before` in front of it,
depends on nothing but the text that follows: it gives the tree and the groups of that text by
itself, or the same error with its offsets counted from the beginning of the whole text. -/
theorem parseFrom_append (before after : String) :
    parseFrom (before ++ after) before.utf8ByteSize =
      relocate before.utf8ByteSize id (parse after) := by
  let r : Prior := ⟨before.utf8ByteSize, 0, []⟩
  have hstart : Parser.start before.utf8ByteSize = (Parser.start 0).after r :=
    congrArg (fun n => Parser.mk n 0 [] .empty .item) (Nat.zero_add before.utf8ByteSize).symm
  have hread : parseFrom (before ++ after) before.utf8ByteSize =
      relocate before.utf8ByteSize r.parsed (parse after) := by
    unfold parseFrom parseAt
    rw [Text.suffixFrom_append, hstart]
    exact Parser.readAll_finish_after r (Parser.start 0) after.toList
  rw [hread]
  cases hafter : parse after with
  | error e => rfl
  | ok s =>
    obtain ⟨p, -, -, -, rfl⟩ := exists_readAll_of_parse hafter
    show Except.ok (r.parsed _) = Except.ok _
    rw [r.parsed_eq_self _ rfl rfl]
    rfl

/-- **Reading never looks back.**  A parser that is set to a place and takes every character from
the whole text, at its own offset, reads what stands from there on and nothing else, whether or not
the place is a boundary. -/
theorem parseFrom_eq_readOn (text : String) (offset : Nat) :
    parseFrom text offset = ((Parser.start offset).readOn text).bind Parser.finish := by
  cases h : Text.isBoundary text offset with
  | true =>
    obtain ⟨u, v, rfl, rfl⟩ := Text.isBoundary_iff.1 h
    have hread := Parser.readOn_append u v.toList (p := .start u.utf8ByteSize) rfl
    rw [String.ofList_toList] at hread
    rw [hread, parseFrom, Text.suffixFrom_append]
    rfl
  | false =>
    -- Off the boundaries there is nothing to be read in either way.
    have hpos := Text.posAt?_of_not_isBoundary h
    have hread : (Parser.start offset).readOn text = .ok (.start offset) := by
      rw [Parser.readOn]
      split
      · rfl
      · next c hc =>
        rw [Text.charAt?, Parser.start, hpos] at hc
        cases hc
    rw [hread, parseFrom, Text.suffixFrom, hpos]
    rfl

/-- After a bracket that is left out, a bound is out of order. -/
example : parseFrom "é[a\x7b3,1\x7d" 3 = .error (.invalidBounds 3 1 4) := rfl

end Regex

end Backtrack
