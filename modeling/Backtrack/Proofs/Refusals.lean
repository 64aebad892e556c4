import Backtrack.Proofs.Changes

/-!
# Refusals that more text can mend

A pattern is refused either because its text ends too early, or because of something in it.
Main statement: `Regex.refused_split`.  The kind of the error tells which of the two it is:

    the text ends too early     some text after it makes it a pattern
    something in it is wrong    whatever comes after it, the error stays the same

An error that a character gives is of the second kind (`Parser.isFatal_of_readAll`), and it
comes before anything that follows is read.  If all characters are read, what is pending can
be completed (`Parser.completes`) and the groups that are open can be closed
(`Parser.exists_readAll_closing`).
-/

namespace Backtrack

namespace PatternError

/-- Whether the text ends too early. -/
def isIncomplete : PatternError → Bool
  | unterminatedEscape _ | unclosedGroup _ | unclosedClass _ => true
  | unmatchedParen _ | invalidRange .. | invalidBounds .. | nothingToRepeat _ | tooLarge _ => false

/-- Whether something in the text is wrong. -/
def isFatal : PatternError → Bool
  | unmatchedParen _ | invalidRange .. | invalidBounds .. | nothingToRepeat _ => true
  | unterminatedEscape _ | unclosedGroup _ | unclosedClass _ | tooLarge _ => false

end PatternError

/-! ## Errors of a character -/

namespace Parser

variable {p q : Parser} {c : Char} {cs : List Char} {e : PatternError}

/-- Whatever goes wrong before the end of the text is there to stay. -/
theorem isFatal_of_readAll (h : p.readAll cs = .error e) : e.isFatal = true := by
  obtain ⟨u, c, v, q, -, -, hfault⟩ := exists_fault_of_readAll h
  cases hfault <;> rfl

/-! ## Completing a text -/

/-- Parser `p` can be led to where nothing is pending that needs another character. -/
def Completes (p : Parser) : Prop :=
  ∃ cs q, p.readAll cs = .ok q ∧ q.mode.isSettleable = true

theorem completes_of_isSettleable (h : p.mode.isSettleable = true) : p.Completes := ⟨[], p, rfl, h⟩

theorem completes_of_read (h : p.read c = .ok q) (hq : q.Completes) : p.Completes := by
  obtain ⟨cs, r, hcs, hr⟩ := hq
  exact ⟨c :: cs, r, by rw [readAll_cons, h]; exact hcs, hr⟩

section

variable {k k' : OpenClass}

/-- One character inside a class after which the class goes on. -/
theorem exists_read_of_reading (hm : p.mode = .charClass k)
    (h : k.read p.offset c = .ok (.reading k')) :
    ∃ q, p.read c = .ok q ∧ q.mode = .charClass k' := by
  unfold read readInPlace
  rw [hm]
  simp only [h]
  exact ⟨_, rfl, rfl⟩

/-- A class with members can be closed before the next one. -/
theorem completes_of_member (hm : p.mode = .charClass k) (hk : k.mode = .member)
    (hne : k.members ≠ []) : p.Completes := by
  have hread : k.read p.offset ']' = .ok (.complete k.close) := by
    unfold OpenClass.read OpenClass.readMember
    rw [hk]
    simp only [if_neg hne]
  have hclose : ∃ q, p.read ']' = .ok q ∧ q.mode.isSettleable = true := by
    unfold read readInPlace
    rw [hm]
    simp only [hread]
    exact ⟨_, rfl, rfl⟩
  obtain ⟨q, hq, hmode⟩ := hclose
  exact completes_of_read hq (completes_of_isSettleable hmode)

/-- After a backslash comes a metacharacter: it completes a member, even after a dash, where a
literal could be out of order. -/
theorem completes_of_escape {opened : Nat} {start : Option RangeStart}
    (hm : p.mode = .charClass k) (hk : k.mode = .escape opened start) : p.Completes := by
  have hread : ∃ k', k.read p.offset 'd' = .ok (.reading k') ∧ k'.mode = .member ∧
      k'.members ≠ [] := by
    unfold OpenClass.read
    rw [hk]
    cases start with
    | none => exact ⟨_, rfl, rfl, List.cons_ne_nil _ _⟩
    | some start => exact ⟨_, rfl, rfl, List.cons_ne_nil _ _⟩
  obtain ⟨k', hread, hmember, hne⟩ := hread
  obtain ⟨q, hq, hmode⟩ := exists_read_of_reading hm hread
  exact completes_of_read hq (completes_of_member hmode hmember hne)

/-- Anywhere else in a class a backslash can come next. -/
theorem completes_of_charClass (hm : p.mode = .charClass k) : p.Completes := by
  have hread : (∃ offset start, k.mode = .escape offset start) ∨
      ∃ start, k.read p.offset '\\' = .ok (.reading { k with mode := .escape p.offset start }) := by
    unfold OpenClass.read
    cases k.mode with
    | opening => exact .inr ⟨none, rfl⟩
    | member => exact .inr ⟨none, rfl⟩
    | range start => exact .inr ⟨some start, rfl⟩
    | escape offset start => exact .inl ⟨offset, start, rfl⟩
  rcases hread with ⟨offset, start, hk⟩ | ⟨start, hread⟩
  · exact completes_of_escape hm hk
  · obtain ⟨q, hq, hmode⟩ := exists_read_of_reading hm hread
    exact completes_of_read hq (completes_of_escape hmode rfl)

end

theorem completes (p : Parser) : p.Completes := by
  cases hm : p.mode with
  | escape offset =>
    have hread : ∃ q, p.read 'd' = .ok q ∧ q.mode = .item := by
      unfold read readInPlace
      rw [hm]
      exact ⟨_, rfl, rfl⟩
    obtain ⟨q, hq, hmode⟩ := hread
    exact completes_of_read hq (completes_of_isSettleable (by rw [hmode]; rfl))
  | charClass k => exact completes_of_charClass hm
  | item => exact completes_of_isSettleable (by rw [hm]; rfl)
  | quantifier least most => exact completes_of_isSettleable (by rw [hm]; rfl)
  | braces b => exact completes_of_isSettleable (by rw [hm]; rfl)

theorem exists_read_closing (h : p.mode.isSettleable = true) {g : OpenGroup}
    {enclosing : List OpenGroup} (hg : p.enclosing = g :: enclosing) :
    ∃ q, p.read ')' = .ok q ∧ q.mode.isSettleable = true ∧ q.enclosing = enclosing := by
  have hsettled : p.settle.enclosing = g :: enclosing := p.settle_unchanged.1.trans hg
  unfold read
  rw [readInPlace_of_isSettleable h (by decide) (by decide) (by decide) (by decide)]
  simp only [readItem, closeGroup, hsettled]
  exact ⟨_, rfl, rfl, rfl⟩

/-- As many closing parentheses as there are open groups close them all. -/
theorem exists_readAll_closing (h : p.mode.isSettleable = true) :
    ∃ cs q, p.readAll cs = .ok q ∧ q.mode.isSettleable = true ∧ q.enclosing = [] := by
  induction hg : p.enclosing generalizing p with
  | nil => exact ⟨[], p, rfl, h, hg⟩
  | cons g enclosing ih =>
    obtain ⟨q, hq, hmode, henclosing⟩ := exists_read_closing h hg
    obtain ⟨cs, r, hcs, hr⟩ := ih hmode henclosing
    exact ⟨')' :: cs, r, by rw [readAll_cons, hq]; exact hcs, hr⟩

/-- Every text that has been read so far is the beginning of a pattern. -/
theorem exists_finish (p : Parser) : ∃ cs parsed, (p.readAll cs).bind finish = .ok parsed := by
  obtain ⟨cs, q, hcs, hq⟩ := p.completes
  obtain ⟨ds, r, hds, hr, henclosing⟩ := exists_readAll_closing hq
  refine ⟨cs ++ ds, ⟨r.settle.level.close, r.groups⟩, ?_⟩
  rw [readAll_append, hcs]
  show (q.readAll ds).bind finish = _
  rw [hds]
  exact finish_eq_ok_iff.2 ⟨hr, henclosing, rfl⟩

theorem isIncomplete_of_finish (h : p.finish = .error e) : e.isIncomplete = true := by
  cases unfinished_of_finish h <;> rfl

end Parser

/-! ## Main theorem -/

namespace Regex

variable {text : String} {e : PatternError}

/-- An error comes from the end of the text, and it can be mended, or from something before,
and it cannot. -/
theorem mended_or_fatal (h : parse text = .error e) :
    (e.isIncomplete = true ∧ ∃ more parsed, parse (text ++ more) = .ok parsed) ∨
      (e.isFatal = true ∧ ∀ more, parse (text ++ more) = .error e) := by
  unfold parse parseAt at h ⊢
  simp only [String.toList_append, Parser.readAll_append]
  cases hr : (Parser.start 0).readAll text.toList with
  | error e' =>
    rw [hr] at h
    cases h
    exact .inr ⟨Parser.isFatal_of_readAll hr, fun _ => rfl⟩
  | ok p =>
    rw [hr] at h
    obtain ⟨cs, parsed, hcs⟩ := p.exists_finish
    exact .inl ⟨Parser.isIncomplete_of_finish h, String.ofList cs, parsed,
      by rw [String.toList_ofList]; exact hcs⟩

/-- **Two kinds of refusal.**  Every error is of one of two kinds.  Errors of the one kind are
those of a text that only ends too early: some text after it makes it a pattern.  Errors of
the other kind are those that stay the same, whatever text comes after. -/
theorem refused_split (h : parse text = .error e) :
    (e.isIncomplete = !e.isFatal) ∧
      (e.isIncomplete = true ↔ ∃ more parsed, parse (text ++ more) = .ok parsed) ∧
      (e.isFatal = true ↔ ∀ more, parse (text ++ more) = .error e) := by
  have hkinds : e.isIncomplete = true → e.isFatal = true → False := by
    cases e <;> simp [PatternError.isIncomplete, PatternError.isFatal]
  rcases mended_or_fatal h with ⟨hkind, more, parsed, hmore⟩ | ⟨hkind, hmore⟩
  · have hnot : e.isFatal = false := Bool.eq_false_iff.2 (hkinds hkind)
    rw [hkind, hnot]
    refine ⟨rfl, iff_of_true rfl ⟨more, parsed, hmore⟩, iff_of_false Bool.false_ne_true ?_⟩
    intro hall
    rw [hall more] at hmore
    cases hmore
  · have hnot : e.isIncomplete = false := Bool.eq_false_iff.2 fun hi => hkinds hi hkind
    rw [hkind, hnot]
    refine ⟨rfl, iff_of_false Bool.false_ne_true ?_, iff_of_true rfl hmore⟩
    rintro ⟨more, parsed, hparsed⟩
    rw [hmore more] at hparsed
    cases hparsed

/-- Two groups and a class with a dash pending, in which a literal would be out of order; and a
quantifier in braces that is wrong only once it is closed. -/
theorem refused_split_pending :
    (parse "(a\x7b3,2|((?" = .error (.nothingToRepeat 9) ∧
      ∀ more, parse ("(a\x7b3,2|((?" ++ more) = .error (.nothingToRepeat 9)) ∧
    parse "x(a\x7b3,2(é[z-\\" = .error (.unterminatedEscape 13) ∧
      ∃ more parsed, parse ("x(a\x7b3,2(é[z-\\" ++ more) = .ok parsed := by
  have hfatal : parse "(a\x7b3,2|((?" = .error (.nothingToRepeat 9) := rfl
  have hincomplete : parse "x(a\x7b3,2(é[z-\\" = .error (.unterminatedEscape 13) := rfl
  exact ⟨⟨hfatal, (refused_split hfatal).2.2.1 rfl⟩, hincomplete,
    (refused_split hincomplete).2.1.1 rfl⟩

end Regex

end Backtrack
