import Backtrack.Proofs.Pieces

/-!
# What one character does

What a parser can be after one more character, and for which reasons a character or the end of the
pattern is refused, said once for each:

    a character of a class      (OpenClass.change_of_read, OpenClass.isLast_of_read)
    a character of a pattern    (Parser.change_of_read, Parser.fault_of_read)
    the end of a pattern        (Parser.unfinished_of_finish)

Whatever holds of a parser because of the character it has read last is a case analysis of a
`Change`; what holds because of earlier ones is an induction with such a case analysis as its step.
-/

namespace Backtrack

/-! ## Classes -/

namespace OpenClass

/-- Whether a member may begin. -/
def BeginsMember (k : OpenClass) : Prop := k.mode = .opening ∨ k.mode = .member

/-- Whether the character `c` is the last one of the range that begins with `start`. -/
def IsLast (k : OpenClass) (start : RangeStart) (c : Char) : Prop :=
  (k.mode = .range start ∧ c ≠ ']' ∧ c ≠ '\\') ∨
    (∃ slash, k.mode = .escape slash (some start)) ∧ Metachar.ofLetter? c = none

/-- What the character `c` at byte offset `offset` can make of a class that goes on.  A
metacharacter after a dash undoes the range that the dash began. -/
inductive Change (k : OpenClass) (offset : Nat) (c : Char) : OpenClass → Prop
  | negate (hk : k.mode = .opening) (hc : c = '^') :
    Change k offset c { k with negated := true, mode := .member }
  | literal (hk : k.BeginsMember) (hc : c ≠ '\\') : Change k offset c (k.push (.char c))
  | dash {first : Char} {members : List Atom} (hk : k.BeginsMember) (hc : c = '-')
    (hfirst : k.members = .char first :: members) :
    Change k offset c { k with members, mode := .range ⟨first, offset⟩ }
  | slash (hk : k.BeginsMember) (hc : c = '\\') :
    Change k offset c { k with mode := .escape offset none }
  | rangeSlash {start : RangeStart} (hk : k.mode = .range start) (hc : c = '\\') :
    Change k offset c { k with mode := .escape offset (some start) }
  | escaped {slash : Nat} (hk : k.mode = .escape slash none) :
    Change k offset c (k.push (.ofEscape c))
  | range {start : RangeStart} (hlast : k.IsLast start c) :
    Change k offset c (k.push (.range start.first c))
  | metachar {slash : Nat} {start : RangeStart} {m : Metachar}
    (hk : k.mode = .escape slash (some start)) :
    Change k offset c ((k.pushDash start).push (.metachar m))

variable {k k' : OpenClass} {start : RangeStart} {offset : Nat} {c : Char} {e : PatternError}

theorem change_of_readMember (hk : k.BeginsMember)
    (h : { k with mode := .member }.readMember offset c = .reading k') : k.Change offset c k' := by
  unfold readMember at h
  split at h
  · split at h
    · cases h
      exact .literal hk (by decide)
    · cases h
  · split at h
    · next first members hmembers =>
      cases h
      exact .dash hk rfl hmembers
    · cases h
      exact .literal hk (by decide)
  · cases h
    exact .slash hk rfl
  · next hescape =>
    cases h
    exact .literal hk hescape

theorem change_of_pushRange (hlast : k.IsLast start c)
    (h : k.pushRange start c = .ok (.reading k')) : k.Change offset c k' := by
  unfold pushRange at h
  split at h
  · cases h
  · cases h
    exact .range hlast

/-- **What a character does to a class** that goes on after it. -/
theorem change_of_read (h : k.read offset c = .ok (.reading k')) : k.Change offset c k' := by
  unfold read at h
  split at h
  · next hm =>
    split at h
    · next hc =>
      cases h
      exact .negate hm hc
    · exact change_of_readMember (.inl hm) (Except.ok.inj h)
  · next hm =>
    refine change_of_readMember (.inr hm) ?_
    rw [← hm]
    exact Except.ok.inj h
  · next start hm =>
    split at h
    · cases h
    · cases h
      exact .rangeSlash hm rfl
    · next hbracket hescape => exact change_of_pushRange (.inl ⟨hm, hbracket, hescape⟩) h
  · next hm =>
    cases h
    exact .escaped hm
  · next slash start hm =>
    split at h
    · cases h
      exact .metachar hm
    · next hletter => exact change_of_pushRange (.inr ⟨⟨slash, hm⟩, hletter⟩) h

theorem lt_of_pushRange (h : k.pushRange start c = .error e) :
    c < start.first ∧ e = .invalidRange start.first c start.dash := by
  unfold pushRange at h
  split at h
  · next hlt =>
    cases h
    exact ⟨hlt, rfl⟩
  · cases h

/-- **Why a character of a class is refused:** it ends a range before its beginning. -/
theorem isLast_of_read (h : k.read offset c = .error e) :
    ∃ start, k.IsLast start c ∧ c < start.first ∧
      e = .invalidRange start.first c start.dash := by
  unfold read at h
  split at h
  · split at h <;> cases h
  · cases h
  · next start hm =>
    split at h
    · cases h
    · cases h
    · next hbracket hescape => exact ⟨start, .inl ⟨hm, hbracket, hescape⟩, lt_of_pushRange h⟩
  · cases h
  · next slash start hm =>
    split at h
    · cases h
    · next hletter => exact ⟨start, .inr ⟨⟨slash, hm⟩, hletter⟩, lt_of_pushRange h⟩

end OpenClass

/-! ## Patterns -/

namespace Parser

/-- What can be pending after the character `c`, if it is no parenthesis and `items` are the items
of the current branch then. -/
inductive Turn (p : Parser) (c : Char) (items : List Regex) : Mode → Prop
  | branch (hm : p.mode.isSettleable = true) (hc : c = '|') : Turn p c items .item
  | item (hitems : items ≠ []) : Turn p c items .item
  | quantifier {least : Nat} {most : Option Nat} (hitems : items ≠ []) :
    Turn p c items (.quantifier least most)
  | escape (hm : p.mode.isSettleable = true) (hc : c = '\\') : Turn p c items (.escape p.offset)
  | brace (hm : p.mode.isSettleable = true) (hc : c = '{') (hitems : p.settle.level.items ≠ []) :
    Turn p c items (.braces (.start p.offset))
  | braces {b b' : Braces} (hm : p.mode = .braces b) (hb : b.push? c = some b') :
    Turn p c items (.braces b')
  | bracket (hm : p.mode.isSettleable = true) (hc : c = '[') :
    Turn p c items (.charClass (.start p.offset))
  | member {k k' : OpenClass} (hm : p.mode = .charClass k) (hk : k.Change p.offset c k') :
    Turn p c items (.charClass k')

/-- What the character `c` can do: it opens a group, or it closes one, or it does something in the
innermost group. -/
inductive Change (p : Parser) (c : Char) (q : Parser) : Prop
  | opens (hm : p.mode.isSettleable = true) (hc : c = '(') (hq : q.mode = .item)
      (henclosing : q.enclosing = ⟨p.offset, p.groups, p.settle.level⟩ :: p.enclosing)
  | closes {g : OpenGroup} (hm : p.mode.isSettleable = true) (hc : c = ')') (hq : q.mode = .item)
      (hitems : q.level.items ≠ []) (henclosing : p.enclosing = g :: q.enclosing)
  | inside (henclosing : q.enclosing = p.enclosing) (hturn : p.Turn c q.level.items q.mode)

variable {p q : Parser} {c : Char} {cs : List Char} {e : PatternError}

/-- After a parenthesis nothing is pending. -/
theorem Change.turn (h : p.Change c q) (hq : q.mode ≠ .item) : p.Turn c q.level.items q.mode := by
  cases h with
  | opens _ _ hitem => exact absurd hitem hq
  | closes _ _ hitem => exact absurd hitem hq
  | inside _ hturn => exact hturn

theorem items_repeatLast_ne_nil {l : Level} (h : l.items ≠ []) (count : Quantifier) :
    (l.repeatLast count).items ≠ [] := by
  unfold Level.repeatLast
  split
  · exact h
  · exact List.cons_ne_nil _ _

/-- Settling what is pending loses no items. -/
theorem items_settle_ne_nil (h : p.level.items ≠ []) : p.settle.level.items ≠ [] := by
  have hpush : ∀ cs : List Char,
      (cs.foldl (fun p c => p.push (.char c)) p).level.items ≠ [] := fun cs =>
    List.foldlRecOn (motive := fun q : Parser => q.level.items ≠ []) cs _ h
      fun q _ c _ => List.cons_ne_nil _ _
  unfold settle
  split
  · exact items_repeatLast_ne_nil h _
  · exact hpush _
  · exact h

theorem turn_of_quantify {r : Parser} {least : Nat} {most : Option Nat}
    (h : r.quantify least most = .ok q) :
    q.enclosing = r.enclosing ∧ p.Turn c q.level.items q.mode := by
  unfold quantify at h
  split at h
  · cases h
  · next hitems =>
    cases h
    exact ⟨rfl, .quantifier hitems⟩

theorem change_of_readItem (hm : p.mode.isSettleable = true) (h : p.settle.readItem c = .ok q)
    (n : Nat) : p.Change c { q with offset := n } := by
  obtain ⟨henclosing, hgroups, hoffset⟩ := p.settle_unchanged
  have hitem := mode_settle_of_isSettleable hm
  have hquantify : ∀ {least most}, p.settle.quantify least most = .ok q →
      p.Change c { q with offset := n } := fun h =>
    have ⟨hsame, hturn⟩ := turn_of_quantify h
    .inside (hsame.trans henclosing) hturn
  unfold readItem at h
  split at h
  · -- a bar
    cases h
    exact .inside henclosing (hitem ▸ .branch hm rfl)
  · -- an opening parenthesis
    cases h
    refine .opens hm rfl hitem ?_
    rw [← henclosing, ← hgroups, ← hoffset]
  · -- a closing parenthesis
    unfold closeGroup at h
    split at h
    · cases h
    · next g enclosing hg =>
      cases h
      exact .closes hm rfl rfl (List.cons_ne_nil _ _) (henclosing.symm.trans hg)
  · exact hquantify h
  · exact hquantify h
  · exact hquantify h
  · -- an opening brace
    cases h
    split
    · exact .inside henclosing (.item (List.cons_ne_nil _ _))
    · next hitems => exact .inside henclosing (hoffset ▸ .brace hm rfl hitems)
  · cases h
    exact .inside henclosing (hoffset ▸ .bracket hm rfl)
  · cases h
    exact .inside henclosing (hoffset ▸ .escape hm rfl)
  all_goals
    cases h
    exact .inside henclosing (.item (List.cons_ne_nil _ _))

theorem change_of_closeBraces {b : Braces} (hp : p.Sound) (hm : p.mode = .braces b)
    (h : p.closeBraces b = .ok q) (n : Nat) : p.Change '}' { q with offset := n } := by
  have hitems : p.level.items ≠ [] := by
    have hmode := hp.mode
    rw [hm] at hmode
    exact hmode
  unfold closeBraces at h
  split at h
  · exact change_of_readItem (by rw [hm]; rfl) h n
  · cases h
    exact .inside rfl (.quantifier hitems)
  · split at h
    · cases h
    · cases h
      exact .inside rfl (.quantifier hitems)

theorem change_of_readInPlace (hp : p.Sound) (h : p.readInPlace c = .ok q) (n : Nat) :
    p.Change c { q with offset := n } := by
  have hmode := hp.mode
  unfold readInPlace at h
  split at h
  · next hm =>
    rw [← settle_of_item hm] at h
    exact change_of_readItem (by rw [hm]; rfl) h n
  · cases h
    exact .inside rfl (.item (List.cons_ne_nil _ _))
  · next hm =>
    rw [hm] at hmode
    split at h
    · cases h
      exact .inside rfl (.item (items_repeatLast_ne_nil hmode.1 _))
    · exact change_of_readItem (by rw [hm]; rfl) h n
  · next b hm =>
    split at h
    · next hpush =>
      cases h
      exact .inside rfl (.braces hm hpush)
    · split at h
      · next hc =>
        subst hc
        exact change_of_closeBraces hp hm h n
      · exact change_of_readItem (by rw [hm]; rfl) h n
  · next k hm =>
    obtain ⟨s, hs, rfl⟩ := map_eq_ok_iff.1 h
    cases s with
    | reading k' => exact .inside rfl (.member hm (OpenClass.change_of_read hs))
    | complete t => exact .inside rfl (.item (List.cons_ne_nil _ _))

/-- **What a character does.** -/
theorem change_of_read (hp : p.Sound) (h : p.read c = .ok q) : p.Change c q := by
  obtain ⟨r, hread, rfl⟩ := map_eq_ok_iff.1 h
  exact change_of_readInPlace hp hread _

/-- What holds of a whole text that has been read: it holds of no text, and one more character keeps
it. -/
theorem readAll_induction {motive : List Char → Parser → Prop} (hstart : motive [] (start 0))
    (hstep : ∀ {u : List Char} {c : Char} {p q : Parser}, (start 0).readAll u = .ok p →
      (start 0).readAll (u ++ [c]) = .ok q → p.Change c q → motive u p → motive (u ++ [c]) q)
    (h : (start 0).readAll cs = .ok p) : motive cs p := by
  have hlater : ∀ (ds u : List Char) (q : Parser), (start 0).readAll u = .ok q → motive u q →
      q.readAll ds = .ok p → motive (u ++ ds) p := by
    intro ds
    induction ds with
    | nil =>
      intro u q _ hq h
      cases h
      rwa [List.append_nil]
    | cons c ds ih =>
      intro u q hu hq h
      obtain ⟨r, hread, h⟩ := readAll_cons_eq_ok.1 h
      have hr : (start 0).readAll (u ++ [c]) = .ok r :=
        readAll_append_eq_ok.2 ⟨q, hu, readAll_cons_eq_ok.2 ⟨r, hread, rfl⟩⟩
      have hchange := change_of_read ((sound_start 0).readAll hu) hread
      rw [List.append_cons]
      exact ih _ r hr (hstep hu hr hchange hq) h
  exact hlater cs [] (start 0) rfl hstart h

/-- What the last character of a text has done. -/
theorem exists_change_of_readAll (h : (start 0).readAll cs = .ok q) :
    (cs = [] ∧ q = start 0) ∨
      ∃ u c p, cs = u ++ [c] ∧ (start 0).readAll u = .ok p ∧ p.Change c q :=
  readAll_induction
    (motive := fun cs q => (cs = [] ∧ q = start 0) ∨
      ∃ u c p, cs = u ++ [c] ∧ (start 0).readAll u = .ok p ∧ p.Change c q)
    (.inl ⟨rfl, rfl⟩) (fun hu _ hchange _ => .inr ⟨_, _, _, rfl, hu, hchange⟩) h

/-! ### Refusals -/

/-- Why the character `c` can be refused. -/
inductive Fault (p : Parser) (c : Char) : PatternError → Prop
  | unmatched (hm : p.mode.isSettleable = true) (hc : c = ')') (henclosing : p.enclosing = []) :
    Fault p c (.unmatchedParen p.offset)
  | operand (hm : p.mode.isSettleable = true) (hc : c ∈ ['*', '+', '?'])
    (hitems : p.settle.level.items = []) : Fault p c (.nothingToRepeat p.offset)
  | bounds {b : Braces} {least most : Nat} (hm : p.mode = .braces b) (hc : c = '}')
    (hb : b.bounds? = some (least, some most)) (hlt : most < least) :
    Fault p c (.invalidBounds least most b.opened)
  | range {k : OpenClass} {start : RangeStart} (hm : p.mode = .charClass k)
    (hlast : k.IsLast start c) (hlt : c < start.first) :
    Fault p c (.invalidRange start.first c start.dash)

theorem eq_nothingToRepeat_of_quantify {least : Nat} {most : Option Nat}
    (h : p.quantify least most = .error e) :
    p.level.items = [] ∧ e = .nothingToRepeat p.offset := by
  unfold quantify at h
  split at h
  · next hitems =>
    cases h
    exact ⟨hitems, rfl⟩
  · cases h

theorem fault_of_readItem (hm : p.mode.isSettleable = true) (h : p.settle.readItem c = .error e) :
    p.Fault c e := by
  obtain ⟨henclosing, -, hoffset⟩ := p.settle_unchanged
  have hquantify : ∀ {least most}, c ∈ ['*', '+', '?'] →
      p.settle.quantify least most = .error e → p.Fault c e := by
    intro least most hc h
    obtain ⟨hitems, rfl⟩ := eq_nothingToRepeat_of_quantify h
    rw [hoffset]
    exact .operand hm hc hitems
  unfold readItem at h
  split at h
  case h_3 =>
    unfold closeGroup at h
    split at h
    · next hnil =>
      cases h
      rw [hoffset]
      exact .unmatched hm rfl (henclosing.symm.trans hnil)
    · cases h
  case h_4 => exact hquantify (by decide) h
  case h_5 => exact hquantify (by decide) h
  case h_6 => exact hquantify (by decide) h
  all_goals cases h

theorem fault_of_closeBraces {b : Braces} (hm : p.mode = .braces b)
    (h : p.closeBraces b = .error e) : p.Fault '}' e := by
  unfold closeBraces at h
  split at h
  · exact fault_of_readItem (by rw [hm]; rfl) h
  · cases h
  · next least most hb =>
    split at h
    · next hlt =>
      cases h
      exact .bounds hm rfl hb hlt
    · cases h

/-- **Why a character is refused.** -/
theorem fault_of_read (h : p.read c = .error e) : p.Fault c e := by
  replace h := map_eq_error_iff.1 h
  unfold readInPlace at h
  split at h
  · next hm =>
    rw [← settle_of_item hm] at h
    exact fault_of_readItem (by rw [hm]; rfl) h
  · cases h
  · next hm =>
    split at h
    · cases h
    · exact fault_of_readItem (by rw [hm]; rfl) h
  · next b hm =>
    split at h
    · cases h
    · split at h
      · next hc =>
        subst hc
        exact fault_of_closeBraces hm h
      · exact fault_of_readItem (by rw [hm]; rfl) h
  · next k hm =>
    obtain ⟨start, hlast, hlt, rfl⟩ := OpenClass.isLast_of_read (map_eq_error_iff.1 h)
    exact .range hm hlast hlt

/-- Some characters are refused because of one of them, all before it being read. -/
theorem exists_fault_of_readAll (h : p.readAll cs = .error e) :
    ∃ u c v q, cs = u ++ c :: v ∧ p.readAll u = .ok q ∧ q.Fault c e := by
  induction cs generalizing p with
  | nil => cases h
  | cons c cs ih =>
    cases hc : p.read c with
    | error e' =>
      rw [readAll_cons, hc] at h
      cases h
      exact ⟨[], c, cs, p, rfl, rfl, fault_of_read hc⟩
    | ok r =>
      rw [readAll_cons, hc] at h
      obtain ⟨u, d, v, q, rfl, hu, hfault⟩ := ih h
      exact ⟨c :: u, d, v, q, rfl, readAll_cons_eq_ok.2 ⟨r, hc, hu⟩, hfault⟩

/-- Why the pattern can be refused if it ends here.  A backslash is at fault before the class and
the groups around it, and a class before the groups. -/
inductive Unfinished (p : Parser) : PatternError → Prop
  | escape {offset : Nat} (hm : p.mode = .escape offset) : Unfinished p (.unterminatedEscape offset)
  | classEscape {k : OpenClass} {offset : Nat} {start : Option RangeStart}
    (hm : p.mode = .charClass k) (hk : k.mode = .escape offset start) :
    Unfinished p (.unterminatedEscape offset)
  | charClass {k : OpenClass} (hm : p.mode = .charClass k) : Unfinished p (.unclosedClass k.opened)
  | group {g : OpenGroup} {gs : List OpenGroup} (hm : p.mode.isSettleable = true)
    (henclosing : p.enclosing = g :: gs) : Unfinished p (.unclosedGroup g.opened)

/-- **Why a pattern is refused at its end.** -/
theorem unfinished_of_finish (h : p.finish = .error e) : p.Unfinished e := by
  have hgroup : p.mode.isSettleable = true → p.Unfinished e := by
    intro hm
    rw [finish_of_isSettleable hm] at h
    split at h
    · next henclosing =>
      cases h
      exact .group hm henclosing
    · cases h
  cases hm : p.mode with
  | escape offset =>
    rw [finish, hm] at h
    cases h
    exact .escape hm
  | charClass k =>
    rw [finish, hm] at h
    cases h
    unfold OpenClass.unfinished
    split
    · next hk => exact .classEscape hm hk
    · exact .charClass hm
  | _ => exact hgroup (by rw [hm]; rfl)

end Parser

end Backtrack
