import Backtrack.Proofs.Parentheses

/-!
# Patterns made of patterns

Reading is compositional: what two patterns are with a bar between them, what a pattern is in
parentheses, and what two patterns are side by side can be told from the trees of the parts alone.

Side by side, the last branch of the first pattern and the first branch of the second one become
one branch.  `Parser.onto before p` is where parser `p` would be if the branches and items of
`before` had come before its own, outside all groups.  Only two things depend on whether there are
items: a quantifier needs one, and an opening brace stands for itself if there is none.  At the
very beginning of a pattern that is accepted no quantifier can stand; so reading comes to the same
unless a brace comes first:

    one character          (Parser.read_onto)
    any number of them     (Parser.readAll_onto)

Main statement: `Regex.parse_compose`.
-/

namespace Backtrack

open Regex (raise raiseAll raiseAll_eq_map ofBranches branchList)

/-! ## Levels that go on -/

namespace Level

/-- Branches, latest first, where the level `before` comes before them: the first of them goes on
with its current branch. -/
def joined (before : Level) : List Regex → List Regex
  | [] => before.branches
  | [.seq items] => .seq (before.items.reverse ++ items) :: before.branches
  | t :: later => t :: joined before later

/-- The level `l` where the level `before` comes before it. -/
def onto (before l : Level) : Level where
  branches := before.joined l.branches
  items :=
    match l.branches with
    | [] => l.items ++ before.items
    | _ :: _ => l.items

variable (before l : Level)

theorem joined_concat (branches items : List Regex) :
    before.joined (branches ++ [.seq items]) =
      branches ++ .seq (before.items.reverse ++ items) :: before.branches := by
  induction branches with
  | nil => rfl
  | cons t rest ih =>
    have hcons : before.joined (t :: (rest ++ [.seq items])) =
        t :: before.joined (rest ++ [.seq items]) := by
      cases rest <;> exact joined.eq_3 _ _ _ (by simp)
    rw [List.cons_append, hcons, ih]
    rfl

theorem onto_concat (branches first items : List Regex) :
    before.onto ⟨branches ++ [.seq first], items⟩ =
      ⟨branches ++ .seq (before.items.reverse ++ first) :: before.branches, items⟩ := by
  unfold onto
  rw [joined_concat]
  cases branches <;> rfl

theorem onto_push (t : Regex) : before.onto (l.push t) = (before.onto l).push t := by
  obtain ⟨branches, items⟩ := l
  cases branches <;> rfl

theorem onto_nextBranch : before.onto l.nextBranch = (before.onto l).nextBranch := by
  obtain ⟨branches, items⟩ := l
  cases branches with
  | nil => simp [onto, nextBranch, joined]
  | cons t later => rfl

/-- Items in the current branch repeat in the same way. -/
theorem onto_repeatLast (count : Quantifier) (h : l ≠ .empty) :
    before.onto (l.repeatLast count) = (before.onto l).repeatLast count := by
  obtain ⟨branches, items⟩ := l
  cases branches with
  | nil =>
    cases items with
    | nil => exact absurd rfl h
    | cons t items => rfl
  | cons t later => cases items <;> rfl

theorem items_onto_ne_nil (h : l.items ≠ []) : (before.onto l).items ≠ [] := by
  obtain ⟨branches, items⟩ := l
  cases branches with
  | nil => exact List.append_ne_nil_of_left_ne_nil h _
  | cons t later => exact h

/-- A later branch that has no items still has none. -/
theorem items_onto_eq_nil (h : l.items = []) (hne : l ≠ .empty) : (before.onto l).items = [] := by
  obtain ⟨branches, items⟩ := l
  cases branches with
  | nil => exact absurd (congrArg (Level.mk []) h) hne
  | cons t later => exact h

theorem repeatLast_eq_empty_iff (count : Quantifier) :
    l.repeatLast count = .empty ↔ l = .empty := by
  obtain ⟨branches, items⟩ := l
  cases items <;> simp [repeatLast, empty]

/-- The level `l` inside the groups `gs`, innermost first, where `before` comes before all. -/
def ontoInside (gs : List OpenGroup) (l : Level) : Level :=
  match gs with
  | [] => before.onto l
  | _ :: _ => l

/-- The groups that are open, innermost first, where `before` comes before all. -/
def ontoEnclosing : List OpenGroup → List OpenGroup
  | [] => []
  | g :: gs => { g with outer := before.ontoInside gs g.outer } :: ontoEnclosing gs

/-- The tree of two levels, the later one with the slots of its groups raised: the last branch of
the one and the first branch of the other are one branch. -/
theorem exists_close_onto (hl : l.Sound) (bytes groups : Nat) :
    ∃ init items more rest, branchList before.close = init ++ [.seq items] ∧
      branchList l.close = .seq more :: rest ∧
      (before.onto ((Prior.mk bytes groups []).level [] l)).close =
        ofBranches (init ++ .seq (items ++ more.map (raise groups)) ::
          rest.map (raise groups)) := by
  obtain ⟨branches, items⟩ := l
  rcases List.eq_nil_or_concat branches with rfl | ⟨later, first, rfl⟩
  · refine ⟨_, _, items.reverse, [], before.branchList_close, rfl, ?_⟩
    rw [close_eq_ofBranches]
    simp [onto, joined, Prior.level, raiseAll_eq_map, raiseAll]
  · have hfirst : first ∈ later.concat first := by simp
    obtain ⟨more, rfl, -⟩ := Regex.areBranches_iff.1 hl.branches first hfirst
    refine ⟨_, _, more, later.reverse ++ [.seq items.reverse], before.branchList_close, ?_, ?_⟩
    · rw [branchList_close]
      simp
    · have hlevel : (Prior.mk bytes groups []).level [] ⟨later.concat (.seq more), items⟩ =
          ⟨later.map (raise groups) ++ [.seq (more.map (raise groups))],
            items.map (raise groups)⟩ := by
        simp [Prior.level, raiseAll_eq_map, raise]
      rw [hlevel, onto_concat, close_eq_ofBranches]
      simp [raise, raiseAll_eq_map]

variable {gs : List OpenGroup}

theorem ontoInside_push (t : Regex) :
    before.ontoInside gs (l.push t) = (before.ontoInside gs l).push t := by
  cases gs with
  | nil => exact before.onto_push l t
  | cons g gs => rfl

theorem ontoInside_nextBranch :
    before.ontoInside gs l.nextBranch = (before.ontoInside gs l).nextBranch := by
  cases gs with
  | nil => exact before.onto_nextBranch l
  | cons g gs => rfl

theorem items_ontoInside_ne_nil (h : l.items ≠ []) : (before.ontoInside gs l).items ≠ [] := by
  cases gs with
  | nil => exact before.items_onto_ne_nil l h
  | cons g gs => exact h

theorem items_ontoInside_eq_nil (h : l.items = []) (hne : gs = [] → l ≠ .empty) :
    (before.ontoInside gs l).items = [] := by
  cases gs with
  | nil => exact before.items_onto_eq_nil l h (hne rfl)
  | cons g gs => exact h

end Level

/-! ## Parsers that go on -/

namespace Parser

variable {p q : Parser} {c : Char} {cs : List Char} {before : Level}

/-- Where the parser would be if `before` had come before all that it has read. -/
def onto (before : Level) (p : Parser) : Parser :=
  { p with
    enclosing := before.ontoEnclosing p.enclosing
    level := before.ontoInside p.enclosing p.level }

/-- Whether there is nothing yet outside all groups, and an item may begin. -/
def Fresh (p : Parser) : Prop :=
  p.mode.isSettleable = true ∧ p.enclosing = [] ∧ p.level = .empty

theorem not_fresh_of_mode_ne (hp : p.Fresh → p.mode = .item) (hm : p.mode ≠ .item) : ¬ p.Fresh :=
  fun hfresh => hm (hp hfresh)

/-- Where an item may begin there is something outside all groups, or there is a group. -/
theorem ne_of_not_fresh (hm : p.mode.isSettleable = true) (h : ¬ p.Fresh) :
    p.enclosing ≠ [] ∨ p.level ≠ .empty :=
  Decidable.not_and_iff_not_or_not.1 fun hfresh => h ⟨hm, hfresh⟩

theorem not_fresh_push (p : Parser) (t : Regex) : ¬ (p.push t).Fresh := by
  rintro ⟨-, -, hlevel⟩
  exact List.cons_ne_nil _ _ (congrArg Level.items hlevel)

theorem not_fresh_of_quantify {least : Nat} {most : Option Nat}
    (h : p.quantify least most = .ok q) : ¬ q.Fresh := by
  unfold quantify at h
  split at h
  · cases h
  · next hne =>
    cases h
    rintro ⟨-, -, hlevel⟩
    exact hne (congrArg Level.items hlevel)

theorem not_fresh_of_readItem (h : p.readItem c = .ok q) : ¬ q.Fresh := by
  unfold readItem at h
  split at h
  · -- a bar
    cases h
    rintro ⟨-, -, hlevel⟩
    cases hlevel
  · -- an opening parenthesis
    cases h
    rintro ⟨-, henclosing, -⟩
    cases henclosing
  · -- a closing parenthesis
    unfold closeGroup at h
    split at h
    · cases h
    · cases h
      rintro ⟨-, -, hlevel⟩
      exact List.cons_ne_nil _ _ (congrArg Level.items hlevel)
  · exact not_fresh_of_quantify h
  · exact not_fresh_of_quantify h
  · exact not_fresh_of_quantify h
  · cases h
    split
    · exact not_fresh_push p _
    · next hne =>
      rintro ⟨-, -, hlevel⟩
      exact hne (congrArg Level.items hlevel)
  · cases h
    rintro ⟨hmode, -⟩
    cases hmode
  · cases h
    rintro ⟨hmode, -⟩
    cases hmode
  all_goals
    cases h
    exact not_fresh_push p _

theorem not_fresh_settle (hp : ¬ p.Fresh) : ¬ p.settle.Fresh := by
  unfold settle
  cases hm : p.mode with
  | quantifier least most =>
    rintro ⟨-, henclosing, hlevel⟩
    exact hp ⟨by rw [hm]; rfl, henclosing, (p.level.repeatLast_eq_empty_iff _).1 hlevel⟩
  | braces b =>
    exact List.foldlRecOn (motive := fun q : Parser => ¬ q.Fresh) b.text _ hp
      fun q _ c _ => not_fresh_push q _
  | _ => exact hp

theorem not_fresh_of_closeBraces {b : Braces} (hm : p.mode = .braces b) (hp : ¬ p.Fresh)
    (h : p.closeBraces b = .ok q) : ¬ q.Fresh := by
  have hsame : ∀ m, ¬ { p with mode := m }.Fresh :=
    fun m hfresh => hp ⟨by rw [hm]; rfl, hfresh.2⟩
  unfold closeBraces at h
  split at h
  · exact not_fresh_of_readItem h
  · cases h
    exact hsame _
  · split at h
    · cases h
    · cases h
      exact hsame _

/-- After any character there is something, or an escape or a class has begun. -/
theorem not_fresh_of_readInPlace (hp : p.Fresh → p.mode = .item) (h : p.readInPlace c = .ok q) :
    ¬ q.Fresh := by
  unfold readInPlace at h
  cases hm : p.mode with
  | item =>
    rw [hm] at h
    exact not_fresh_of_readItem h
  | escape offset =>
    rw [hm] at h
    cases h
    exact not_fresh_push p _
  | quantifier least most =>
    simp only [hm] at h
    split at h
    · cases h
      rintro ⟨-, henclosing, hlevel⟩
      have hempty : p.level = .empty := (p.level.repeatLast_eq_empty_iff _).1 hlevel
      exact not_fresh_of_mode_ne hp (by rw [hm]; nofun) ⟨by rw [hm]; rfl, henclosing, hempty⟩
    · exact not_fresh_of_readItem h
  | braces b =>
    have hnot : ¬ p.Fresh := not_fresh_of_mode_ne hp (by rw [hm]; nofun)
    simp only [hm] at h
    split at h
    · cases h
      exact fun hfresh => hnot ⟨by rw [hm]; rfl, hfresh.2⟩
    · split at h
      · exact not_fresh_of_closeBraces hm hnot h
      · exact not_fresh_of_readItem h
  | charClass k =>
    simp only [hm] at h
    obtain ⟨s, -, rfl⟩ := map_eq_ok_iff.1 h
    cases s with
    | reading k' =>
      rintro ⟨hmode, -⟩
      cases hmode
    | complete t => exact not_fresh_push p t

theorem not_fresh_of_read (hp : p.Fresh → p.mode = .item) (h : p.read c = .ok q) : ¬ q.Fresh := by
  obtain ⟨r, hread, rfl⟩ := map_eq_ok_iff.1 h
  have hr : ¬ r.Fresh := not_fresh_of_readInPlace hp hread
  exact hr

/-! ### Reading on -/

theorem push_onto (p : Parser) (t : Regex) : (p.onto before).push t = (p.push t).onto before := by
  unfold push onto
  rw [Level.ontoInside_push]

theorem repeatLast_onto (count : Quantifier) (h : p.enclosing ≠ [] ∨ p.level ≠ .empty) :
    (p.onto before).repeatLast count = (p.repeatLast count).onto before := by
  obtain ⟨offset, groups, enclosing, level, mode⟩ := p
  cases enclosing with
  | nil =>
    have hne : level ≠ .empty := h.resolve_left fun h => h rfl
    have hlevel := before.onto_repeatLast level count hne
    exact congrArg (fun l => Parser.mk offset groups [] l .item) hlevel.symm
  | cons g gs => rfl

theorem settle_onto (hp : p.Fresh → p.mode = .item) :
    (p.onto before).settle = p.settle.onto before := by
  unfold settle
  rw [show (p.onto before).mode = p.mode from rfl]
  cases hm : p.mode with
  | quantifier least most =>
    have hnot : ¬ p.Fresh := not_fresh_of_mode_ne hp (by rw [hm]; nofun)
    exact repeatLast_onto _ (ne_of_not_fresh (by rw [hm]; rfl) hnot)
  | braces b => exact List.foldl_hom (onto before) fun p c => push_onto p _
  | _ => rfl

theorem quantify_onto {least : Nat} {most : Option Nat} (h : p.quantify least most = .ok q) :
    (p.onto before).quantify least most = .ok (q.onto before) := by
  unfold quantify at h ⊢
  split at h
  · cases h
  · next hne =>
    cases h
    exact if_neg (before.items_ontoInside_ne_nil p.level hne)

theorem closeGroup_onto (h : p.closeGroup = .ok q) :
    (p.onto before).closeGroup = .ok (q.onto before) := by
  obtain ⟨offset, groups, enclosing, level, mode⟩ := p
  cases enclosing with
  | nil => cases h
  | cons g gs =>
    cases h
    show Except.ok _ = Except.ok _
    unfold onto
    rw [Level.ontoInside_push]
    rfl

/-- Where nothing is pending a character is read in the same way, unless it is a brace that comes
first. -/
theorem readItem_onto (hbrace : c = '{' → ¬ p.Fresh) (hm : p.mode = .item)
    (h : p.readItem c = .ok q) : (p.onto before).readItem c = .ok (q.onto before) := by
  unfold readItem at h ⊢
  split at h
  · -- a bar
    cases h
    show Except.ok _ = Except.ok _
    unfold onto
    rw [Level.ontoInside_nextBranch]
  · -- an opening parenthesis
    cases h
    rfl
  · exact closeGroup_onto h
  · exact quantify_onto h
  · exact quantify_onto h
  · exact quantify_onto h
  · -- an opening brace
    cases h
    have hne : p.enclosing = [] → p.level ≠ .empty :=
      fun henclosing hlevel => hbrace rfl ⟨by rw [hm]; rfl, henclosing, hlevel⟩
    by_cases hitems : p.level.items = []
    · have honto : (p.onto before).level.items = [] :=
        before.items_ontoInside_eq_nil p.level hitems hne
      rw [if_pos hitems, if_pos honto, push_onto]
    · have honto : (p.onto before).level.items ≠ [] :=
        before.items_ontoInside_ne_nil p.level hitems
      rw [if_neg hitems, if_neg honto]
      rfl
  · cases h
    rfl
  · cases h
    rfl
  all_goals
    cases h
    exact congrArg Except.ok (push_onto p _)

/-- What is pending is settled, and then a character is read in the same way. -/
theorem settle_readItem_onto (hp : p.Fresh → p.mode = .item) (hm : p.mode.isSettleable = true)
    (hbrace : c = '{' → ¬ p.settle.Fresh) (h : p.settle.readItem c = .ok q) :
    (p.onto before).settle.readItem c = .ok (q.onto before) := by
  rw [settle_onto hp]
  exact readItem_onto hbrace (mode_settle_of_isSettleable hm) h

theorem closeBraces_onto {b : Braces} (hp : p.Fresh → p.mode = .item) (hm : p.mode = .braces b)
    (h : p.closeBraces b = .ok q) : (p.onto before).closeBraces b = .ok (q.onto before) := by
  unfold closeBraces at h ⊢
  split at h
  · exact settle_readItem_onto hp (by rw [hm]; rfl) (fun h => absurd h (by decide)) h
  · cases h
    rfl
  · split at h
    · cases h
    · next hle =>
      cases h
      exact if_neg hle

/-- **One character** is read in the same way, unless it is a brace that comes first. -/
theorem readInPlace_onto (hp : p.Fresh → p.mode = .item) (hbrace : c = '{' → ¬ p.Fresh)
    (h : p.readInPlace c = .ok q) : (p.onto before).readInPlace c = .ok (q.onto before) := by
  unfold readInPlace at h ⊢
  rw [show (p.onto before).mode = p.mode from rfl]
  cases hm : p.mode with
  | item =>
    rw [hm] at h
    exact readItem_onto hbrace hm h
  | escape offset =>
    rw [hm] at h
    cases h
    exact congrArg Except.ok (push_onto p _)
  | quantifier least most =>
    have hnot : ¬ p.Fresh := not_fresh_of_mode_ne hp (by rw [hm]; nofun)
    simp only [hm] at h ⊢
    split at h
    · next hlazy =>
      cases h
      rw [if_pos hlazy, repeatLast_onto _ (ne_of_not_fresh (by rw [hm]; rfl) hnot)]
    · next hlazy =>
      rw [if_neg hlazy]
      exact settle_readItem_onto hp (by rw [hm]; rfl) (fun _ => not_fresh_settle hnot) h
  | braces b =>
    have hnot : ¬ p.Fresh := not_fresh_of_mode_ne hp (by rw [hm]; nofun)
    simp only [hm] at h ⊢
    split at h
    · cases h
      rfl
    · split at h
      · next hclose =>
        rw [if_pos hclose]
        exact closeBraces_onto hp hm h
      · next hclose =>
        rw [if_neg hclose]
        exact settle_readItem_onto hp (by rw [hm]; rfl) (fun _ => not_fresh_settle hnot) h
  | charClass k =>
    simp only [hm] at h ⊢
    obtain ⟨s, hs, rfl⟩ := map_eq_ok_iff.1 h
    rw [show (p.onto before).offset = p.offset from rfl, hs]
    cases s with
    | reading k' => rfl
    | complete t => exact congrArg Except.ok (push_onto p t)

theorem read_onto (hp : p.Fresh → p.mode = .item) (hbrace : c = '{' → ¬ p.Fresh)
    (h : p.read c = .ok q) : (p.onto before).read c = .ok (q.onto before) := by
  obtain ⟨r, hread, rfl⟩ := map_eq_ok_iff.1 h
  unfold read
  rw [readInPlace_onto hp hbrace hread]
  rfl

/-- Any number of characters are read in the same way, unless a brace comes first. -/
theorem readAll_onto (before : Level) (hp : p.Fresh → p.mode = .item)
    (hbrace : cs.head? = some '{' → ¬ p.Fresh)
    (h : p.readAll cs = .ok q) :
    (p.onto before).readAll cs = .ok (q.onto before) ∧ (q.Fresh → q.mode = .item) := by
  induction cs generalizing p with
  | nil =>
    cases h
    exact ⟨rfl, hp⟩
  | cons c cs ih =>
    obtain ⟨r, hread, h⟩ := readAll_cons_eq_ok.1 h
    have hnot : ¬ r.Fresh := not_fresh_of_read hp hread
    rw [readAll_cons, read_onto hp (fun hc => hbrace (congrArg some hc)) hread]
    exact ih (fun hfresh => absurd hfresh hnot) (fun _ => hnot) h

/-- Where the pattern ends, the tree is that of the two levels together. -/
theorem finish_onto (hp : p.Fresh → p.mode = .item) (hm : p.mode.isSettleable = true)
    (henclosing : p.enclosing = []) :
    (p.onto before).finish = .ok ⟨(before.onto p.settle.level).close, p.groups⟩ := by
  have honto : (p.onto before).enclosing = [] := by
    unfold onto
    rw [henclosing]
    rfl
  have hlevel : (p.onto before).settle.level = before.onto p.settle.level := by
    rw [settle_onto hp]
    unfold onto
    rw [p.settle_unchanged.1, henclosing]
    rfl
  exact finish_eq_ok_iff.2 ⟨hm, honto, by rw [hlevel]; rfl⟩

/-! ### Where one pattern ends and another one begins -/

/-- Whether a character may go on with what is pending after a pattern: with a quantifier in
braces, or as the question mark that makes a quantifier lazy. -/
def GoesOn (c : Char) : Prop := c = '?' ∨ c = '}' ∨ c = ',' ∨ c.isDigit = true

/-- Anything else is read as if nothing were pending. -/
theorem readAll_finish_settle (hm : p.mode.isSettleable = true)
    (hseam : ∀ c ∈ cs.head?, ¬ GoesOn c) :
    (p.readAll cs).bind finish = (p.settle.readAll cs).bind finish := by
  refine readAll_finish_of_read_settle hm fun c hc => ?_
  have hgoes := hseam c hc
  simp only [GoesOn, not_or, Bool.not_eq_true] at hgoes
  obtain ⟨hlazy, hbrace, hcomma, hdigit⟩ := hgoes
  unfold read
  rw [readInPlace_of_isSettleable hm hlazy hbrace hcomma hdigit,
    readInPlace_item (mode_settle_of_isSettleable hm), p.settle_unchanged.2.2]

/-- What has been read of a pattern, once it is settled, is what comes before the next one. -/
theorem settle_eq_onto (hm : p.mode.isSettleable = true) (henclosing : p.enclosing = []) :
    p.settle = ((start 0).after ⟨p.offset, p.groups, []⟩).onto p.settle.level := by
  have hitem := mode_settle_of_isSettleable hm
  obtain ⟨hsame, hgroups, hoffset⟩ := p.settle_unchanged
  calc
    p.settle = ⟨p.settle.offset, p.settle.groups, p.settle.enclosing, p.settle.level,
        p.settle.mode⟩ := rfl
    _ = ⟨p.offset, p.groups, [], p.settle.level, .item⟩ := by
        rw [hoffset, hgroups, hsame, henclosing, hitem]
    _ = ((start 0).after ⟨p.offset, p.groups, []⟩).onto p.settle.level := by
        simp [onto, after, start, Prior.enclosing, Prior.level, Mode.later, Level.ontoInside,
          Level.ontoEnclosing, Level.onto, Level.joined, Level.empty, raiseAll]

/-! ### In parentheses -/

theorem read_close_of_nil (hm : p.mode.isSettleable = true) (henclosing : p.enclosing = []) :
    p.read ')' = .error (.unmatchedParen p.offset) := by
  obtain ⟨hsame, -, hoffset⟩ := p.settle_unchanged
  unfold read
  rw [readInPlace_of_isSettleable hm (by decide) (by decide) (by decide) (by decide)]
  simp only [readItem, closeGroup, hsame, henclosing, hoffset]
  rfl

/-- A text that can be read by itself can be read inside groups. -/
theorem readAll_within {gs : List OpenGroup} (h : p.readAll cs = .ok q) :
    (p.within gs).readAll cs = .ok (q.within gs) := by
  induction cs generalizing p with
  | nil =>
    cases h
    rfl
  | cons c cs ih =>
    obtain ⟨r, hread, h⟩ := readAll_cons_eq_ok.1 h
    have hinside : ¬ (c = ')' ∧ p.mode.isSettleable = true ∧ p.enclosing = []) := by
      rintro ⟨rfl, hm, henclosing⟩
      rw [read_close_of_nil hm henclosing] at hread
      cases hread
    rw [readAll_cons, read_within hinside, hread]
    exact ih h

end Parser

namespace Regex

/-- **A pattern in parentheses** is the body of the first group. -/
theorem parse_parentheses {text : String} {s : Parsed} (h : parse text = .ok s) :
    parse ("(" ++ text ++ ")") = .ok ⟨.seq [.group 0 (s.root.raise 1)], s.groups + 1⟩ := by
  obtain ⟨p, hp, hmode, henclosing, rfl⟩ := exists_readAll_of_parse h
  let r : Prior := ⟨1, 1, []⟩
  let g : OpenGroup := ⟨0, 0, .empty⟩
  have hafter : ((Parser.start 0).after r).readAll text.toList = .ok (p.after r) := by
    rw [Parser.readAll_after, hp]
    rfl
  have hclose : ((p.after r).within [g]).read ')' = .ok ((p.after r).closed g []) := by
    apply Parser.read_close
    · rw [Parser.mode_after, Parser.isSettleable_later]
      exact hmode
    · rw [Parser.after, henclosing]
      rfl
  have hread : (Parser.start 0).readAll ("(" ++ text ++ ")").toList =
      .ok ((p.after r).closed g []) := by
    rw [String.toList_append, String.toList_append, List.append_assoc]
    show (Parser.start 0).readAll ('(' :: (text.toList ++ [')'])) = _
    rw [Parser.readAll_cons, Parser.read_open rfl]
    show (((Parser.start 0).after r).within [g]).readAll (text.toList ++ [')']) = _
    rw [Parser.readAll_append, Parser.readAll_within hafter]
    show ((p.after r).within [g]).readAll [')'] = _
    rw [Parser.readAll_cons, hclose]
    rfl
  have hbody : (p.after r).settle.level.close = p.settle.level.close.raise 1 := by
    rw [Parser.settle_after]
    exact Prior.close_level_of_branches _ _ _ rfl
  have hlevel : ((p.after r).closed g []).settle.level.close =
      .seq [.group 0 (p.settle.level.close.raise 1)] := by
    rw [← hbody]
    rfl
  rw [parse, parseAt, hread]
  show ((p.after r).closed g []).finish = _
  rw [← hlevel]
  exact Parser.finish_eq_ok_iff.2 ⟨rfl, rfl, rfl⟩

/-- **Two patterns side by side**, if the second one does not begin with a character that a
quantifier in braces before it could contain, or that could begin one. -/
theorem parse_append {left right : String} {s t : Parsed} (hs : parse left = .ok s)
    (ht : parse right = .ok t)
    (hseam : ∀ c ∈ right.toList.head?, c ≠ '{' ∧ c ≠ '}' ∧ c ≠ ',' ∧ c.isDigit = false) :
    ∃ init items more rest, branchList s.root = init ++ [.seq items] ∧
      branchList t.root = .seq more :: rest ∧
      parse (left ++ right) =
        .ok ⟨ofBranches (init ++ .seq (items ++ more.map (raise s.groups)) ::
          rest.map (raise s.groups)), s.groups + t.groups⟩ := by
  obtain ⟨p, hp, hmode, henclosing, rfl⟩ := exists_readAll_of_parse hs
  obtain ⟨q, hq, hqmode, hqenclosing, rfl⟩ := exists_readAll_of_parse ht
  let r : Prior := ⟨p.offset, p.groups, []⟩
  have hgoes : ∀ c ∈ right.toList.head?, ¬ Parser.GoesOn c := by
    rintro c hc (rfl | rfl | rfl | hdigit)
    · -- A question mark that comes first is refused.
      obtain ⟨cs, hcs⟩ : ∃ cs, right.toList = '?' :: cs := List.head?_eq_some_iff.1 hc
      rw [hcs, Parser.readAll_cons] at hq
      cases hq
    · exact (hseam _ hc).2.1 rfl
    · exact (hseam _ hc).2.2.1 rfl
    · rw [(hseam c hc).2.2.2] at hdigit
      cases hdigit
  have hbrace : right.toList.head? = some '{' → ¬ ((Parser.start 0).after r).Fresh :=
    fun hc => absurd rfl (hseam _ hc).1
  have hafter : ((Parser.start 0).after r).readAll right.toList = .ok (q.after r) := by
    rw [Parser.readAll_after, hq]
    rfl
  obtain ⟨honto, hfresh⟩ :=
    Parser.readAll_onto p.settle.level (fun _ => rfl) hbrace hafter
  have hread : parse (left ++ right) = ((q.after r).onto p.settle.level).finish := by
    rw [parse, parseAt, String.toList_append, Parser.readAll_append, hp]
    show (p.readAll right.toList).bind Parser.finish = _
    rw [Parser.readAll_finish_settle hmode hgoes,
      Parser.settle_eq_onto hmode henclosing, honto]
    rfl
  have hsound : q.settle.level.Sound := ((Parser.sound_start 0).readAll hq).settle.level
  obtain ⟨init, items, more, rest, hinit, hrest, hclose⟩ :=
    p.settle.level.exists_close_onto q.settle.level hsound p.offset p.groups
  refine ⟨init, items, more, rest, hinit, hrest, ?_⟩
  have hlevel : (q.after r).settle.level = r.level [] q.settle.level := by
    rw [Parser.settle_after, Parser.after, q.settle_unchanged.1, hqenclosing]
  rw [hread, Parser.finish_onto hfresh ?_ ?_, hlevel, hclose, Nat.add_comm]
  · rfl
  · rw [Parser.mode_after, Parser.isSettleable_later]
    exact hqmode
  · rw [Parser.after, hqenclosing]
    rfl

/-! ## Composition -/

/-- The text is read as the tree `root`, and its captures are numbered and named from 1 to
`total`. -/
def ReadsAs (text : String) (root : Regex) (total : Nat) : Prop :=
  ∃ s, parse text = .ok s ∧ s.root = root ∧
    s.captures.map (fun c => (c.number, c.name)) = (List.range' 1 total).map fun i => (i, i.repr)

theorem readsAs_of_parse {text : String} {root : Regex} {total : Nat}
    (h : parse text = .ok ⟨root, total⟩) : ReadsAs text root total := by
  refine ⟨_, h, rfl, ?_⟩
  simp only [Parsed.captures, List.map_map, List.range'_eq_map_range]
  apply List.map_congr_left
  intro i _
  have hnumber : (Capture.mk i).number = 1 + i := Nat.add_comm i 1
  show ((Capture.mk i).number, (Capture.mk i).number.repr) = (1 + i, (1 + i).repr)
  rw [hnumber]

/-- **Composition.**  Two patterns with a bar between them, a pattern in parentheses, and two
patterns side by side, if no quantifier in braces can cross the seam. -/
theorem parse_compose {left right : String} {s t : Parsed} (hs : parse left = .ok s)
    (ht : parse right = .ok t) :
    ReadsAs (left ++ "|" ++ right)
      (.alt (branchList s.root ++ (branchList t.root).map (raise s.groups)))
      (s.groups + t.groups) ∧
    ReadsAs ("(" ++ left ++ ")") (.seq [.group 0 (s.root.raise 1)]) (s.groups + 1) ∧
    ((∀ c ∈ right.toList.head?, c ≠ '{' ∧ c ≠ '}' ∧ c ≠ ',' ∧ c.isDigit = false) →
      ∃ init items more rest, branchList s.root = init ++ [.seq items] ∧
        branchList t.root = .seq more :: rest ∧
        ReadsAs (left ++ right)
          (ofBranches (init ++ .seq (items ++ more.map (raise s.groups)) ::
            rest.map (raise s.groups)))
          (s.groups + t.groups)) := by
  refine ⟨readsAs_of_parse ?_, readsAs_of_parse (parse_parentheses hs), fun hseam => ?_⟩
  · rw [parse_bar hs, ht, ← branchList_raise, Nat.add_comm s.groups]
    rfl
  · obtain ⟨init, items, more, rest, hinit, hrest, hread⟩ := parse_append hs ht hseam
    exact ⟨init, items, more, rest, hinit, hrest, readsAs_of_parse hread⟩

/-- A brace that is pending where the first pattern ends, and groups in both patterns. -/
theorem parse_compose_pending :
    let group := fun i c => Regex.seq [.group i (.seq [.char c])]
    let literals := [Regex.char 'b', .char '\x7b', .char '2']
    let twice := Regex.repeated (.char 'x') ⟨2, some 2, false⟩
    parse "(a)|b\x7b2" = .ok ⟨.alt [group 0 'a', .seq literals], 1⟩ ∧
      parse "x\x7b2\x7d|(c)" = .ok ⟨.alt [.seq [twice], group 0 'c'], 1⟩ ∧
      ReadsAs "(a)|b\x7b2|x\x7b2\x7d|(c)"
        (.alt [group 0 'a', .seq literals, .seq [twice], group 1 'c']) 2 ∧
      ReadsAs "((a)|b\x7b2)" (.seq [.group 0 (.alt [group 1 'a', .seq literals])]) 2 ∧
      ReadsAs "(a)|b\x7b2x\x7b2\x7d|(c)"
        (.alt [group 0 'a', .seq (literals ++ [twice]), group 1 'c']) 2 := by
  intro group literals twice
  have hleft : parse "(a)|b\x7b2" = .ok ⟨.alt [group 0 'a', .seq literals], 1⟩ := rfl
  have hright : parse "x\x7b2\x7d|(c)" = .ok ⟨.alt [.seq [twice], group 0 'c'], 1⟩ := rfl
  obtain ⟨hbar, hparentheses, hside⟩ := parse_compose hleft hright
  have hseam : ∀ c ∈ "x\x7b2\x7d|(c)".toList.head?,
      c ≠ '{' ∧ c ≠ '}' ∧ c ≠ ',' ∧ c.isDigit = false := by
    intro c hc
    cases hc
    decide
  obtain ⟨init, items, more, rest, hinit, hrest, hreads⟩ := hside hseam
  obtain ⟨rfl, hitems⟩ := List.append_inj'
    (show [group 0 'a'] ++ [.seq literals] = init ++ [.seq items] from hinit) rfl
  cases hitems
  cases hrest
  exact ⟨hleft, hright, hbar, hparentheses, hreads⟩

end Regex

end Backtrack
