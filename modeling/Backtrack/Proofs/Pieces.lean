import Backtrack.Pattern
import Backtrack.Proofs.Reading

/-!
# Reading back the pieces of a pattern

What `Regex.render` writes is read piece by piece.  After an item a quantifier may be
pending, which the next character settles unless it is a question mark
(`Parser.Stands`).  What a piece adds to the parser is said up to the offset, which no tree
depends on:

    an atom                   one more item            (readsTo_atom)
    a class                   one more item            (readsTo_class, readsTo_negatedClass)
    a quantifier              the latest item repeats  (leadsTo_quantifier)

Inside a class a member is read as one more member (`readsTo_member`), and inside braces
characters are pushed as long as `Braces.push?` takes them (`readsTo_push`).
-/

namespace Backtrack

open Regex (isClass)

/-- Whether what is pending can stand as it is, without any further character. -/
def Mode.isSettleable : Mode → Bool
  | .item | .quantifier .. | .braces _ => true
  | .escape _ | .charClass _ => false

namespace Parser

/-! ## Pieces of a text -/

/-- Parser `p` goes on as `q` does, which has nothing pending, unless a question mark comes
next. -/
structure Stands (p q : Parser) : Prop where
  mode : q.mode = .item
  settled : p = q ∨ (∃ least most, p.mode = .quantifier least most) ∧ p.settle = q

/-- Reading `cs` leads to `q`, at some offset. -/
def ReadsTo (p : Parser) (cs : List Char) (q : Parser) : Prop :=
  ∃ offset, p.readAll cs = .ok { q with offset }

/-- Reading `cs` leads to a parser that stands for `q`, at some offset. -/
def LeadsTo (p : Parser) (cs : List Char) (q : Parser) : Prop :=
  ∃ offset p', p.readAll cs = .ok p' ∧ p'.Stands { q with offset }

variable {p q r : Parser} {c : Char} {cs ds : List Char}

/-- A pattern may end where what is pending can stand as it is and no group is open. -/
theorem finish_eq_ok_iff {parsed : Parsed} :
    p.finish = .ok parsed ↔ p.mode.isSettleable = true ∧ p.enclosing = [] ∧
      parsed = ⟨p.settle.level.close, p.groups⟩ := by
  unfold finish
  cases p.mode with
  | escape offset => simp [Mode.isSettleable]
  | charClass k => simp [Mode.isSettleable]
  | _ =>
    cases p.enclosing with
    | nil => simp [Mode.isSettleable, eq_comm]
    | cons g enclosing => simp

theorem Stands.settle_eq (h : p.Stands q) : p.settle = q := by
  rcases h.settled with rfl | ⟨-, h⟩
  · unfold settle
    rw [h.mode]
  · exact h

/-- Any character but a question mark is read as if nothing were pending. -/
theorem Stands.read_eq (h : p.Stands q) (hc : c ≠ '?') : p.read c = q.read c := by
  rcases h.settled with rfl | ⟨⟨least, most, hm⟩, hq⟩
  · rfl
  · have hoffset : q.offset = p.offset := by rw [← hq, p.settle_unchanged.2.2]
    unfold read readInPlace
    rw [hm, h.mode, hoffset]
    simp only [if_neg hc, hq]

theorem Stands.readAll_eq (h : p.Stands q) (hc : c ≠ '?') :
    p.readAll (c :: cs) = q.readAll (c :: cs) := by
  rw [readAll_cons, readAll_cons, h.read_eq hc]

/-- Where the pattern may end, what is pending makes no difference. -/
theorem Stands.finish_eq (h : p.Stands q) (hq : q.enclosing = []) :
    p.finish = .ok ⟨q.level.close, q.groups⟩ := by
  have hmode : p.mode.isSettleable = true := by
    rcases h.settled with rfl | ⟨⟨least, most, hm⟩, -⟩
    · rw [h.mode]
      rfl
    · rw [hm]
      rfl
  obtain ⟨henclosing, hgroups, -⟩ := p.settle_unchanged
  rw [h.settle_eq] at henclosing hgroups
  rw [finish_eq_ok_iff, h.settle_eq, hgroups]
  exact ⟨hmode, henclosing.symm.trans hq, rfl⟩

theorem ReadsTo.leadsTo (h : p.ReadsTo cs q) (hq : q.mode = .item) : p.LeadsTo cs q := by
  obtain ⟨offset, hr⟩ := h
  exact ⟨offset, _, hr, hq, .inl rfl⟩

theorem ReadsTo.append (h : p.ReadsTo cs q) (h' : ∀ offset, { q with offset }.ReadsTo ds r) :
    p.ReadsTo (cs ++ ds) r := by
  obtain ⟨offset, hr⟩ := h
  obtain ⟨offset', hr'⟩ := h' offset
  exact ⟨offset', by rw [readAll_append, hr]; exact hr'⟩

theorem ReadsTo.append_leadsTo (h : p.ReadsTo cs q)
    (h' : ∀ offset, { q with offset }.LeadsTo ds r) : p.LeadsTo (cs ++ ds) r := by
  obtain ⟨offset, hr⟩ := h
  obtain ⟨offset', p', hr', hp'⟩ := h' offset
  exact ⟨offset', p', by rw [readAll_append, hr]; exact hr', hp'⟩

/-- One piece after another, if the later one does not begin with a question mark. -/
theorem LeadsTo.append (h : p.LeadsTo cs q) (hds : ds.head? ≠ some '?')
    (h' : ∀ offset, { q with offset }.LeadsTo ds r) : p.LeadsTo (cs ++ ds) r := by
  obtain ⟨offset, p', hr, hp'⟩ := h
  obtain ⟨offset', r', hr', hstands⟩ := h' offset
  cases ds with
  | nil =>
    cases hr'
    have heq : { q with offset } = { r with offset := offset' } := by
      rcases hstands.settled with h | ⟨⟨least, most, h⟩, -⟩
      · exact h
      · rw [hp'.mode] at h
        cases h
    exact ⟨offset', p', by rw [List.append_nil]; exact hr, heq ▸ hp'⟩
  | cons d ds =>
    refine ⟨offset', r', ?_, hstands⟩
    rw [readAll_append, hr]
    show p'.readAll (d :: ds) = _
    rw [hp'.readAll_eq (by simpa using hds), hr']

theorem LeadsTo.append_readsTo (h : p.LeadsTo cs q) (hc : c ≠ '?')
    (h' : ∀ offset, { q with offset }.ReadsTo (c :: ds) r) : p.ReadsTo (cs ++ c :: ds) r := by
  obtain ⟨offset, p', hr, hp'⟩ := h
  obtain ⟨offset', hr'⟩ := h' offset
  refine ⟨offset', ?_⟩
  rw [readAll_append, hr]
  show p'.readAll (c :: ds) = _
  rw [hp'.readAll_eq hc, hr']

/-- Reading one character from where nothing goes wrong. -/
theorem readsTo_of_readInPlace {n : Nat} (h : p.readInPlace c = .ok { q with offset := n }) :
    p.ReadsTo [c] q := by
  refine ⟨p.offset + c.utf8Size, ?_⟩
  rw [readAll_cons, read, h]
  rfl

theorem readInPlace_item (h : p.mode = .item) (c : Char) : p.readInPlace c = p.readItem c := by
  unfold readInPlace
  rw [h]

/-! ## Settling what is pending -/

/-- Whatever is pending can be settled, unless it is an escape or a class. -/
theorem mode_settle_of_isSettleable (h : p.mode.isSettleable = true) : p.settle.mode = .item := by
  refine mode_settle ?_
  cases hm : p.mode with
  | item => exact .inl rfl
  | quantifier least most => exact .inr (.inl ⟨least, most, rfl⟩)
  | braces b => exact .inr (.inr ⟨b, rfl⟩)
  | escape offset => rw [hm] at h; cases h
  | charClass k => rw [hm] at h; cases h

theorem settle_of_item (h : p.mode = .item) : p.settle = p := by
  unfold settle
  rw [h]

/-- Where an item may begin, the pattern may end unless a group is open. -/
theorem finish_of_isSettleable (h : p.mode.isSettleable = true) :
    p.finish =
      match p.enclosing with
      | g :: _ => .error (.unclosedGroup g.opened)
      | [] => .ok ⟨p.settle.level.close, p.groups⟩ := by
  unfold finish
  cases hm : p.mode with
  | escape offset => rw [hm] at h; cases h
  | charClass k => rw [hm] at h; cases h
  | _ => rfl

/-- Where the pattern ends, what is pending is settled. -/
theorem finish_settle (h : p.mode.isSettleable = true) : p.settle.finish = p.finish := by
  have hitem := mode_settle_of_isSettleable h
  obtain ⟨henclosing, hgroups, -⟩ := p.settle_unchanged
  rw [finish_of_isSettleable h, finish_of_isSettleable (by rw [hitem]; rfl), henclosing, hgroups,
    settle_of_item hitem]

/-- Reading goes on as if nothing were pending if the next character is read so. -/
theorem readAll_finish_of_read_settle (h : p.mode.isSettleable = true)
    (hread : ∀ c ∈ cs.head?, p.read c = p.settle.read c) :
    (p.readAll cs).bind finish = (p.settle.readAll cs).bind finish := by
  cases cs with
  | nil => exact (finish_settle h).symm
  | cons c cs => rw [readAll_cons, readAll_cons, hread c rfl]

/-- A character that goes on with no quantifier settles what is pending. -/
theorem readInPlace_of_isSettleable (h : p.mode.isSettleable = true) (hlazy : c ≠ '?')
    (hbrace : c ≠ '}') (hcomma : c ≠ ',') (hdigit : c.isDigit = false) :
    p.readInPlace c = p.settle.readItem c := by
  unfold readInPlace
  cases hm : p.mode with
  | item => rw [settle_of_item hm]
  | quantifier least most => simp only [if_neg hlazy]
  | braces b =>
    have hpush : b.push? c = none := by
      unfold Braces.push?
      cases b.upper <;> simp [hdigit, hcomma]
    simp only [hpush, if_neg hbrace]
  | escape offset => rw [hm] at h; cases h
  | charClass k => rw [hm] at h; cases h

/-! ## Characters -/

theorem ofEscape_of_not_letter (h : Metachar.ofLetter? c = none) : Atom.ofEscape c = .char c := by
  unfold Atom.ofEscape
  rw [h]

theorem ofLetter?_of_mem_specials (h : c ∈ specials) : Metachar.ofLetter? c = none := by
  have hall : specials.all (fun c => (Metachar.ofLetter? c).isNone) = true := rfl
  exact Option.isNone_iff_eq_none.1 (List.all_eq_true.1 hall c h)

theorem ofLetter?_of_mem_classSpecials (h : c ∈ classSpecials) : Metachar.ofLetter? c = none := by
  have hall : classSpecials.all (fun c => (Metachar.ofLetter? c).isNone) = true := rfl
  exact Option.isNone_iff_eq_none.1 (List.all_eq_true.1 hall c h)

/-- A character that needs no backslash stands for itself. -/
theorem readItem_of_not_special (h : c ∉ specials) : p.readItem c = .ok (p.push (.char c)) := by
  unfold readItem
  split <;> first | rfl | exact absurd (by decide) h

/-- An escape is read as what it stands for. -/
theorem readsTo_escape (h : p.mode = .item) (c : Char) :
    p.ReadsTo ['\\', c] (p.push (.atom (.ofEscape c))) := by
  have hslash : p.ReadsTo ['\\'] { p with mode := .escape p.offset } :=
    readsTo_of_readInPlace (readInPlace_item h _)
  exact hslash.append fun offset => readsTo_of_readInPlace rfl

theorem readsTo_atom (h : p.mode = .item) {a : Atom} (ha : a.isItem = true) :
    p.ReadsTo a.render (p.push (.atom a)) := by
  cases a with
  | char c =>
    simp only [Atom.render, escapedIn]
    by_cases hc : c ∈ specials
    · have hread := readsTo_escape h c
      rw [ofEscape_of_not_letter (ofLetter?_of_mem_specials hc)] at hread
      rwa [if_pos hc]
    · rw [if_neg hc]
      exact readsTo_of_readInPlace ((readInPlace_item h c).trans (readItem_of_not_special hc))
  | range first last => cases ha
  | dot => exact readsTo_of_readInPlace (readInPlace_item h _)
  | metachar m =>
    have hread := readsTo_escape h m.letter
    rwa [show Atom.ofEscape m.letter = .metachar m by
      unfold Atom.ofEscape; rw [Metachar.ofLetter?_letter]] at hread
  | lineStart => exact readsTo_of_readInPlace (readInPlace_item h _)
  | lineEnd => exact readsTo_of_readInPlace (readInPlace_item h _)

/-! ## Classes -/

section

variable {k k' : OpenClass}

/-- The first character of a member is read in the same way after the bracket and later,
unless it is a circumflex. -/
theorem read_of_member (hk : k.mode = .opening ∨ k.mode = .member) (hc : c ≠ '^') (offset : Nat) :
    k.read offset c = .ok ({ k with mode := .member }.readMember offset c) := by
  unfold OpenClass.read
  rcases hk with hk | hk
  · rw [hk]
    simp only [if_neg hc]
  · rw [hk]
    simp only [← hk]

theorem readMember_of_not_special (h : c ∉ classSpecials) (offset : Nat) :
    k.readMember offset c = .reading (k.push (.char c)) := by
  unfold OpenClass.readMember
  split <;> first | rfl | exact absurd (by decide) h

theorem read_of_range {start : RangeStart} (hk : k.mode = .range start) (offset : Nat) (c : Char) :
    k.read offset c =
      match c with
      | ']' => .ok (.complete (k.pushDash start).close)
      | '\\' => .ok (.reading { k with mode := .escape offset (some start) })
      | c => k.pushRange start c := by
  obtain ⟨opened, negated, members, mode⟩ := k
  cases hk
  rfl

/-- One character inside a class after which the class goes on. -/
theorem readsTo_reading (hm : p.mode = .charClass k)
    (h : k.read p.offset c = .ok (.reading k')) :
    p.ReadsTo [c] { p with mode := .charClass k' } := by
  refine readsTo_of_readInPlace (n := p.offset) ?_
  unfold readInPlace
  rw [hm]
  simp only [h]
  rfl

/-- An escape in a class is read as what it stands for. -/
theorem readsTo_classEscape (hm : p.mode = .charClass k)
    (hk : k.mode = .opening ∨ k.mode = .member) (c : Char) :
    p.ReadsTo ['\\', c] { p with mode := .charClass (k.push (.ofEscape c)) } := by
  have hslash : p.ReadsTo ['\\']
      { p with mode := .charClass { k with mode := .escape p.offset none } } :=
    readsTo_reading hm (read_of_member hk (by decide) _)
  exact hslash.append fun offset => readsTo_reading rfl rfl

/-- A character in a class, escaped if need be, is read back as that character. -/
theorem readsTo_classChar (hm : p.mode = .charClass k)
    (hk : k.mode = .opening ∨ k.mode = .member) (c : Char) :
    p.ReadsTo (escapedIn classSpecials c)
      { p with mode := .charClass (k.push (.char c)) } := by
  unfold escapedIn
  by_cases hc : c ∈ classSpecials
  · have hread := readsTo_classEscape hm hk c
    rw [ofEscape_of_not_letter (ofLetter?_of_mem_classSpecials hc)] at hread
    rwa [if_pos hc]
  · rw [if_neg hc]
    refine readsTo_reading hm ?_
    rw [read_of_member hk (fun h => hc (by rw [h]; decide)), readMember_of_not_special hc]
    rfl

/-- The last character of a range, escaped if need be, completes the range. -/
theorem readsTo_rangeEnd {start : RangeStart} (hm : p.mode = .charClass k)
    (hk : k.mode = .range start) {last : Char} (hle : start.first ≤ last) :
    p.ReadsTo (escapedIn classSpecials last)
      { p with mode := .charClass (k.push (.range start.first last)) } := by
  have hrange : ∀ k : OpenClass,
      k.pushRange start last = .ok (.reading (k.push (.range start.first last))) := by
    intro k
    unfold OpenClass.pushRange
    rw [if_neg (Char.not_lt.2 hle)]
  unfold escapedIn
  by_cases hc : last ∈ classSpecials
  · rw [if_pos hc]
    have hslash : p.ReadsTo ['\\']
        { p with mode := .charClass { k with mode := .escape p.offset (some start) } } :=
      readsTo_reading hm (read_of_range hk _ _)
    refine hslash.append fun offset => readsTo_reading rfl ?_
    simp only [OpenClass.read, ofLetter?_of_mem_classSpecials hc]
    exact hrange _
  · rw [if_neg hc]
    refine readsTo_reading hm ?_
    rw [read_of_range hk]
    split
    · exact absurd (by decide) hc
    · exact absurd (by decide) hc
    · exact hrange k

/-- A member of a class is read back as one more member. -/
theorem readsTo_member (hm : p.mode = .charClass k) (hk : k.mode = .opening ∨ k.mode = .member)
    {a : Atom} (ha : a.isMember = true) :
    p.ReadsTo a.renderMember { p with mode := .charClass (k.push a) } := by
  cases a with
  | char c => exact readsTo_classChar hm hk c
  | range first last =>
    have hdash : ∀ offset, { p with offset, mode := .charClass (k.push (.char first)) }.ReadsTo
        ['-'] { p with mode := .charClass { k with mode := .range ⟨first, offset⟩ } } :=
      fun offset => readsTo_reading rfl rfl
    refine (readsTo_classChar hm hk first).append fun offset => ?_
    exact (hdash offset).append fun offset' =>
      readsTo_rangeEnd
        (p := { p with
          offset := offset'
          mode := .charClass { k with mode := .range ⟨first, offset⟩ } })
        (k := { k with mode := .range ⟨first, offset⟩ })
        rfl rfl (show first ≤ last from of_decide_eq_true ha)
  | metachar m =>
    have hread := readsTo_classEscape hm hk m.letter
    rwa [show Atom.ofEscape m.letter = .metachar m by
      unfold Atom.ofEscape; rw [Metachar.ofLetter?_letter]] at hread
  | dot => cases ha
  | lineStart => cases ha
  | lineEnd => cases ha

theorem readsTo_members (hm : p.mode = .charClass k) (hk : k.mode = .opening ∨ k.mode = .member)
    {atoms : List Atom} (hatoms : ∀ a ∈ atoms, a.isMember = true) :
    p.ReadsTo (Regex.renderMembers (atoms.map .atom))
      { p with mode := .charClass (atoms.foldl OpenClass.push k) } := by
  induction atoms generalizing p k with
  | nil =>
    refine ⟨p.offset, ?_⟩
    rw [List.foldl_nil, ← hm]
    rfl
  | cons a atoms ih =>
    refine (readsTo_member hm hk (hatoms a (by simp))).append fun offset => ?_
    exact ih rfl (.inr rfl) fun a ha => hatoms a (by simp [ha])

theorem foldl_push_class (atoms : List Atom) (hne : atoms ≠ [] ∨ k.mode = .member) :
    atoms.foldl OpenClass.push k =
      { k with members := atoms.reverse ++ k.members, mode := .member } := by
  induction atoms generalizing k with
  | nil =>
    have hmode : k.mode = .member := by simpa using hne
    rw [← hmode]
    rfl
  | cons a atoms ih =>
    rw [List.foldl_cons, ih (.inr rfl)]
    simp [OpenClass.push]

/-- The members of a class and the closing bracket are read back as the class. -/
theorem readsTo_classRest (hm : p.mode = .charClass k)
    (hk : k.mode = .opening ∨ k.mode = .member) (hempty : k.members = [])
    {members : List Regex} (hmembers : isClass members = true) :
    p.ReadsTo (Regex.renderMembers members ++ [']'])
      (p.push (if k.negated then .negation (.charClass members) else .charClass members)) := by
  obtain ⟨hne, atoms, rfl, hatoms⟩ := Regex.isClass_iff.1 hmembers
  have hne : atoms ≠ [] := by simpa using hne
  refine (readsTo_members hm hk hatoms).append fun offset => ?_
  rw [foldl_push_class atoms (.inl hne), hempty, List.append_nil]
  refine readsTo_of_readInPlace (n := offset) ?_
  simp only [readInPlace, OpenClass.read, OpenClass.readMember, List.reverse_eq_nil_iff, if_neg hne,
    OpenClass.close, List.reverse_reverse]
  rfl

theorem readsTo_class (h : p.mode = .item) {members : List Regex}
    (hmembers : isClass members = true) :
    p.ReadsTo (Regex.render (.charClass members)) (p.push (.charClass members)) := by
  have hopen : p.ReadsTo ['['] { p with mode := .charClass (.start p.offset) } :=
    readsTo_of_readInPlace (readInPlace_item h _)
  refine hopen.append fun offset => ?_
  exact readsTo_classRest (p := { p with offset, mode := .charClass (.start p.offset) })
    rfl (.inl rfl) rfl hmembers

theorem readsTo_negatedClass (h : p.mode = .item) {members : List Regex}
    (hmembers : isClass members = true) :
    p.ReadsTo (Regex.render (.negation (.charClass members)))
      (p.push (.negation (.charClass members))) := by
  have hopen : p.ReadsTo ['['] { p with mode := .charClass (.start p.offset) } :=
    readsTo_of_readInPlace (readInPlace_item h _)
  have hcaret : ∀ offset, { p with offset, mode := .charClass (.start p.offset) }.ReadsTo ['^']
      { p with
        mode := .charClass { OpenClass.start p.offset with negated := true, mode := .member } } :=
    fun offset => readsTo_reading rfl rfl
  refine hopen.append fun offset => (hcaret offset).append fun offset' => ?_
  exact readsTo_classRest (p := { p with
      offset := offset'
      mode := .charClass { OpenClass.start p.offset with negated := true, mode := .member } })
    rfl (.inr rfl) rfl hmembers

end

/-! ## Quantifiers -/

section

variable {b b' : Braces} {least : Nat} {most : Option Nat}

/-- Characters that go on with a quantifier in braces. -/
theorem readsTo_push (hm : p.mode = .braces b) (h : cs.foldlM Braces.push? b = some b') :
    p.ReadsTo cs { p with mode := .braces b' } := by
  induction cs generalizing p b with
  | nil =>
    cases h
    exact ⟨p.offset, by rw [← hm]; rfl⟩
  | cons c cs ih =>
    rw [List.foldlM_cons, Option.bind_eq_bind, Option.bind_eq_some_iff] at h
    obtain ⟨b₁, hc, h⟩ := h
    have hfirst : p.ReadsTo [c] { p with mode := .braces b₁ } := by
      refine readsTo_of_readInPlace (n := p.offset) ?_
      unfold readInPlace
      rw [hm]
      simp only [hc]
    exact hfirst.append fun offset => ih rfl h

theorem push_lower {lower : List Char} (hlower : ∀ c ∈ lower, c.isDigit = true)
    (h : b.upper = none) :
    lower.foldlM Braces.push? b = some { b with lower := b.lower ++ lower } := by
  induction lower generalizing b with
  | nil => simp
  | cons c lower ih =>
    have hc : b.push? c = some { b with lower := b.lower ++ [c] } := by
      unfold Braces.push?
      rw [h]
      simp only [if_pos (hlower c (by simp))]
    rw [List.append_cons, List.foldlM_cons, hc]
    exact ih (fun c hc => hlower c (by simp [hc])) h

theorem push_upper {upper : List Char} (hupper : ∀ c ∈ upper, c.isDigit = true)
    {digits : List Char} (h : b.upper = some digits) :
    upper.foldlM Braces.push? b = some { b with upper := some (digits ++ upper) } := by
  induction upper generalizing b digits with
  | nil => simp [← h]
  | cons c upper ih =>
    have hc : b.push? c = some { b with upper := some (digits ++ [c]) } := by
      unfold Braces.push?
      rw [h]
      simp only [if_pos (hupper c (by simp))]
    rw [List.append_cons, List.foldlM_cons, hc]
    exact ih (fun c hc => hupper c (by simp [hc])) rfl

/-- Digits, a comma and digits are all taken. -/
theorem push_lower_upper {lower upper : List Char} (hlower : ∀ c ∈ lower, c.isDigit = true)
    (hupper : ∀ c ∈ upper, c.isDigit = true) (offset : Nat) :
    (lower ++ ',' :: upper).foldlM Braces.push? (.start offset) =
      some ⟨offset, lower, some upper⟩ := by
  rw [List.foldlM_append, push_lower hlower rfl]
  exact push_upper (b := ⟨offset, lower, some []⟩) hupper rfl

theorem isDigit_of_mem_toDigits {n : Nat} : ∀ c ∈ Nat.toDigits 10 n, c.isDigit = true :=
  fun _ => Nat.isDigit_of_mem_toDigits (by decide) (by decide)

theorem boundOf?_toDigits {n : Nat} (h : n ≤ maxBound) :
    boundOf? (Nat.toDigits 10 n) = some n := by
  unfold boundOf?
  rw [Nat.ofDigitChars_ten_toDigits]
  exact if_pos h

/-- The closing brace ends a quantifier whose bounds are in order. -/
theorem readsTo_closeBraces (hm : p.mode = .braces b)
    (hb : b.bounds? = some (least, most)) (hle : ∀ n, most = some n → least ≤ n) :
    p.ReadsTo ['}'] { p with mode := .quantifier least most } := by
  refine readsTo_of_readInPlace (n := p.offset) ?_
  have hpush : b.push? '}' = none := by
    unfold Braces.push?
    cases b.upper <;> rfl
  unfold readInPlace
  rw [hm]
  simp only [hpush, if_true, closeBraces, hb]
  cases most with
  | none => rfl
  | some n =>
    have := hle n rfl
    simp only [if_neg (show ¬n < least by omega)]

/-- A quantifier in braces after an item, once its bounds are known. -/
theorem readsTo_braces (hm : p.mode = .item) (hne : p.level.items ≠ [])
    (hcs : ∀ offset, ∃ b, cs.foldlM Braces.push? (.start offset) = some b ∧
      b.bounds? = some (least, most)) (hle : ∀ n, most = some n → least ≤ n) :
    p.ReadsTo ('{' :: cs ++ ['}']) { p with mode := .quantifier least most } := by
  obtain ⟨b, hpush, hb⟩ := hcs p.offset
  have hopen : p.ReadsTo ['{'] { p with mode := .braces (.start p.offset) } := by
    refine readsTo_of_readInPlace (n := p.offset) ?_
    rw [readInPlace_item hm]
    simp only [readItem, if_neg hne]
  refine ReadsTo.append (q := { p with mode := .braces b }) ?_ fun offset =>
    readsTo_closeBraces rfl hb hle
  exact hopen.append fun offset => readsTo_push rfl hpush

theorem bounds?_lower {lower : List Char} (hne : lower ≠ []) (offset : Nat) :
    (Braces.mk offset lower none).bounds? = (boundOf? lower).map fun m => (m, some m) := by
  unfold Braces.bounds?
  split <;> simp_all

theorem bounds?_lower_comma {lower : List Char} (hne : lower ≠ []) (offset : Nat) :
    (Braces.mk offset lower (some [])).bounds? = (boundOf? lower).map fun m => (m, none) := by
  unfold Braces.bounds?
  split <;> simp_all

theorem bounds?_comma_upper {upper : List Char} (hne : upper ≠ []) (offset : Nat) :
    (Braces.mk offset [] (some upper)).bounds? = (boundOf? upper).map fun n => (0, some n) := by
  unfold Braces.bounds?
  split <;> simp_all

theorem bounds?_lower_comma_upper {lower upper : List Char} (hlower : lower ≠ [])
    (hupper : upper ≠ []) (offset : Nat) :
    (Braces.mk offset lower (some upper)).bounds? =
      (boundOf? lower).bind fun m => (boundOf? upper).map fun n => (m, some n) := by
  unfold Braces.bounds?
  split <;> simp_all

end

/-- The four forms of bounds in braces. -/
theorem readsTo_exactly (hm : p.mode = .item) (hne : p.level.items ≠ []) {n : Nat}
    (hn : n ≤ maxBound) :
    p.ReadsTo ('{' :: Nat.toDigits 10 n ++ ['}']) { p with mode := .quantifier n (some n) } := by
  refine readsTo_braces hm hne (fun offset => ?_) (by rintro _ ⟨⟩; exact Nat.le_refl n)
  refine ⟨_, push_lower isDigit_of_mem_toDigits rfl, ?_⟩
  refine (bounds?_lower Nat.toDigits_ne_nil offset).trans ?_
  rw [boundOf?_toDigits hn]
  rfl

theorem readsTo_atLeast (hm : p.mode = .item) (hne : p.level.items ≠ []) {m : Nat}
    (hbound : m ≤ maxBound) :
    p.ReadsTo ('{' :: (Nat.toDigits 10 m ++ [',']) ++ ['}'])
      { p with mode := .quantifier m none } := by
  refine readsTo_braces hm hne (fun offset => ?_) fun _ h => by cases h
  refine ⟨_, push_lower_upper isDigit_of_mem_toDigits (List.forall_mem_nil _) offset, ?_⟩
  rw [bounds?_lower_comma Nat.toDigits_ne_nil, boundOf?_toDigits hbound]
  rfl

theorem readsTo_atMost (hm : p.mode = .item) (hne : p.level.items ≠ []) {n : Nat}
    (hn : n ≤ maxBound) :
    p.ReadsTo ('{' :: (',' :: Nat.toDigits 10 n) ++ ['}'])
      { p with mode := .quantifier 0 (some n) } := by
  refine readsTo_braces hm hne (fun offset => ?_) fun _ _ => Nat.zero_le _
  refine ⟨_, push_lower_upper (List.forall_mem_nil _) isDigit_of_mem_toDigits offset, ?_⟩
  rw [bounds?_comma_upper Nat.toDigits_ne_nil, boundOf?_toDigits hn]
  rfl

theorem readsTo_between (hm : p.mode = .item) (hne : p.level.items ≠ []) {m n : Nat}
    (hmn : m ≤ n) (hn : n ≤ maxBound) :
    p.ReadsTo ('{' :: (Nat.toDigits 10 m ++ ',' :: Nat.toDigits 10 n) ++ ['}'])
      { p with mode := .quantifier m (some n) } := by
  refine readsTo_braces hm hne (fun offset => ?_) (by rintro _ ⟨⟩; exact hmn)
  refine ⟨_, push_lower_upper isDigit_of_mem_toDigits isDigit_of_mem_toDigits offset, ?_⟩
  rw [bounds?_lower_comma_upper Nat.toDigits_ne_nil Nat.toDigits_ne_nil,
    boundOf?_toDigits (Nat.le_trans hmn hn), boundOf?_toDigits hn]
  rfl

theorem renderBounds_none {least : Nat} (h : 2 ≤ least) (isLazy stacked : Bool) :
    (Quantifier.mk least none isLazy).renderBounds stacked =
      '{' :: (Nat.toDigits 10 least ++ [',']) ++ ['}'] := by
  obtain ⟨n, rfl⟩ : ∃ n, least = n + 2 := ⟨least - 2, by omega⟩
  show '{' :: Nat.toDigits 10 (n + 2) ++ [',', '}'] = _
  simp

theorem renderBounds_some (least most : Nat) (isLazy stacked : Bool) :
    (Quantifier.mk least (some most) isLazy).renderBounds stacked =
      if least = 0 ∧ most = 1 ∧ stacked = false then ['?']
      else if least = most then '{' :: Nat.toDigits 10 least ++ ['}']
      else if least = 0 then '{' :: (',' :: Nat.toDigits 10 most) ++ ['}']
      else '{' :: (Nat.toDigits 10 least ++ ',' :: Nat.toDigits 10 most) ++ ['}'] := by
  unfold Quantifier.renderBounds
  match least with
  | 0 => simp
  | 1 => simp
  | _ + 2 => simp

/-- The bounds of a quantifier are read back, whether or not it follows another one. -/
theorem readsTo_renderBounds (hm : p.mode = .item) (hne : p.level.items ≠ []) (stacked : Bool)
    {count : Quantifier} (hcount : count.isWritable = true) :
    p.ReadsTo (count.renderBounds stacked)
      { p with mode := .quantifier count.least count.most } := by
  obtain ⟨least, most, isLazy⟩ := count
  have hsign : ∀ {c least most}, p.readItem c = p.quantify least most →
      p.ReadsTo [c] { p with mode := .quantifier least most } := by
    intro c least most h
    refine readsTo_of_readInPlace (n := p.offset) ?_
    rw [readInPlace_item hm, h]
    exact if_neg hne
  cases most with
  | none =>
    have hleast : least ≤ maxBound := of_decide_eq_true hcount
    match least with
    | 0 => exact hsign rfl
    | 1 => exact hsign rfl
    | n + 2 =>
      rw [renderBounds_none (by omega)]
      exact readsTo_atLeast hm hne hleast
  | some most =>
    simp only [Quantifier.isWritable, Bool.and_eq_true, decide_eq_true_eq] at hcount
    obtain ⟨hle, hmost⟩ := hcount
    rw [renderBounds_some]
    by_cases hsingle : least = 0 ∧ most = 1 ∧ stacked = false
    · obtain ⟨rfl, rfl, rfl⟩ := hsingle
      exact hsign rfl
    · rw [if_neg hsingle]
      by_cases heq : least = most
      · subst heq
        rw [if_pos rfl]
        exact readsTo_exactly hm hne hmost
      · rw [if_neg heq]
        by_cases hzero : least = 0
        · subst hzero
          rw [if_pos rfl]
          exact readsTo_atMost hm hne hmost
        · rw [if_neg hzero]
          exact readsTo_between hm hne hle hmost

/-- A quantifier is read as one for the latest item; if it is not lazy, it is pending. -/
theorem leadsTo_quantifier (hm : p.mode = .item) (hne : p.level.items ≠ []) (stacked : Bool)
    {count : Quantifier} (hcount : count.isWritable = true) :
    p.LeadsTo (count.render stacked) (p.repeatLast count) := by
  have hbounds := readsTo_renderBounds hm hne stacked hcount
  obtain ⟨least, most, isLazy⟩ := count
  unfold Quantifier.render
  cases isLazy with
  | true =>
    refine ReadsTo.leadsTo ?_ rfl
    exact hbounds.append fun offset => readsTo_of_readInPlace rfl
  | false =>
    obtain ⟨offset, hbounds⟩ := hbounds
    exact ⟨offset, _, by simpa using hbounds, rfl, .inr ⟨⟨least, most, rfl⟩, rfl⟩⟩

/-- A quantifier after another one does not begin with a question mark. -/
theorem head?_render_stacked (count : Quantifier) :
    (count.render true).head? ≠ some '?' := by
  obtain ⟨least, most, isLazy⟩ := count
  unfold Quantifier.render
  cases most with
  | none =>
    match least with
    | 0 => simp [Quantifier.renderBounds]
    | 1 => simp [Quantifier.renderBounds]
    | n + 2 => simp [renderBounds_none]
  | some most =>
    rw [renderBounds_some]
    split
    · simp_all
    · split <;> split <;> simp

end Parser

end Backtrack
