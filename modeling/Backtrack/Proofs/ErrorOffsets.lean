import Backtrack.Proofs.BraceQuantifiers
import Backtrack.Proofs.Parentheses

/-!
# Where a pattern is wrong

An error names the offset of what is wrong.  `PatternError.PointsInto` says for each kind of error
what stands there, and what comes before and after it.

Some offsets are those of the character that has just been read (`Parser.Change`, `Parser.Fault`).
The others have been kept for some time, and what they are is a property of everything read since:

    the parentheses of the groups that are open      (Parser.opened_of_readAll)
    the bracket of the class that is open            (Parser.classOpen_of_readAll)
    the brace of the bounds that are being read      (Parser.bounds_of_readAll)
    the dash of the range that is being read         (Parser.dash_of_readAll)

Main statement: `Regex.pointsInto_of_parse`.
-/

namespace Backtrack

open Braces (Misordered)

/-! ## What an error says -/

def Place.isEscaped : Place → Bool
  | .escaped | .classEscaped => true
  | .plain | .classStart | .classFirst | .inClass => false

def Place.isClass : Place → Bool
  | .classStart | .classFirst | .inClass | .classEscaped => true
  | .plain | .escaped => false

/-- Whether the text writes the literal `c` in a class. -/
def ClassLiteral (text : String) (c : Char) : Prop :=
  text = String.singleton c ∧ c ≠ '\\' ∨
    text = "\\" ++ String.singleton c ∧ Metachar.ofLetter? c = none

theorem classLiteral_bare {c : Char} (hc : c ≠ '\\') : ClassLiteral (String.ofList [c]) c :=
  .inl ⟨String.singleton_eq_ofList.symm, hc⟩

theorem classLiteral_escaped {c : Char} (hc : Metachar.ofLetter? c = none) :
    ClassLiteral (String.ofList ['\\', c]) c := by
  refine .inr ⟨?_, hc⟩
  rw [String.ofList_cons, ← String.singleton_eq_ofList]
  rfl

namespace PatternError

/-- The offset of what is wrong.  A pattern that is too large is so as a whole. -/
def offset? : PatternError → Option Nat
  | unterminatedEscape offset | unclosedGroup offset | unmatchedParen offset | unclosedClass offset
  | invalidRange _ _ offset | invalidBounds _ _ offset | nothingToRepeat offset => some offset
  | tooLarge _ => none

open Outline (EndsAt ItemEnds BranchBegins ofText)

/-- What an error says of the pattern. -/
inductive PointsInto (text : String) : PatternError → Prop
  | unterminatedEscape {before : String} {place : Place} (htext : text = before ++ "\\")
    (hplace : EndsAt before place) (hescaped : place.isEscaped = false) :
    PointsInto text (.unterminatedEscape before.utf8ByteSize)
  /-- A parenthesis opens a group, and all parentheses after it belong together. -/
  | unclosedGroup {before inside : String} {groups : Nat} (htext : text = before ++ "(" ++ inside)
    (hplace : EndsAt before .plain) (hinside : ofText inside = some ⟨.plain, groups, 0⟩) :
    PointsInto text (.unclosedGroup before.utf8ByteSize)
  | unmatchedParen {before rest : String} {s : Parsed} (htext : text = before ++ ")" ++ rest)
    (hbefore : Regex.parse before = .ok s) :
    PointsInto text (.unmatchedParen before.utf8ByteSize)
  /-- A bracket opens a class, and all the rest of the pattern is in this class. -/
  | unclosedClass {before inside : String} (htext : text = before ++ "[" ++ inside)
    (hplace : EndsAt before .plain)
    (hinside : ∀ part more, inside = part ++ more →
      ∃ place, EndsAt (before ++ "[" ++ part) place ∧ place.isClass = true) :
    PointsInto text (.unclosedClass before.utf8ByteSize)
  | invalidRange {before left right rest : String} {place : Place} {first last : Char}
    (htext : text = before ++ left ++ "-" ++ right ++ rest)
    (hplace : EndsAt before place) (hclass : place.isClass = true)
    (hescaped : place.isEscaped = false) (hleft : ClassLiteral left first)
    (hdash : EndsAt (before ++ left) .inClass) (hright : ClassLiteral right last)
    (hclose : right ≠ "]") (hlt : last < first) :
    PointsInto text (.invalidRange first last (before ++ left).utf8ByteSize)
  | invalidBounds {before rest : String} {braces : List Char} {least most : Nat}
    (htext : text = before ++ String.ofList braces ++ rest) (hends : ItemEnds before)
    (hbraces : Misordered braces least most) :
    PointsInto text (.invalidBounds least most before.utf8ByteSize)
  | nothingToRepeat {before rest : String} {sign : Char}
    (htext : text = before ++ String.singleton sign ++ rest) (hsign : sign ∈ ['*', '+', '?'])
    (hbegins : BranchBegins before) : PointsInto text (.nothingToRepeat before.utf8ByteSize)

/-- An error that points into the pattern names the offset of a character of it. -/
theorem PointsInto.isBoundary {text : String} {e : PatternError} (h : e.PointsInto text) :
    ∃ offset, e.offset? = some offset ∧ Text.isBoundary text offset = true ∧
      offset < text.utf8ByteSize := by
  have hsplit : ∀ {before token rest : String}, text = before ++ token ++ rest →
      0 < token.utf8ByteSize → Text.isBoundary text before.utf8ByteSize = true ∧
        before.utf8ByteSize < text.utf8ByteSize := by
    intro before token rest htext htoken
    rw [String.append_assoc] at htext
    refine ⟨Text.isBoundary_iff.2 ⟨before, token ++ rest, htext, rfl⟩, ?_⟩
    rw [htext, String.utf8ByteSize_append, String.utf8ByteSize_append]
    omega
  cases h with
  | unterminatedEscape htext =>
    exact ⟨_, rfl, hsplit (htext.trans String.append_empty.symm) Nat.one_pos⟩
  | unclosedGroup htext => exact ⟨_, rfl, hsplit htext Nat.one_pos⟩
  | unmatchedParen htext => exact ⟨_, rfl, hsplit htext Nat.one_pos⟩
  | unclosedClass htext => exact ⟨_, rfl, hsplit htext Nat.one_pos⟩
  | invalidRange htext => exact ⟨_, rfl, hsplit (htext.trans String.append_assoc) Nat.one_pos⟩
  | invalidBounds htext _ hbraces =>
    refine ⟨_, rfl, hsplit htext ?_⟩
    cases hbraces
    rw [List.cons_append, Parser.utf8ByteSize_ofList_cons]
    exact Nat.lt_of_lt_of_le (Char.utf8Size_pos _) (Nat.le_add_right _ _)
  | nothingToRepeat htext =>
    refine ⟨_, rfl, hsplit htext ?_⟩
    rw [String.utf8ByteSize_singleton]
    exact Char.utf8Size_pos _

end PatternError

/-! ## Outlines inside parentheses -/

namespace Outline

variable {o o' : Outline} {c : Char} {cs : List Char}

/-- The outline of what stands inside other parentheses: `opened` parentheses come before it, and
`depth` of them are open. -/
def inside (o : Outline) (opened depth : Nat) : Outline where
  place := o.place
  opened := opened + o.opened
  depth := depth + o.depth

theorem next_inside (h : o.next c = some o') (opened depth : Nat) :
    (o.inside opened depth).next c = some (o'.inside opened depth) := by
  obtain ⟨place, n, d⟩ := o
  rcases next_cases h with ⟨hplain, rfl, rfl⟩ | ⟨hplain, rfl, hd, rfl⟩ | ⟨hd, hn, hnext⟩
  · cases hplain
    rfl
  · cases hplain
    have hsub : depth + d - 1 = depth + (d - 1) := Nat.add_sub_assoc (Nat.pos_of_ne_zero hd) depth
    have hne : depth + d ≠ 0 := fun h => hd (Nat.eq_zero_of_add_eq_zero h).2
    simp only [inside, next, if_neg hne, hsub]
    rfl
  · unfold inside
    rw [hd, hn]
    exact hnext _ _

theorem after_inside (h : o.after cs = some o') (opened depth : Nat) :
    (o.inside opened depth).after cs = some (o'.inside opened depth) := by
  induction cs generalizing o with
  | nil =>
    cases h
    rfl
  | cons c cs ih =>
    rw [after_cons] at h ⊢
    obtain ⟨o₁, hnext, h⟩ := Option.bind_eq_some_iff.1 h
    rw [next_inside hnext, Option.bind_some]
    exact ih h

/-- A character that opens and closes nothing does so anywhere. -/
theorem next_of_depth_eq (h : o.next c = some o') (hdepth : o'.depth = o.depth)
    (opened depth : Nat) :
    (⟨o.place, opened, depth⟩ : Outline).next c = some ⟨o'.place, opened, depth⟩ := by
  rcases next_cases h with ⟨-, -, rfl⟩ | ⟨-, -, hd, rfl⟩ | ⟨-, -, hnext⟩
  · exact absurd hdepth (Nat.succ_ne_self _)
  · exact absurd hdepth (Nat.ne_of_lt (Nat.sub_one_lt hd))
  · exact hnext opened depth

end Outline

namespace Parser

variable {p q : Parser} {c : Char} {cs : List Char} {e : PatternError}

open Outline (EndsAt ItemEnds ofText)

/-! ## The parentheses of open groups -/

/-- The groups, innermost first, are open after some characters: each begins with a parenthesis,
and all parentheses between this one and the next group, or the end, belong together. -/
inductive Opened : List Char → Place → List OpenGroup → Prop
  | nil (cs : List Char) (place : Place) : Opened cs place []
  | cons {u v : List Char} {place : Place} {n : Nat} {g : OpenGroup} {gs : List OpenGroup}
    (hu : Opened u .plain gs) (hplain : EndsAt (String.ofList u) .plain)
    (hopened : g.opened = (String.ofList u).utf8ByteSize)
    (hv : Outline.start.after v = some ⟨place, n, 0⟩) : Opened (u ++ '(' :: v) place (g :: gs)

theorem endsAt_plain (h : (start 0).readAll cs = .ok p) (hm : p.mode.isSettleable = true) :
    EndsAt (String.ofList cs) .plain :=
  isSettleable_iff_place.1 hm ▸ endsAt_of_readAll h

/-- A parenthesis that closes the innermost group belongs to the one that opened it. -/
theorem Opened.close {g : OpenGroup} {gs : List OpenGroup} (h : Opened cs .plain (g :: gs)) :
    Opened (cs ++ [')']) .plain gs := by
  cases h with
  | @cons u v _ n _ _ hu hplain hopened hv =>
    cases hu with
    | nil => exact .nil _ _
    | @cons u' v' _ n' g' gs' hu' hplain' hopened' hv' =>
      have hafter : Outline.start.after (v' ++ '(' :: (v ++ [')'])) =
          some ⟨.plain, n' + 1 + n, 0⟩ := by
        have hinside := Outline.after_inside hv (n' + 1) 1
        rw [Outline.after_append, hv', Option.bind_some, Outline.after_cons]
        show (Outline.start.inside (n' + 1) 1).after (v ++ [')']) = _
        rw [Outline.after_append, hinside]
        rfl
      have htext : u' ++ '(' :: v' ++ '(' :: v ++ [')'] =
          u' ++ '(' :: (v' ++ '(' :: (v ++ [')'])) := by
        simp
      rw [htext]
      exact .cons hu' hplain' hopened' hafter

/-- A character that is no parenthesis of a group changes nothing around it. -/
theorem Opened.inside {o o' : Outline} {gs : List OpenGroup} (h : Opened cs o.place gs)
    (hnext : o.next c = some o') (hdepth : o'.depth = o.depth) :
    Opened (cs ++ [c]) o'.place gs := by
  cases h with
  | nil => exact .nil _ _
  | @cons u v _ n g gs hu hplain hopened hv =>
    have hafter : Outline.start.after (v ++ [c]) = some ⟨o'.place, n, 0⟩ := by
      rw [Outline.after_append, hv, Option.bind_some, Outline.after_singleton,
        Outline.next_of_depth_eq hnext hdepth]
    rw [List.append_assoc, List.cons_append]
    exact .cons hu hplain hopened hafter

/-- **Open groups.**  The offsets that are kept are those of the parentheses of the open groups. -/
theorem opened_of_readAll (h : (start 0).readAll cs = .ok p) :
    Opened cs p.mode.place p.enclosing := by
  refine readAll_induction (motive := fun cs p => Opened cs p.mode.place p.enclosing)
    (.nil _ _) ?_ h
  intro u c p q hu hq hchange ih
  cases hchange with
  | opens hm hc hmode henclosing =>
    rw [isSettleable_iff_place.1 hm] at ih
    rw [hc, hmode, henclosing]
    exact .cons ih (endsAt_plain hu hm) (offset_of_start hu) rfl
  | closes hm hc hmode hitems henclosing =>
    rw [isSettleable_iff_place.1 hm, henclosing] at ih
    rw [hc, hmode]
    exact ih.close
  | inside henclosing =>
    rw [henclosing]
    have hnext : p.outline.next c = some q.outline := by
      have hafter := after_outline begun_start hq
      rwa [Outline.after_append, after_outline begun_start hu, Option.bind_some,
        Outline.after_singleton] at hafter
    exact Opened.inside (o := p.outline) ih hnext (congrArg List.length henclosing)

/-! ## The bracket of an open class -/

/-- A class is open after some characters: it begins with a bracket at byte offset `opened`, and
everything after the bracket is in the class. -/
def ClassOpen (cs : List Char) (opened : Nat) : Prop :=
  ∃ u v, cs = u ++ '[' :: v ∧ EndsAt (String.ofList u) .plain ∧
    opened = (String.ofList u).utf8ByteSize ∧
    ∀ part, part <+: v →
      ∃ place, EndsAt (String.ofList (u ++ '[' :: part)) place ∧ place.isClass = true

theorem ClassOpen.concat {opened : Nat} {place : Place} (h : ClassOpen cs opened)
    (hplace : EndsAt (String.ofList (cs ++ [c])) place) (hclass : place.isClass = true) :
    ClassOpen (cs ++ [c]) opened := by
  obtain ⟨u, v, rfl, hplain, hopened, hinside⟩ := h
  rw [List.append_assoc, List.cons_append] at hplace ⊢
  refine ⟨u, v ++ [c], rfl, hplain, hopened, fun part hpart => ?_⟩
  rcases List.prefix_concat_iff.1 hpart with rfl | hpart
  · exact ⟨place, hplace, hclass⟩
  · exact hinside part hpart

theorem isClass_place (k : OpenClass) : k.place.isClass = true := by
  unfold OpenClass.place
  cases k.mode with
  | member =>
    simp only
    split <;> rfl
  | _ => rfl

/-- **Open classes.**  The offset that is kept is that of the bracket of the class. -/
theorem classOpen_of_readAll (h : (start 0).readAll cs = .ok p) :
    ∀ k, p.mode = .charClass k → ClassOpen cs k.opened := by
  refine readAll_induction
    (motive := fun cs p => ∀ k, p.mode = .charClass k → ClassOpen cs k.opened) nofun ?_ h
  intro u c p q hu hq hchange ih k hk
  have hplace : EndsAt (String.ofList (u ++ [c])) k.place := by
    have hends := endsAt_of_readAll hq
    rwa [hk] at hends
  have hturn := hchange.turn (by rw [hk]; nofun)
  rw [hk] at hturn
  cases hturn with
  | bracket hm hc =>
    refine ⟨u, [], by rw [hc], endsAt_plain hu hm, offset_of_start hu, fun part hpart => ?_⟩
    rw [List.prefix_nil.1 hpart, ← hc]
    exact ⟨_, hplace, isClass_place _⟩
  | @member k' _ hm hchange =>
    have hopened : k.opened = k'.opened := by cases hchange <;> rfl
    rw [hopened]
    exact (ih k' hm).concat hplace (isClass_place k)

/-! ## The brace of bounds -/

theorem itemEnds_of_readAll (h : (start 0).readAll cs = .ok p) (hm : p.mode.isSettleable = true)
    (hitems : p.settle.level.items ≠ []) : ItemEnds (String.ofList cs) := by
  refine ⟨endsAt_plain h hm, fun hbegins => hitems ?_⟩
  obtain ⟨hitem, hnil⟩ := atBranch_of_readAll hbegins (by rwa [String.toList_ofList])
  rw [settle_of_item hitem]
  exact hnil

/-- **Open braces.**  The offset that is kept is that of the brace, and what has been read since is
the text of the bounds. -/
theorem bounds_of_readAll (h : (start 0).readAll cs = .ok p) :
    ∀ b, p.mode = .braces b → b.Digits ∧ ∃ u, cs = u ++ b.text ∧ ItemEnds (String.ofList u) ∧
      b.opened = (String.ofList u).utf8ByteSize := by
  refine readAll_induction (motive := fun cs p => ∀ b, p.mode = .braces b → b.Digits ∧
    ∃ u, cs = u ++ b.text ∧ ItemEnds (String.ofList u) ∧
      b.opened = (String.ofList u).utf8ByteSize) nofun ?_ h
  intro u c p q hu hq hchange ih b hb
  have hturn := hchange.turn (by rw [hb]; nofun)
  rw [hb] at hturn
  cases hturn with
  | brace hm hc hitems =>
    exact ⟨Braces.digits_start _, u, by rw [hc]; rfl, itemEnds_of_readAll hu hm hitems,
      offset_of_start hu⟩
  | @braces b' _ hm hpush =>
    obtain ⟨hdigits, v, rfl, hends, hopened⟩ := ih b' hm
    obtain ⟨htext, hsame, -, hkeeps⟩ := Braces.of_push? hpush
    refine ⟨hkeeps hdigits, v, ?_, hends, hsame.trans hopened⟩
    rw [htext, List.append_assoc]

/-! ## The dash of a range -/

theorem place_of_beginsMember {k : OpenClass} (h : k.BeginsMember) : k.place.isEscaped = false := by
  unfold OpenClass.place
  rcases h with h | h
  · rw [h]
    rfl
  · rw [h]
    simp only
    split <;> rfl

/-- A class that goes on is one that has begun. -/
theorem endsAt_class {k : OpenClass} (h : (start 0).readAll cs = .ok p)
    (hm : p.mode = .charClass k) : EndsAt (String.ofList cs) k.place ∧ k.Begun := by
  have hplace := endsAt_of_readAll h
  have hbegun := begun_start.readAll h
  rw [Begun, hm] at hbegun
  rw [hm] at hplace
  exact ⟨hplace, hbegun⟩

/-- What the last character has done to a class that is open. -/
theorem exists_classChange_of_readAll {k : OpenClass} (h : (start 0).readAll cs = .ok p)
    (hm : p.mode = .charClass k) :
    (∃ n, k = .start n) ∨ ∃ u c q k', cs = u ++ [c] ∧ (start 0).readAll u = .ok q ∧
      q.mode = .charClass k' ∧ k'.Change q.offset c k := by
  rcases exists_change_of_readAll h with ⟨-, rfl⟩ | ⟨u, c, q, rfl, hu, hchange⟩
  · cases hm
  · have hturn := hchange.turn (by rw [hm]; nofun)
    rw [hm] at hturn
    cases hturn with
    | bracket => exact .inl ⟨_, rfl⟩
    | member hq hchange => exact .inr ⟨u, c, q, _, rfl, hu, hq, hchange⟩

/-- After a backslash in a class the offset that is kept is that of the backslash. -/
theorem slash_of_readAll {k : OpenClass} {slash : Nat} {range : Option RangeStart}
    (h : (start 0).readAll cs = .ok p) (hm : p.mode = .charClass k)
    (hk : k.mode = .escape slash range) :
    ∃ u q k', cs = u ++ ['\\'] ∧ (start 0).readAll u = .ok q ∧ q.mode = .charClass k' ∧
      slash = (String.ofList u).utf8ByteSize ∧ k'.place.isEscaped = false ∧
      ∀ r ∈ range, k'.mode = .range r := by
  rcases exists_classChange_of_readAll h hm with ⟨n, rfl⟩ | ⟨u, c, q, k', rfl, hu, hq, hchange⟩
  · cases hk
  · refine ⟨u, q, k', ?_⟩
    rw [← offset_of_start hu]
    cases hchange with
    | slash hbegins hc =>
      cases hk
      exact ⟨by rw [hc], hu, hq, rfl, place_of_beginsMember hbegins, nofun⟩
    | rangeSlash hrange hc =>
      cases hk
      refine ⟨by rw [hc], hu, hq, rfl, ?_, by rintro _ ⟨⟩; exact hrange⟩
      rw [OpenClass.place, hrange]
      rfl
    | _ => cases hk

/-- The characters end with the literal `c` of a class. -/
def EndsWithLiteral (cs : List Char) (c : Char) : Prop :=
  ∃ u x place, cs = u ++ x ∧ ClassLiteral (String.ofList x) c ∧ EndsAt (String.ofList u) place ∧
    place.isClass = true ∧ place.isEscaped = false

theorem eq_of_ofEscape_eq_char {d : Char} (h : Atom.ofEscape c = .char d) :
    c = d ∧ Metachar.ofLetter? c = none := by
  unfold Atom.ofEscape at h
  split at h
  · cases h
  · next hletter =>
    cases h
    exact ⟨rfl, hletter⟩

/-- Where the latest member of a class is a literal, the text ends with this literal. -/
theorem endsWithLiteral_of_readAll {k : OpenClass} {first : Char} {members : List Atom}
    (h : (start 0).readAll cs = .ok p) (hm : p.mode = .charClass k) (hk : k.mode = .member)
    (hfirst : k.members = .char first :: members) : EndsWithLiteral cs first := by
  rcases exists_classChange_of_readAll h hm with ⟨n, rfl⟩ | ⟨u, c, q, k', rfl, hu, hq, hchange⟩
  · cases hk
  · obtain ⟨hplace, hbegun⟩ := endsAt_class hu hq
    cases hchange with
    | negate hopening =>
      rw [OpenClass.Begun, hopening] at hbegun
      exact absurd (hfirst.symm.trans hbegun) (List.cons_ne_nil _ _)
    | literal hbegins hc =>
      cases hfirst
      exact ⟨u, [first], _, rfl, classLiteral_bare hc, hplace, isClass_place k',
        place_of_beginsMember hbegins⟩
    | escaped hslash =>
      obtain ⟨rfl, hletter⟩ := eq_of_ofEscape_eq_char (List.cons.inj hfirst).1
      obtain ⟨v, r, k'', rfl, hv, hr, -, hescaped, -⟩ := slash_of_readAll hu hq hslash
      exact ⟨v, ['\\', c], _, List.append_assoc _ _ _, classLiteral_escaped hletter,
        (endsAt_class hv hr).1, isClass_place k'', hescaped⟩
    | range => cases hfirst
    | metachar => cases hfirst
    | _ => cases hk

/-- **Ranges.**  After the dash of a range the offset that is kept is that of the dash, which comes
after the first literal of the range. -/
theorem dash_of_readAll {k : OpenClass} {range : RangeStart} (h : (start 0).readAll cs = .ok p)
    (hm : p.mode = .charClass k) (hk : k.mode = .range range) :
    ∃ u, cs = u ++ ['-'] ∧ range.dash = (String.ofList u).utf8ByteSize ∧
      EndsWithLiteral u range.first ∧ EndsAt (String.ofList u) .inClass := by
  rcases exists_classChange_of_readAll h hm with ⟨n, rfl⟩ | ⟨u, c, q, k', rfl, hu, hq, hchange⟩
  · cases hk
  · obtain ⟨hplace, hbegun⟩ := endsAt_class hu hq
    cases hchange with
    | dash hbegins hc hfirst =>
      cases hk
      have hmember : k'.mode = .member := by
        refine hbegins.resolve_left fun hopening => ?_
        rw [OpenClass.Begun, hopening] at hbegun
        exact List.cons_ne_nil _ _ (hfirst.symm.trans hbegun)
      have hin : k'.place = .inClass := by
        rw [OpenClass.place, hmember]
        exact if_neg (by rw [hfirst]; exact List.cons_ne_nil _ _)
      rw [hin] at hplace
      exact ⟨u, by rw [hc], offset_of_start hu, endsWithLiteral_of_readAll hu hq hmember hfirst,
        hplace⟩
    | _ => cases hk

/-! ## What is wrong -/

theorem ofList_append_cons (u : List Char) (c : Char) (v : List Char) :
    String.ofList (u ++ c :: v) = String.ofList u ++ String.singleton c ++ String.ofList v := by
  rw [String.ofList_append, String.ofList_cons, String.append_assoc]

/-- The ends of a range in the wrong order. -/
theorem pointsInto_of_range {u y v : List Char} {first last : Char} (hu : EndsWithLiteral u first)
    (hdash : EndsAt (String.ofList u) .inClass) (hy : ClassLiteral (String.ofList y) last)
    (hclose : y ≠ [']']) (hlt : last < first) :
    (PatternError.invalidRange first last (String.ofList u).utf8ByteSize).PointsInto
      (String.ofList (u ++ ['-'] ++ y ++ v)) := by
  obtain ⟨w, x, place, rfl, hx, hplace, hclass, hescaped⟩ := hu
  have htext : String.ofList (w ++ x ++ ['-'] ++ y ++ v) =
      String.ofList w ++ String.ofList x ++ "-" ++ String.ofList y ++ String.ofList v := by
    simp only [String.ofList_append]
  have hleft : String.ofList (w ++ x) = String.ofList w ++ String.ofList x := String.ofList_append
  rw [hleft] at hdash ⊢
  refine .invalidRange htext hplace hclass hescaped hx hdash hy (fun h => hclose ?_) hlt
  rw [← String.toList_ofList (l := y), h]
  rfl

/-- A character that is refused is what the error points at, or it completes that. -/
theorem pointsInto_of_fault {u : List Char} (hu : (start 0).readAll u = .ok p) (h : p.Fault c e)
    (v : List Char) : e.PointsInto (String.ofList (u ++ c :: v)) := by
  have htext := ofList_append_cons u c v
  cases h with
  | unmatched hm hc henclosing =>
    rw [offset_of_start hu]
    rw [hc] at htext ⊢
    exact .unmatchedParen htext (Regex.parse_of_readAll hu hm henclosing)
  | operand hm hc hitems =>
    rw [offset_of_start hu]
    exact .nothingToRepeat htext hc (branchBegins_of_readAll hu hm hitems)
  | @bounds b least most hm hc hb hlt =>
    obtain ⟨hdigits, w, rfl, hends, hopened⟩ := bounds_of_readAll hu b hm
    rw [hopened]
    rcases Braces.forms_of_bounds? hdigits hb with hspells | ⟨n, hn, hwrong⟩
    · exact absurd hspells.le (Nat.not_le_of_lt hlt)
    · cases hn
      have htext : String.ofList (w ++ b.text ++ c :: v) =
          String.ofList w ++ String.ofList (b.text ++ ['}']) ++ String.ofList v := by
        rw [← String.ofList_append, ← String.ofList_append, hc]
        simp
      exact .invalidBounds htext hends hwrong
  | @range k range hm hlast hlt =>
    rcases hlast with ⟨hk, hbracket, hescape⟩ | ⟨⟨slash, hk⟩, hletter⟩
    · obtain ⟨w, rfl, hdash, hleft, hin⟩ := dash_of_readAll hu hm hk
      rw [hdash]
      have hpoints := pointsInto_of_range (v := v) hleft hin (classLiteral_bare hescape)
        (by simpa using hbracket) hlt
      rwa [List.append_assoc] at hpoints
    · obtain ⟨w, q, k', rfl, hw, hq, -, -, hrange⟩ := slash_of_readAll hu hm hk
      obtain ⟨w, rfl, hdash, hleft, hin⟩ := dash_of_readAll hw hq (hrange range rfl)
      rw [hdash]
      have hpoints := pointsInto_of_range (v := v) hleft hin (classLiteral_escaped hletter)
        (by simp) hlt
      simpa using hpoints

/-- Where the pattern must not end, the error points at what is not complete. -/
theorem pointsInto_of_unfinished (h : (start 0).readAll cs = .ok p) (hp : p.Unfinished e) :
    e.PointsInto (String.ofList cs) := by
  cases hp with
  | @escape offset hm =>
    rcases exists_change_of_readAll h with ⟨-, rfl⟩ | ⟨u, c, q, rfl, hu, hchange⟩
    · cases hm
    · have hturn := hchange.turn (by rw [hm]; nofun)
      rw [hm] at hturn
      cases hturn with
      | escape hq hc =>
        rw [offset_of_start hu, hc, String.ofList_append]
        exact .unterminatedEscape rfl (endsAt_plain hu hq) rfl
  | @classEscape k offset range hm hk =>
    obtain ⟨u, q, k', rfl, hu, hq, rfl, hescaped, -⟩ := slash_of_readAll h hm hk
    rw [String.ofList_append]
    exact .unterminatedEscape rfl (endsAt_class hu hq).1 hescaped
  | @charClass k hm =>
    obtain ⟨u, v, rfl, hplain, hopened, hinside⟩ := classOpen_of_readAll h k hm
    rw [hopened]
    refine .unclosedClass (ofList_append_cons u '[' v) hplain fun part more hpart => ?_
    obtain ⟨place, hplace, hclass⟩ := hinside part.toList ⟨more.toList, by
      rw [← String.toList_append, ← hpart, String.toList_ofList]⟩
    rw [ofList_append_cons, String.ofList_toList] at hplace
    exact ⟨place, hplace, hclass⟩
  | @group g gs hm henclosing =>
    have hopened := opened_of_readAll h
    rw [henclosing, isSettleable_iff_place.1 hm] at hopened
    cases hopened with
    | @cons u v _ n _ _ _ hplain hg hv =>
      have hinside : ofText (String.ofList v) = some ⟨.plain, n, 0⟩ := by
        rw [ofText, String.toList_ofList, hv]
      rw [hg]
      exact .unclosedGroup (ofList_append_cons u '(' v) hplain hinside

end Parser

namespace Regex

/-- **Errors point at what is wrong.**  The error of a pattern that is refused says what stands at
the offset that it names, and this is the offset of a character of the pattern. -/
theorem pointsInto_of_parse {text : String} {e : PatternError} (h : parse text = .error e) :
    e.PointsInto text ∧ ∃ offset, e.offset? = some offset ∧ Text.isBoundary text offset = true ∧
      offset < text.utf8ByteSize := by
  have hpoints : e.PointsInto text := by
    rw [← String.ofList_toList (s := text)]
    rw [parse, parseAt] at h
    cases hread : (Parser.start 0).readAll text.toList with
    | error e' =>
      rw [hread] at h
      cases h
      obtain ⟨u, c, v, q, htext, hu, hfault⟩ := Parser.exists_fault_of_readAll hread
      rw [htext]
      exact Parser.pointsInto_of_fault hu hfault v
    | ok p =>
      rw [hread] at h
      exact Parser.pointsInto_of_unfinished hread (Parser.unfinished_of_finish h)
  exact ⟨hpoints, hpoints.isBoundary⟩

/-- A group that is open after others have been closed in it and before it, and a range of two
escaped literals: before each of them stands a character of two bytes. -/
theorem pointsInto_of_parse_nested :
    parse "é(x)(b(c)[)]" = .error (.unclosedGroup 5) ∧
      (PatternError.unclosedGroup 5).PointsInto "é(x)(b(c)[)]" ∧
    parse "(|[é\\y-\\-]*" = .error (.invalidRange 'y' '-' 7) ∧
      (PatternError.invalidRange 'y' '-' 7).PointsInto "(|[é\\y-\\-]*" ∧
      Text.isBoundary "(|[é\\y-\\-]*" 7 = true := by
  have hgroup : parse "é(x)(b(c)[)]" = .error (.unclosedGroup 5) := rfl
  have hrange : parse "(|[é\\y-\\-]*" = .error (.invalidRange 'y' '-' 7) := rfl
  obtain ⟨hpoints, offset, hoffset, hboundary, -⟩ := pointsInto_of_parse hrange
  cases hoffset
  exact ⟨hgroup, (pointsInto_of_parse hgroup).1, hrange, hpoints, hboundary⟩

end Regex

end Backtrack
