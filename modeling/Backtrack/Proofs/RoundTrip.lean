import Backtrack.Pattern
import Backtrack.Proofs.Pieces
import Backtrack.Proofs.Reading

/-!
# Writing and reading are inverse

A well-formed tree is read back from its pattern text (`Regex.parse_toPattern`), and
reading gives nothing but well-formed trees (`Regex.wellFormed_of_parse`).  So the trees
that can be read are those that are well formed, each of them can be told from its text,
and a pattern that is read, written and read again stays what it is.

The proof follows the tree:

    a group and a repetition are read as one item      (readsItem_group, readsItem_repeated)
    items in a row are read one after the other        (leadsTo_items)
    branches are read one after the other              (leadsTo_branches)
    a body is read as that body                        (readsBody_seq, readsBody_alt)

Groups are numbered as they open, so that the slots in a tree must be those that the
parser will give (`List.range' p.groups`).
-/

namespace Backtrack

open Regex (isItem isBody areItems areBranches isClass slotsOf)

namespace Regex

/-- The text of an item is not empty and does not begin with a question mark. -/
theorem render_eq_cons {t : Regex} (h : isItem t = true) :
    ∃ c cs, t.render = c :: cs ∧ c ≠ '?' := by
  induction t with
  | atom a =>
    cases a with
    | char c =>
      simp only [render, Atom.render, escapedIn]
      by_cases hc : c ∈ specials
      · exact ⟨'\\', [c], if_pos hc, by decide⟩
      · exact ⟨c, [], if_neg hc, fun h => hc (by rw [h]; decide)⟩
    | range first last => cases h
    | dot => exact ⟨'.', [], rfl, by decide⟩
    | metachar m => exact ⟨'\\', [m.letter], rfl, by decide⟩
    | lineStart => exact ⟨'^', [], rfl, by decide⟩
    | lineEnd => exact ⟨'$', [], rfl, by decide⟩
  | seq items => cases h
  | alt branches => cases h
  | charClass members => exact ⟨'[', _, by rw [render]; rfl, by decide⟩
  | negation body =>
    cases body with
    | charClass members => exact ⟨'[', _, by rw [render]; rfl, by decide⟩
    | _ => cases h
  | group slot body => exact ⟨'(', _, by rw [render]; rfl, by decide⟩
  | repeated body count ih =>
    rw [isItem, Bool.and_eq_true] at h
    obtain ⟨c, cs, hcs, hc⟩ := ih h.1
    exact ⟨c, cs ++ count.render body.isRepeated, by rw [render, hcs]; rfl, hc⟩

theorem head?_renderSeq {ts : List Regex} (h : areItems ts = true) :
    (renderSeq ts).head? ≠ some '?' := by
  cases ts with
  | nil => simp [renderSeq]
  | cons t rest =>
    rw [areItems, Bool.and_eq_true] at h
    obtain ⟨c, cs, hcs, hc⟩ := render_eq_cons h.1
    rw [renderSeq, hcs]
    simpa using hc

end Regex

namespace Parser

/-- The groups of some trees have been opened. -/
def openGroups (p : Parser) (slots : List Nat) : Parser :=
  { p with groups := p.groups + slots.length }

/-- The slots are those that the next groups get. -/
def Gives (p : Parser) (slots : List Nat) : Prop := slots = List.range' p.groups slots.length

variable {p q : Parser}

theorem Gives.split {xs ys : List Nat} (h : p.Gives (xs ++ ys)) :
    p.Gives xs ∧ (p.openGroups xs).Gives ys := by
  unfold Gives at h
  rw [List.length_append, ← List.range'_append_1] at h
  exact List.append_inj h (by rw [List.length_range'])

/-! ## Items -/

/-- An item is read as one more item, after which a quantifier is pending at most if the
item is itself repeated. -/
def ReadsItem (t : Regex) : Prop :=
  ∀ p : Parser, p.mode = .item → p.Gives t.slots →
    p.LeadsTo t.render ((p.openGroups t.slots).push t) ∧
    (t.isRepeated = false → p.ReadsTo t.render ((p.openGroups t.slots).push t))

/-- A body is read as a level that closes to that body. -/
def ReadsBody (t : Regex) : Prop :=
  ∀ p : Parser, p.mode = .item → p.level = .empty → p.Gives t.slots →
    ∃ level, level.close = t ∧
      p.LeadsTo t.render { p.openGroups t.slots with level, mode := .item }

theorem readsItem_of_readsTo {t : Regex} (hslots : t.slots = [])
    (h : ∀ p : Parser, p.mode = .item → p.ReadsTo t.render (p.push t)) : ReadsItem t := by
  intro p hm _
  rw [hslots]
  exact ⟨(h p hm).leadsTo rfl, fun _ => h p hm⟩

/-- The parser inside a group that has just been opened. -/
def inGroup (p : Parser) : Parser :=
  { p with
    groups := p.groups + 1
    enclosing := ⟨p.offset, p.groups, p.level⟩ :: p.enclosing
    level := .empty }

theorem readsTo_openGroup (hm : p.mode = .item) : p.ReadsTo ['('] p.inGroup :=
  readsTo_of_readInPlace (readInPlace_item hm _)

theorem readsTo_closeGroup (hm : p.mode = .item) {g : OpenGroup} {enclosing : List OpenGroup}
    (h : p.enclosing = g :: enclosing) :
    p.ReadsTo [')']
      ({ p with enclosing, level := g.outer }.push (.group g.slot p.level.close)) := by
  refine readsTo_of_readInPlace (n := p.offset) ?_
  rw [readInPlace_item hm]
  simp only [readItem, closeGroup, h]
  rfl

/-- What is read inside parentheses is read as a group. -/
theorem readsItem_group {slot : Nat} {body : Regex} (ih : ReadsBody body) :
    ReadsItem (.group slot body) := by
  intro p hm hslots
  obtain ⟨rfl, hbody⟩ : slot = p.groups ∧ p.inGroup.Gives body.slots := by
    simpa [Gives, inGroup, Regex.slots, List.range'_succ] using hslots
  have hgroups : p.openGroups (Regex.slots (.group p.groups body)) =
      { p with groups := p.groups + 1 }.openGroups body.slots := by
    simp only [openGroups, Regex.slots, List.length_cons, Nat.add_assoc, Nat.add_comm 1]
  have hread : p.ReadsTo (Regex.render (.group p.groups body))
      ((p.openGroups (Regex.slots (.group p.groups body))).push (.group p.groups body)) := by
    rw [Regex.render, hgroups]
    refine (readsTo_openGroup hm).append fun offset => ?_
    obtain ⟨level, hclose, hlevel⟩ := ih { p.inGroup with offset } hm rfl hbody
    refine hlevel.append_readsTo (by decide) fun offset' => ?_
    have h := readsTo_closeGroup
      (p := { p.inGroup.openGroups body.slots with offset := offset', level, mode := .item })
      rfl rfl
    rw [hclose] at h
    exact h
  exact ⟨hread.leadsTo rfl, fun _ => hread⟩

/-- A quantifier after an item is read as a repetition of that item. -/
theorem readsItem_repeated {body : Regex} {count : Quantifier} (ih : ReadsItem body)
    (hcount : count.isWritable = true) : ReadsItem (.repeated body count) := by
  intro p hm hslots
  obtain ⟨hlead, hread⟩ := ih p hm hslots
  have hquantifier : ∀ offset, { (p.openGroups body.slots).push body with offset }.LeadsTo
      (count.render body.isRepeated) ((p.openGroups body.slots).push (.repeated body count)) :=
    fun offset => leadsTo_quantifier rfl (by simp [push, Level.push]) _ hcount
  refine ⟨?_, fun h => by cases h⟩
  rw [Regex.render]
  cases hb : body.isRepeated with
  | false =>
    rw [hb] at hquantifier
    exact (hread hb).append_leadsTo hquantifier
  | true =>
    rw [hb] at hquantifier
    exact hlead.append (head?_render_stacked count) hquantifier

/-- Items in a row are read one after the other. -/
theorem leadsTo_items {ts : List Regex} (ih : ∀ t ∈ ts, isItem t = true → ReadsItem t)
    (hts : areItems ts = true) (hm : p.mode = .item) (hslots : p.Gives (slotsOf ts)) :
    p.LeadsTo (Regex.renderSeq ts) { p.openGroups (slotsOf ts) with
      level := { p.level with items := ts.reverse ++ p.level.items }
      mode := .item } := by
  induction ts generalizing p with
  | nil =>
    rw [← hm]
    exact ⟨p.offset, p, rfl, hm, .inl rfl⟩
  | cons t rest ihts =>
    rw [areItems, Bool.and_eq_true] at hts
    obtain ⟨ht, hrest⟩ := hslots.split
    rw [Regex.renderSeq]
    refine (ih t (by simp) hts.1 p hm ht).1.append (Regex.head?_renderSeq hts.2) fun offset => ?_
    have hgroups : p.openGroups (slotsOf (t :: rest)) =
        (p.openGroups t.slots).openGroups (slotsOf rest) := by
      simp only [slotsOf, openGroups, List.length_append, Nat.add_assoc]
    have h := ihts (p := { (p.openGroups t.slots).push t with offset })
      (fun t ht => ih t (by simp [ht])) hts.2 rfl hrest
    rw [hgroups, List.reverse_cons, List.append_assoc]
    exact h

theorem readsTo_bar (hm : p.mode = .item) :
    p.ReadsTo ['|'] { p with level := p.level.nextBranch } :=
  readsTo_of_readInPlace (readInPlace_item hm _)

/-- Branches are read one after the other; those before them stay. -/
theorem leadsTo_branches {ts : List Regex} (hne : ts ≠ [])
    (ih : ∀ items, .seq items ∈ ts → ∀ u ∈ items, isItem u = true → ReadsItem u)
    (hts : areBranches ts = true) (hm : p.mode = .item) (hitems : p.level.items = [])
    (hslots : p.Gives (slotsOf ts)) :
    ∃ level : Level,
      (.seq level.items.reverse :: level.branches).reverse = p.level.branches.reverse ++ ts ∧
      ∀ offset, { p with offset }.LeadsTo (Regex.renderAlt ts)
        { p.openGroups (slotsOf ts) with level, mode := .item } := by
  induction ts generalizing p with
  | nil => exact absurd rfl hne
  | cons t rest ihts =>
    obtain ⟨items, rfl, hitem⟩ := Regex.areBranches_iff.1 hts t (by simp)
    have hfirst : ∀ offset, { p with offset }.LeadsTo (Regex.renderSeq items)
        { p.openGroups (slotsOf items) with
          level := ⟨p.level.branches, items.reverse⟩
          mode := .item } := by
      intro offset
      have h := leadsTo_items (p := { p with offset }) (ih items (by simp)) hitem hm hslots.split.1
      rw [hitems, List.append_nil] at h
      exact h
    cases rest with
    | nil =>
      refine ⟨⟨p.level.branches, items.reverse⟩, by simp, ?_⟩
      rw [Regex.renderAlt, Regex.render, slotsOf, slotsOf, List.append_nil]
      exact hfirst
    | cons u rest =>
      have hgroups : p.openGroups (slotsOf (.seq items :: u :: rest)) =
          (p.openGroups (slotsOf items)).openGroups (slotsOf (u :: rest)) := by
        rw [slotsOf, Regex.slots]
        simp only [openGroups, List.length_append, Nat.add_assoc]
      rw [areBranches] at hts
      obtain ⟨level, hlevel, hrest⟩ := ihts (p := { p.openGroups (slotsOf items) with
          level := ⟨.seq items :: p.level.branches, []⟩
          mode := .item }) (List.cons_ne_nil u rest) (fun items h => ih items (by simp [h]))
        (Bool.and_eq_true_iff.1 hts).2 rfl rfl hslots.split.2
      refine ⟨level, by rw [hlevel]; simp, fun offset => ?_⟩
      rw [Regex.renderAlt, Regex.render, hgroups]
      refine (hfirst offset).append (by simp) fun offset' => ?_
      have hbar := readsTo_bar (p := { p.openGroups (slotsOf items) with
        offset := offset'
        level := ⟨p.level.branches, items.reverse⟩
        mode := .item }) rfl
      rw [Level.nextBranch, List.reverse_reverse] at hbar
      exact hbar.append_leadsTo hrest

/-! ## Trees -/

theorem slotsOf_class {members : List Regex} (h : isClass members = true) :
    slotsOf members = [] := by
  obtain ⟨-, atoms, rfl, -⟩ := Regex.isClass_iff.1 h
  exact Regex.slotsOf_atoms atoms

theorem readsBody_seq {items : List Regex} (ih : ∀ t ∈ items, isItem t = true → ReadsItem t)
    (hitems : areItems items = true) : ReadsBody (.seq items) := by
  intro p hm hlevel hslots
  have h := leadsTo_items ih hitems hm hslots
  refine ⟨⟨[], items.reverse⟩, by simp [Level.close], ?_⟩
  rw [hlevel, Level.empty, List.append_nil] at h
  rw [Regex.render]
  exact h

theorem readsBody_alt {branches : List Regex}
    (ih : ∀ items, .seq items ∈ branches → ∀ u ∈ items, isItem u = true → ReadsItem u)
    (h2 : 2 ≤ branches.length) (hbranches : areBranches branches = true) :
    ReadsBody (.alt branches) := by
  intro p hm hlevel hslots
  obtain ⟨level, hclose, hlead⟩ :=
    leadsTo_branches (by rintro rfl; cases h2) ih hbranches hm (by rw [hlevel]; rfl) hslots
  refine ⟨level, ?_, ?_⟩
  · rw [hlevel] at hclose
    unfold Level.close
    have hne : level.branches ≠ [] := by
      intro h
      have := congrArg List.length hclose
      simp [h, Level.empty] at this
      omega
    split
    · contradiction
    · rw [hclose]
      rfl
  · rw [Regex.render]
    exact hlead p.offset

/-- Tree `t` is read back, be it an item or a body.  A branch is neither of them alone: of
it, the same is known of its items. -/
structure ReadsBack (t : Regex) : Prop where
  item : isItem t = true → ReadsItem t
  body : isBody t = true → ReadsBody t
  branch : ∀ items, t = .seq items → ∀ u ∈ items, isItem u = true → ReadsItem u

theorem readsBack (t : Regex) : ReadsBack t := by
  induction t with
  | atom a =>
    refine { item := fun h => ?_, body := fun h => (by cases h), branch := fun _ h => (by cases h) }
    refine readsItem_of_readsTo rfl fun p hm => ?_
    rw [Regex.render]
    exact readsTo_atom hm h
  | seq items ih =>
    refine { item := fun h => (by cases h), body := ?_, branch := ?_ }
    · exact readsBody_seq fun t ht => (ih t ht).item
    · rintro _ ⟨⟩ u hu
      exact (ih u hu).item
  | alt branches ih =>
    refine { item := fun h => (by cases h), body := fun h => ?_, branch := fun _ h => (by cases h) }
    rw [isBody, Bool.and_eq_true, decide_eq_true_eq] at h
    exact readsBody_alt (fun items hitems => (ih _ hitems).branch items rfl) h.1 h.2
  | charClass members =>
    refine { item := fun h => ?_, body := fun h => (by cases h), branch := fun _ h => (by cases h) }
    exact readsItem_of_readsTo (slotsOf_class h) fun p hm => readsTo_class hm h
  | negation body =>
    refine { item := fun h => ?_, body := fun h => (by cases h), branch := fun _ h => (by cases h) }
    cases body with
    | charClass members =>
      exact readsItem_of_readsTo (slotsOf_class h) fun p hm => readsTo_negatedClass hm h
    | _ => cases h
  | group slot body ih =>
    refine { item := fun h => ?_, body := fun h => (by cases h), branch := fun _ h => (by cases h) }
    exact readsItem_group (ih.body h)
  | repeated body count ih =>
    refine { item := fun h => ?_, body := fun h => (by cases h), branch := fun _ h => (by cases h) }
    rw [isItem, Bool.and_eq_true] at h
    exact readsItem_repeated (ih.item h.1) h.2

end Parser

namespace Regex

/-- A well-formed tree is read back from its pattern text. -/
theorem parse_toPattern {t : Regex} {groups : Nat} (h : t.WellFormed groups) :
    parse t.toPattern = .ok ⟨t, groups⟩ := by
  have hgives : (Parser.start 0).Gives t.slots := by
    rw [Parser.Gives, h.slots, List.length_range, List.range_eq_range']
    rfl
  obtain ⟨level, hclose, offset, p, hread, hp⟩ :=
    (Parser.readsBack t).body h.body (Parser.start 0) rfl rfl hgives
  unfold parse toPattern parseAt
  rw [String.toList_ofList, hread]
  have hgroups : 0 + t.slots.length = groups := by
    rw [h.slots, List.length_range, Nat.zero_add]
  refine (hp.finish_eq rfl).trans ?_
  show Except.ok (Parsed.mk level.close (0 + t.slots.length)) = _
  rw [hclose, hgroups]

/-- Trees that can be read can be told apart by their texts. -/
theorem toPattern_inj {s t : Regex} {m n : Nat} (hs : s.WellFormed m) (ht : t.WellFormed n) :
    s.toPattern = t.toPattern ↔ s = t := by
  constructor
  · intro h
    have hparse := parse_toPattern hs
    rw [h, parse_toPattern ht] at hparse
    cases hparse
    rfl
  · rintro rfl
    rfl

/-- **Reading and writing.**  Exactly the well-formed trees can be read.  Each of them is
read back from its text, with its groups numbered from 1 on, so that a pattern that is
read and written anew reads the same; and patterns are equal exactly if their trees are. -/
theorem parse_inverse :
    (∀ t groups, (∃ text, parse text = .ok ⟨t, groups⟩) ↔ t.WellFormed groups) ∧
    (∀ t groups, t.WellFormed groups → parse t.toPattern = .ok ⟨t, groups⟩ ∧
      (Parsed.captures ⟨t, groups⟩).map Capture.number = List.range' 1 groups) ∧
    (∀ text parsed, parse text = .ok parsed → parse parsed.root.toPattern = parse text) ∧
    (∀ text text' p q, Pattern.ofString text = .ok p → Pattern.ofString text' = .ok q →
      ((p == q) = true ↔ p.root = q.root)) := by
  refine ⟨fun t groups => ⟨?_, fun h => ⟨_, parse_toPattern h⟩⟩, fun t groups h => ?_, ?_, ?_⟩
  · rintro ⟨text, h⟩
    exact wellFormed_of_parse h
  · refine ⟨parse_toPattern h, ?_⟩
    rw [Parsed.captures, List.map_map, List.range'_eq_map_range]
    exact List.map_congr_left fun slot _ => Nat.add_comm slot 1
  · intro text parsed h
    rw [h]
    exact parse_toPattern (wellFormed_of_parse h)
  · intro text text' p q hp hq
    obtain ⟨m, hparse, -, hsource, -⟩ := Pattern.ofString_eq_ok_iff.1 hp
    obtain ⟨n, hparse', -, hsource', -⟩ := Pattern.ofString_eq_ok_iff.1 hq
    show (p.source == q.source) = true ↔ _
    rw [beq_iff_eq, hsource, hsource']
    exact toPattern_inj (wellFormed_of_parse hparse) (wellFormed_of_parse hparse')

/-- A lazy quantifier, a class with a bracket in front and a quantifier on top of another
one, written as they can be and as they are; and one pattern written in two ways. -/
theorem parse_inverse_stacked :
    let t := .seq [.repeated (.repeated (.group 0 (.alt [
      .seq [.repeated (.char 'a') ⟨2, none, true⟩],
      .seq [.negation (.charClass [.char ']', .atom (.range 'x' 'z')])]]))
      ⟨0, none, false⟩) ⟨0, some 1, false⟩]
    parse "(a{2,}?|[^]x-z])*{,1}" = .ok ⟨t, 1⟩ ∧ t.WellFormed 1 ∧
      parse t.toPattern = .ok ⟨t, 1⟩ ∧
      ∃ p q, Pattern.ofString "b?" = .ok p ∧ Pattern.ofString "b{0,1}" = .ok q ∧
        (p == q) = true := by
  intro t
  have hparse : parse "(a{2,}?|[^]x-z])*{,1}" = .ok ⟨t, 1⟩ := rfl
  have hwell := (parse_inverse.1 t 1).1 ⟨_, hparse⟩
  have hwritten := (parse_inverse.2.1 t 1 hwell).1
  let u : Regex := .seq [.repeated (.char 'b') ⟨0, some 1, false⟩]
  let p : Pattern := ⟨u.toPattern, u, [], ⟨u.graph 0, u.graph_halts 0⟩⟩
  have hcompile : Program.compile u 0 = .ok p.program := if_neg (by decide)
  have hp : Pattern.ofString "b?" = .ok p :=
    Pattern.ofString_eq_ok_iff.2 ⟨0, rfl, hcompile, rfl, rfl⟩
  have hq : Pattern.ofString "b{0,1}" = .ok p :=
    Pattern.ofString_eq_ok_iff.2 ⟨0, rfl, hcompile, rfl, rfl⟩
  exact ⟨hparse, hwell, hwritten, p, p, hp, hq, (parse_inverse.2.2.2 _ _ p p hp hq).2 rfl⟩

end Regex

end Backtrack
