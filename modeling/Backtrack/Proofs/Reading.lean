import Backtrack.Regex.Parser
import Backtrack.Proofs.WellFormed

/-!
# Whatever is read is well formed

Main statement: `Regex.wellFormed_of_parse`, a pattern that is not refused gives a tree
that is well formed.

`Parser.Sound` is what holds of the parser after any number of characters: all trees read
so far are items or sequences of items, what is pending has something to act on, and the
groups opened so far are numbered in the order in which they were opened.  It holds at the
start, each character keeps it (`Parser.Sound.read`), and at the end it gives the
well-formed tree.
-/

namespace Backtrack

open Regex (isItem areItems isBody isClass)

/-! ## Results and errors -/

theorem map_eq_ok_iff {ε α β : Type} {x : Except ε α} {f : α → β} {b : β} :
    x.map f = .ok b ↔ ∃ a, x = .ok a ∧ f a = b := by
  cases x <;> simp [Except.map]

theorem map_eq_error_iff {ε α β : Type} {x : Except ε α} {f : α → β} {e : ε} :
    x.map f = .error e ↔ x = .error e := by
  cases x <;> simp [Except.map]

theorem bind_eq_ok_iff {ε α β : Type} {x : Except ε α} {f : α → Except ε β} {b : β} :
    x.bind f = .ok b ↔ ∃ a, x = .ok a ∧ f a = .ok b := by
  cases x <;> simp [Except.bind]

/-! ## Classes -/

namespace OpenClass

/-- All members read so far can be members. -/
def Sound (k : OpenClass) : Prop := ∀ a ∈ k.members, a.isMember = true

theorem Sound.push {k : OpenClass} {a : Atom} (h : k.Sound) (ha : a.isMember = true) :
    (k.push a).Sound := by
  intro b hb
  rcases List.mem_cons.1 hb with rfl | hb
  · exact ha
  · exact h b hb

theorem isMember_ofEscape (c : Char) : (Atom.ofEscape c).isMember = true := by
  unfold Atom.ofEscape
  cases Metachar.ofLetter? c <;> rfl

/-- A class with members is an item, and it has no groups. -/
theorem Sound.close {k : OpenClass} (h : k.Sound) (hne : k.members ≠ []) :
    isItem k.close = true ∧ k.close.slots = [] := by
  have hclass : isClass (k.members.reverse.map .atom) = true :=
    Regex.isClass_iff.2 ⟨by simpa using hne, k.members.reverse, rfl, fun a ha =>
      h a (List.mem_reverse.1 ha)⟩
  unfold OpenClass.close
  cases k.negated
  · exact ⟨hclass, Regex.slotsOf_atoms _⟩
  · exact ⟨hclass, Regex.slotsOf_atoms _⟩

end OpenClass

/-- What a character makes of an open class: a class that goes on, or an item. -/
def ClassStep.Sound : ClassStep → Prop
  | .reading k => k.Sound
  | .complete t => isItem t = true ∧ t.slots = []

namespace OpenClass

theorem Sound.pushDash {k : OpenClass} (h : k.Sound) (start : RangeStart) :
    (k.pushDash start).Sound := (h.push rfl).push rfl

theorem Sound.pushRange {k : OpenClass} {start : RangeStart} {last : Char} {s : ClassStep}
    (h : k.Sound) (hs : k.pushRange start last = .ok s) : s.Sound := by
  unfold OpenClass.pushRange at hs
  split at hs
  · cases hs
  · next hle =>
    cases hs
    exact h.push (decide_eq_true (Char.not_lt.1 hle))

theorem Sound.readMember {k : OpenClass} (h : k.Sound) (offset : Nat) (c : Char) :
    (k.readMember offset c).Sound := by
  unfold OpenClass.readMember
  split
  · split
    · exact h.push rfl
    · next hne => exact h.close hne
  · split
    · next first members hm =>
      intro a ha
      exact h a (by rw [hm]; exact List.mem_cons_of_mem _ ha)
    · exact h.push rfl
  · exact h
  · exact h.push rfl

/-- Each character of a class keeps it sound. -/
theorem Sound.read {k : OpenClass} {offset : Nat} {c : Char} {s : ClassStep} (h : k.Sound)
    (hs : k.read offset c = .ok s) : s.Sound := by
  unfold OpenClass.read at hs
  split at hs
  · split at hs
    · cases hs
      exact h
    · cases hs
      exact Sound.readMember (show Sound { k with mode := .member } from h) offset c
  · cases hs
    exact h.readMember offset c
  · next start _ =>
    split at hs
    · cases hs
      exact (h.pushDash start).close (by simp [OpenClass.pushDash, OpenClass.push])
    · cases hs
      exact h
    · exact h.pushRange hs
  · cases hs
    exact h.push (isMember_ofEscape c)
  · next start _ =>
    split at hs
    · cases hs
      exact (h.pushDash start).push rfl
    · exact h.pushRange hs

end OpenClass

/-! ## Quantifiers -/

theorem boundOf?_le {digits : List Char} {n : Nat} (h : boundOf? digits = some n) :
    n ≤ maxBound := by
  simp only [boundOf?] at h
  split at h
  · next hle =>
    cases h
    exact hle
  · cases h

/-- Bounds in braces are not above the greatest bound. -/
theorem Braces.bounds?_le {b : Braces} {least : Nat} {most : Option Nat}
    (h : b.bounds? = some (least, most)) : least ≤ maxBound ∧ ∀ n ∈ most, n ≤ maxBound := by
  unfold bounds? at h
  split at h
  · cases h
  · cases h
  · obtain ⟨n, hn, heq⟩ := Option.map_eq_some_iff.1 h
    cases heq
    exact ⟨Nat.zero_le _, fun m hm => by cases hm; exact boundOf?_le hn⟩
  · obtain ⟨n, hn, heq⟩ := Option.map_eq_some_iff.1 h
    cases heq
    exact ⟨boundOf?_le hn, fun m hm => by cases hm; exact boundOf?_le hn⟩
  · obtain ⟨n, hn, heq⟩ := Option.map_eq_some_iff.1 h
    cases heq
    exact ⟨boundOf?_le hn, fun m hm => by cases hm⟩
  · obtain ⟨m, hm, h⟩ := Option.bind_eq_some_iff.1 h
    obtain ⟨n, hn, heq⟩ := Option.map_eq_some_iff.1 h
    cases heq
    exact ⟨boundOf?_le hm, fun k hk => by cases hk; exact boundOf?_le hn⟩

/-! ## Levels -/

namespace Level

/-- All branches are sequences of items, and so is the current one. -/
structure Sound (l : Level) : Prop where
  branches : Regex.areBranches l.branches = true
  items : areItems l.items = true

/-- The slots of the groups of a level, in the order in which they were opened. -/
def slots (l : Level) : List Nat :=
  Regex.slotsOf l.branches.reverse ++ Regex.slotsOf l.items.reverse

theorem slots_push (l : Level) (t : Regex) : (l.push t).slots = l.slots ++ t.slots := by
  simp [slots, push, Regex.slotsOf_append, Regex.slotsOf]

theorem slots_nextBranch (l : Level) : l.nextBranch.slots = l.slots := by
  simp [slots, nextBranch, Regex.slotsOf_append, Regex.slotsOf, Regex.slots]

theorem slots_repeatLast (l : Level) (count : Quantifier) :
    (l.repeatLast count).slots = l.slots := by
  unfold repeatLast
  split
  · rfl
  · next item items h => simp [slots, h, Regex.slotsOf_append, Regex.slotsOf, Regex.slots]

theorem slots_close (l : Level) : l.close.slots = l.slots := by
  unfold close
  split
  · next h => simp [slots, h, Regex.slots, Regex.slotsOf]
  · next h => simp [slots, Regex.slots, Regex.slotsOf_append, Regex.slotsOf]

theorem Sound.push {l : Level} {t : Regex} (h : l.Sound) (ht : isItem t = true) :
    (l.push t).Sound :=
  ⟨h.branches, by simp only [Level.push, areItems, ht, h.items, Bool.and_self]⟩

theorem areItems_reverse {ts : List Regex} : areItems ts.reverse = areItems ts := by
  rw [Bool.eq_iff_iff, Regex.areItems_iff, Regex.areItems_iff]
  simp

theorem Sound.nextBranch {l : Level} (h : l.Sound) : l.nextBranch.Sound := by
  refine ⟨?_, rfl⟩
  simp only [Level.nextBranch, Regex.areBranches, areItems_reverse, h.items, h.branches,
    Bool.and_self]

theorem Sound.repeatLast {l : Level} {count : Quantifier} (h : l.Sound)
    (hc : count.isWritable = true) : (l.repeatLast count).Sound := by
  unfold Level.repeatLast
  split
  · exact h
  · next item items hl =>
    have hitems := h.items
    rw [hl, areItems, Bool.and_eq_true] at hitems
    refine ⟨h.branches, ?_⟩
    simp only [areItems, isItem, hitems.1, hitems.2, hc, Bool.and_self]

/-- The tree of a level can stand for a whole pattern or in a group. -/
theorem Sound.close {l : Level} (h : l.Sound) : isBody l.close = true := by
  unfold Level.close
  split
  · rw [isBody, areItems_reverse]
    exact h.items
  · next hne =>
    have hlen : l.branches.length ≠ 0 := fun h0 => hne (List.length_eq_zero_iff.1 h0)
    rw [isBody, Bool.and_eq_true, decide_eq_true_eq, Regex.areBranches_iff]
    refine ⟨by simp; omega, fun t ht => ?_⟩
    rcases List.mem_cons.1 (List.mem_reverse.1 ht) with rfl | ht
    · exact ⟨_, rfl, by rw [areItems_reverse]; exact h.items⟩
    · exact Regex.areBranches_iff.1 h.branches t ht

end Level

/-! ## The parser -/

/-- What is pending can be completed, `items` being the items it may act on. -/
def Mode.Sound (items : List Regex) : Mode → Prop
  | .item | .escape _ => True
  | .quantifier least most => items ≠ [] ∧ Quantifier.isWritable ⟨least, most, false⟩ = true
  | .braces _ => items ≠ []
  | .charClass k => k.Sound

namespace Parser

/-- The slots of all groups opened so far, in the order in which they were opened. -/
def slots (p : Parser) : List Nat :=
  (p.enclosing.reverse.flatMap fun g => g.outer.slots ++ [g.slot]) ++ p.level.slots

/-- What holds of a parser after any number of characters. -/
structure Sound (p : Parser) : Prop where
  enclosing : ∀ g ∈ p.enclosing, g.outer.Sound
  level : p.level.Sound
  mode : p.mode.Sound p.level.items
  slots : p.slots = List.range p.groups

theorem sound_start (offset : Nat) : (start offset).Sound :=
  ⟨by simp [start], ⟨rfl, rfl⟩, trivial, rfl⟩

/-- An item without groups keeps a parser sound. -/
theorem Sound.push {p : Parser} {t : Regex} (h : p.Sound) (ht : isItem t = true)
    (hslots : t.slots = []) : (p.push t).Sound where
  enclosing := h.enclosing
  level := h.level.push ht
  mode := trivial
  slots := by
    have hp := h.slots
    simp only [Parser.slots, Parser.push, Level.slots_push, hslots, List.append_nil] at hp ⊢
    exact hp

theorem Sound.repeatLast {p : Parser} {count : Quantifier} (h : p.Sound)
    (hc : count.isWritable = true) : (p.repeatLast count).Sound where
  enclosing := h.enclosing
  level := h.level.repeatLast hc
  mode := trivial
  slots := by
    have hp := h.slots
    simp only [Parser.slots, Parser.repeatLast, Level.slots_repeatLast] at hp ⊢
    exact hp

/-- Characters for themselves keep a parser sound. -/
theorem Sound.foldl_push {p : Parser} (h : p.Sound) (cs : List Char) :
    (cs.foldl (fun p c => p.push (.char c)) p).Sound := by
  induction cs generalizing p with
  | nil => exact h
  | cons c cs ih => exact ih (h.push rfl rfl)

theorem Sound.settle {p : Parser} (h : p.Sound) : p.settle.Sound := by
  have hmode := h.mode
  unfold Parser.settle
  split
  · next hm =>
    rw [hm] at hmode
    exact h.repeatLast hmode.2
  · exact h.foldl_push _
  · exact h

/-- Settling what is pending neither opens nor closes a group, and it reads nothing. -/
theorem settle_unchanged (p : Parser) :
    p.settle.enclosing = p.enclosing ∧ p.settle.groups = p.groups ∧ p.settle.offset = p.offset := by
  have hpush : ∀ (cs : List Char) (p : Parser),
      (cs.foldl (fun p c => p.push (.char c)) p).enclosing = p.enclosing ∧
        (cs.foldl (fun p c => p.push (.char c)) p).groups = p.groups ∧
          (cs.foldl (fun p c => p.push (.char c)) p).offset = p.offset := by
    intro cs
    induction cs with
    | nil => exact fun p => ⟨rfl, rfl, rfl⟩
    | cons c cs ih => exact fun p => ih (p.push (.char c))
  unfold settle
  split
  · exact ⟨rfl, rfl, rfl⟩
  · exact hpush _ p
  · exact ⟨rfl, rfl, rfl⟩

theorem mode_foldl_push {p : Parser} {cs : List Char} (h : p.mode = .item ∨ cs ≠ []) :
    (cs.foldl (fun p c => p.push (.char c)) p).mode = .item := by
  induction cs generalizing p with
  | nil => simpa using h
  | cons c cs ih => exact ih (.inl rfl)

/-- After a quantifier or braces nothing is pending once they are settled. -/
theorem mode_settle {p : Parser}
    (h : p.mode = .item ∨ (∃ least most, p.mode = .quantifier least most) ∨
      ∃ b, p.mode = .braces b) : p.settle.mode = .item := by
  unfold Parser.settle
  rcases h with h | ⟨least, most, h⟩ | ⟨b, h⟩
  · rw [h]
    exact h
  · rw [h]
    rfl
  · rw [h]
    exact mode_foldl_push (.inr (by simp [Braces.text]))

theorem Sound.quantify {p q : Parser} {least : Nat} {most : Option Nat} (h : p.Sound)
    (hc : Quantifier.isWritable ⟨least, most, false⟩ = true)
    (hq : p.quantify least most = .ok q) : q.Sound := by
  unfold Parser.quantify at hq
  split at hq
  · cases hq
  · next hne =>
    cases hq
    exact ⟨h.enclosing, h.level, ⟨hne, hc⟩, h.slots⟩

theorem Sound.closeGroup {p q : Parser} (h : p.Sound) (hq : p.closeGroup = .ok q) : q.Sound := by
  unfold Parser.closeGroup at hq
  split at hq
  · cases hq
  · next g enclosing he =>
    cases hq
    have houter := h.enclosing g (by rw [he]; exact List.mem_cons_self)
    refine ⟨fun g' hg' => h.enclosing g' (by rw [he]; exact List.mem_cons_of_mem _ hg'),
      houter.push h.level.close, trivial, ?_⟩
    rw [← h.slots]
    simp [Parser.slots, he, Level.slots_push, Regex.slots, Level.slots_close]

/-- Each character keeps a parser sound that has nothing pending. -/
theorem Sound.readItem {p q : Parser} {c : Char} (h : p.Sound) (hm : p.mode = .item)
    (hq : p.readItem c = .ok q) : q.Sound := by
  unfold Parser.readItem at hq
  split at hq
  · cases hq
    refine ⟨h.enclosing, h.level.nextBranch, by rw [hm]; trivial, ?_⟩
    rw [← h.slots]
    simp [Parser.slots, Level.slots_nextBranch]
  · cases hq
    refine ⟨fun g hg => ?_, ⟨rfl, rfl⟩, by rw [hm]; trivial, ?_⟩
    · rcases List.mem_cons.1 hg with rfl | hg
      · exact h.level
      · exact h.enclosing g hg
    · have hp := h.slots
      simp only [Parser.slots] at hp
      simp [Parser.slots, Level.slots, Level.empty, Regex.slotsOf, List.range_succ, ← hp]
  · exact h.closeGroup hq
  · exact h.quantify rfl hq
  · exact h.quantify rfl hq
  · exact h.quantify rfl hq
  · cases hq
    split
    · exact h.push rfl rfl
    · next hne => exact ⟨h.enclosing, h.level, hne, h.slots⟩
  · cases hq
    exact ⟨h.enclosing, h.level, by simp [Mode.Sound, OpenClass.Sound, OpenClass.start], h.slots⟩
  · cases hq
    exact ⟨h.enclosing, h.level, trivial, h.slots⟩
  · cases hq
    exact h.push rfl rfl
  · cases hq
    exact h.push rfl rfl
  · cases hq
    exact h.push rfl rfl
  · cases hq
    exact h.push rfl rfl

theorem Sound.closeBraces {p q : Parser} {b : Braces} (h : p.Sound) (hm : p.mode = .braces b)
    (hq : p.closeBraces b = .ok q) : q.Sound := by
  have hne := h.mode
  rw [hm] at hne
  unfold Parser.closeBraces at hq
  split at hq
  · exact h.settle.readItem (mode_settle (.inr (.inr ⟨b, hm⟩))) hq
  · next least hb =>
    cases hq
    exact ⟨h.enclosing, h.level, ⟨hne, decide_eq_true (Braces.bounds?_le hb).1⟩, h.slots⟩
  · next least most hb =>
    split at hq
    · cases hq
    · next hle =>
      cases hq
      refine ⟨h.enclosing, h.level, ⟨hne, ?_⟩, h.slots⟩
      rw [Quantifier.isWritable, Bool.and_eq_true, decide_eq_true_eq, decide_eq_true_eq]
      exact ⟨Nat.le_of_not_lt hle, (Braces.bounds?_le hb).2 most rfl⟩

theorem Sound.readInPlace {p q : Parser} {c : Char} (h : p.Sound) (hq : p.readInPlace c = .ok q) :
    q.Sound := by
  have hmode := h.mode
  unfold Parser.readInPlace at hq
  split at hq
  · next hm => exact h.readItem hm hq
  · cases hq
    refine h.push ?_ rfl
    unfold Atom.ofEscape
    cases Metachar.ofLetter? c <;> rfl
  · next least most hm =>
    rw [hm] at hmode
    split at hq
    · cases hq
      exact h.repeatLast hmode.2
    · exact h.settle.readItem (mode_settle (.inr (.inl ⟨least, most, hm⟩))) hq
  · next b hm =>
    split at hq
    · cases hq
      rw [hm] at hmode
      exact ⟨h.enclosing, h.level, hmode, h.slots⟩
    · split at hq
      · exact h.closeBraces hm hq
      · exact h.settle.readItem (mode_settle (.inr (.inr ⟨b, hm⟩))) hq
  · next k hm =>
    rw [hm] at hmode
    obtain ⟨s, hs, rfl⟩ := map_eq_ok_iff.1 hq
    have hsound : s.Sound := OpenClass.Sound.read hmode hs
    cases s with
    | reading k' => exact ⟨h.enclosing, h.level, hsound, h.slots⟩
    | complete t => exact h.push hsound.1 hsound.2

/-- **One character** keeps a parser sound. -/
theorem Sound.read {p q : Parser} {c : Char} (h : p.Sound) (hq : p.read c = .ok q) : q.Sound := by
  obtain ⟨r, hr, rfl⟩ := map_eq_ok_iff.1 hq
  have hr := h.readInPlace hr
  exact ⟨hr.enclosing, hr.level, hr.mode, hr.slots⟩

theorem readAll_cons (p : Parser) (c : Char) (cs : List Char) :
    p.readAll (c :: cs) = (p.read c).bind (·.readAll cs) := rfl

theorem readAll_cons_eq_ok {p q : Parser} {c : Char} {cs : List Char} :
    p.readAll (c :: cs) = .ok q ↔ ∃ r, p.read c = .ok r ∧ r.readAll cs = .ok q := bind_eq_ok_iff

theorem readAll_append_eq_ok {p q : Parser} {cs ds : List Char} :
    p.readAll (cs ++ ds) = .ok q ↔ ∃ r, p.readAll cs = .ok r ∧ r.readAll ds = .ok q := by
  rw [readAll_append, bind_eq_ok_iff]

/-- Any number of characters keep a parser sound. -/
theorem Sound.readAll {p q : Parser} {cs : List Char} (h : p.Sound) (hq : p.readAll cs = .ok q) :
    q.Sound := by
  induction cs generalizing p with
  | nil =>
    cases hq
    exact h
  | cons c cs ih =>
    obtain ⟨r, hr, hq⟩ := readAll_cons_eq_ok.1 hq
    exact ih (h.read hr) hq

/-- What a sound parser gives at the end is well formed. -/
theorem Sound.finish {p : Parser} {parsed : Parsed} (h : p.Sound) (hp : p.finish = .ok parsed) :
    parsed.root.WellFormed parsed.groups := by
  unfold Parser.finish at hp
  split at hp
  · cases hp
  · cases hp
  · split at hp
    · cases hp
    · next he =>
      cases hp
      obtain ⟨henclosing, hgroups, -⟩ := p.settle_unchanged
      have hslots := h.settle.slots
      rw [Parser.slots, henclosing, he, hgroups] at hslots
      exact ⟨h.settle.level.close, by rw [Level.slots_close]; exact hslots⟩

end Parser

/-- **Reading.**  A pattern that is not refused gives a well-formed tree. -/
theorem Regex.wellFormed_of_parse {text : String} {parsed : Parsed} (h : parse text = .ok parsed) :
    parsed.root.WellFormed parsed.groups := by
  obtain ⟨p, hr, h⟩ := bind_eq_ok_iff.1 h
  exact ((Parser.sound_start 0).readAll hr).finish h

end Backtrack
