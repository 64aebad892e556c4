import Backtrack.Regex.Braces

/-!
# Trees that a pattern can express

A tree is well formed (`Regex.WellFormed`) if it is put together as the syntax of patterns
puts trees together:

* the whole tree and the body of a group are a sequence, or an alternation of at least two
  sequences (`isBody`);
* an item of a sequence is an atom other than a range, a group, a class, a negated class,
  or a repetition of an item (`isItem`);
* a class has at least one member, and its members are characters, metacharacters and
  ranges whose ends are in order (`isClass`);
* groups are numbered in the order in which they open (`slots`).
-/

namespace Backtrack

/-- Bounds that braces can hold, the least one not above the greatest one. -/
def Quantifier.isWritable (q : Quantifier) : Bool :=
  match q.most with
  | some most => decide (q.least ≤ most) && decide (most ≤ maxBound)
  | none => decide (q.least ≤ maxBound)

/-- Whether an atom can be an item of a sequence. -/
def Atom.isItem : Atom → Bool
  | .range .. => false
  | _ => true

/-- Whether an atom can be a member of a class. -/
def Atom.isMember : Atom → Bool
  | .char _ | .metachar _ => true
  | .range first last => decide (first ≤ last)
  | .dot | .lineStart | .lineEnd => false

namespace Regex

/-- Whether a tree can be a member of a class. -/
def isMember : Regex → Bool
  | .atom a => a.isMember
  | _ => false

/-- Whether trees can be the members of a class. -/
def isClass (members : List Regex) : Bool := !members.isEmpty && members.all isMember

mutual

/-- Whether a tree can be an item of a sequence. -/
def isItem : Regex → Bool
  | .atom a => a.isItem
  | .charClass members => isClass members
  | .negation (.charClass members) => isClass members
  | .group _ body => isBody body
  | .repeated body count => isItem body && count.isWritable
  | .seq _ | .alt _ | .negation _ => false

/-- Whether a tree can stand for a whole pattern or in a group. -/
def isBody : Regex → Bool
  | .seq items => areItems items
  | .alt branches => decide (2 ≤ branches.length) && areBranches branches
  | _ => false

/-- Whether each tree can be an item of a sequence. -/
def areItems : List Regex → Bool
  | [] => true
  | t :: rest => isItem t && areItems rest

/-- Whether each tree is a sequence of items. -/
def areBranches : List Regex → Bool
  | [] => true
  | .seq items :: rest => areItems items && areBranches rest
  | _ :: _ => false

end

mutual

/-- The slots of the groups of a tree, in the order in which the groups open. -/
def slots : Regex → List Nat
  | .atom _ => []
  | .seq items => slotsOf items
  | .alt branches => slotsOf branches
  | .charClass members => slotsOf members
  | .negation body => slots body
  | .group slot body => slot :: slots body
  | .repeated body _ => slots body

/-- The slots of the groups of several trees. -/
def slotsOf : List Regex → List Nat
  | [] => []
  | t :: rest => slots t ++ slotsOf rest

end

/-- A tree that a pattern with so many groups can express.  The groups are numbered in the order in
which they open. -/
structure WellFormed (t : Regex) (groups : Nat) : Prop where
  body : t.isBody = true
  slots : t.slots = List.range groups

instance (t : Regex) (groups : Nat) : Decidable (t.WellFormed groups) :=
  decidable_of_iff (t.isBody = true ∧ t.slots = List.range groups)
    ⟨fun h => ⟨h.1, h.2⟩, fun h => ⟨h.body, h.slots⟩⟩

/-- `(a|\d{2}?)*[^x-z]` -/
example : WellFormed (.seq [.repeated (.group 0 (.alt [.seq [.char 'a'],
    .seq [.repeated (.atom (.metachar .digit)) ⟨2, some 2, true⟩]])) ⟨0, none, false⟩,
    .negation (.charClass [.atom (.range 'x' 'z')])]) 1 := by
  decide

/-! ## Lists of trees -/

theorem areItems_iff {ts : List Regex} : areItems ts = true ↔ ∀ t ∈ ts, isItem t = true := by
  induction ts with
  | nil => simp [areItems]
  | cons t rest ih => simp [areItems, ih]

theorem areBranches_iff {ts : List Regex} :
    areBranches ts = true ↔ ∀ t ∈ ts, ∃ items, t = .seq items ∧ areItems items = true := by
  induction ts with
  | nil => simp [areBranches]
  | cons t rest ih => cases t <;> simp [areBranches, ih]

theorem forall_isMember_iff {members : List Regex} :
    (∀ t ∈ members, isMember t = true) ↔
      ∃ atoms : List Atom, members = atoms.map .atom ∧ ∀ a ∈ atoms, a.isMember = true := by
  constructor
  · intro h
    induction members with
    | nil => exact ⟨[], rfl, by simp⟩
    | cons t rest ih =>
      obtain ⟨atoms, hrest, hatoms⟩ := ih fun t ht => h t (by simp [ht])
      have ht := h t (by simp)
      cases t with
      | atom a =>
        refine ⟨a :: atoms, by rw [hrest]; rfl, fun b hb => ?_⟩
        rcases List.mem_cons.1 hb with rfl | hb
        · exact ht
        · exact hatoms b hb
      | _ => cases ht
  · rintro ⟨atoms, rfl, hatoms⟩ t ht
    obtain ⟨a, ha, rfl⟩ := List.mem_map.1 ht
    exact hatoms a ha

theorem isClass_iff {members : List Regex} :
    isClass members = true ↔ members ≠ [] ∧
      ∃ atoms : List Atom, members = atoms.map .atom ∧ ∀ a ∈ atoms, a.isMember = true := by
  unfold isClass
  rw [Bool.and_eq_true, Bool.not_eq_true', List.isEmpty_eq_false_iff, List.all_eq_true,
    forall_isMember_iff]

theorem slotsOf_append (ts us : List Regex) : slotsOf (ts ++ us) = slotsOf ts ++ slotsOf us := by
  induction ts with
  | nil => rfl
  | cons t rest ih => rw [List.cons_append, slotsOf, slotsOf, ih, List.append_assoc]

theorem slotsOf_eq_flatMap (ts : List Regex) : slotsOf ts = ts.flatMap slots := by
  induction ts with
  | nil => rfl
  | cons t rest ih => rw [slotsOf, ih, List.flatMap_cons]

theorem slotsOf_atoms (atoms : List Atom) : slotsOf (atoms.map .atom) = [] := by
  induction atoms with
  | nil => rfl
  | cons a rest ih => rw [List.map_cons, slotsOf, slots, ih]; rfl

/-! ## Plain trees -/

/-- Trees that are put together in any way, but only classes are negated, classes have
nothing but atoms, and bounds are in order. -/
inductive Plain : Regex → Prop
  | atom (a : Atom) : Plain (.atom a)
  | seq {items : List Regex} : (∀ t ∈ items, Plain t) → Plain (.seq items)
  | alt {branches : List Regex} : (∀ t ∈ branches, Plain t) → Plain (.alt branches)
  | charClass (atoms : List Atom) : Plain (.charClass (atoms.map .atom))
  | negation (atoms : List Atom) : Plain (.negation (.charClass (atoms.map .atom)))
  | group (slot : Nat) {body : Regex} : Plain body → Plain (.group slot body)
  | repeated {body : Regex} {count : Quantifier} :
      count.isWritable = true → Plain body → Plain (.repeated body count)

theorem plain_of_isItem_or_isBody {t : Regex} (h : isItem t = true ∨ isBody t = true) :
    Plain t := by
  induction t with
  | atom a => exact .atom a
  | seq items ih =>
    have hitems : areItems items = true := h.resolve_left fun h => by cases h
    exact .seq fun t ht => ih t ht (.inl (areItems_iff.1 hitems t ht))
  | alt branches ih =>
    have hbody : isBody (.alt branches) = true := h.resolve_left fun h => by cases h
    rw [isBody, Bool.and_eq_true] at hbody
    refine .alt fun t ht => ih t ht (.inr ?_)
    obtain ⟨items, rfl, hitems⟩ := areBranches_iff.1 hbody.2 t ht
    exact hitems
  | charClass members =>
    obtain ⟨-, atoms, rfl, -⟩ := isClass_iff.1 (h.resolve_right fun h => by cases h)
    exact .charClass atoms
  | negation body =>
    cases body with
    | charClass members =>
      obtain ⟨-, atoms, rfl, -⟩ := isClass_iff.1 (h.resolve_right fun h => by cases h)
      exact .negation atoms
    | _ => rcases h with h | h <;> cases h
  | group slot body ih => exact .group slot (ih (.inr (h.resolve_right fun h => by cases h)))
  | repeated body count ih =>
    have hitem : isItem (.repeated body count) = true := h.resolve_right fun h => by cases h
    rw [isItem, Bool.and_eq_true] at hitem
    exact .repeated hitem.2 (ih (.inl hitem.1))

/-- A well-formed tree is plain, and each of its groups has a slot of its own. -/
theorem WellFormed.plain {t : Regex} {groups : Nat} (h : t.WellFormed groups) : t.Plain :=
  plain_of_isItem_or_isBody (.inr h.body)

theorem WellFormed.nodup {t : Regex} {groups : Nat} (h : t.WellFormed groups) :
    t.slots.Nodup := by
  rw [h.slots]
  exact List.nodup_range

theorem nodup_of_mem {ts : List Regex} (h : (slotsOf ts).Nodup) : ∀ t ∈ ts, t.slots.Nodup := by
  induction ts with
  | nil =>
    intro t ht
    cases ht
  | cons t rest ih =>
    rw [slotsOf, List.nodup_append] at h
    intro u hu
    rcases List.mem_cons.1 hu with rfl | hu
    · exact h.1
    · exact ih h.2.1 u hu

end Regex

end Backtrack
