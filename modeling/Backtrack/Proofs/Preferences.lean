import Backtrack.Proofs.Matches
import Backtrack.Proofs.SizeLimit

/-!
# Preferences do not move a match

What a tree prefers, the order of its branches and members and whether its repetitions are
lazy, decides how far a match goes and what its groups are, but not where it begins.  Tree `u`
is `t` with other preferences if `t.Reordered u`.

Main statement: `Pattern.start_of_reordered`.  The tree of a pattern with other preferences can
be compiled as well, and each search of the two begins its match at the same offset, or both
find nothing.  It is put together from:

    a tree with other preferences weighs the same         (Reordered.weight_eq)
    it is as plain, and its groups have the same slots    (Reordered.plain, Reordered.slots_perm)
    it matches the same stretches                         (Reordered.matches_iff)
    a match begins where any stretch begins first         (Program.map_run_start)
-/

namespace Backtrack

namespace Regex

/-- The second tree is the first one with other preferences: at any depth, branches of an
alternation and members of a class may have changed places, and repetitions may have become lazy
or greedy.  Of a list of trees, `pairs` has each tree with what has become of it. -/
inductive Reordered : Regex → Regex → Prop
  | atom (a : Atom) : Reordered (.atom a) (.atom a)
  | seq {pairs : List (Regex × Regex)} : (∀ x ∈ pairs, Reordered x.1 x.2) →
      Reordered (.seq (pairs.map Prod.fst)) (.seq (pairs.map Prod.snd))
  | alt {pairs : List (Regex × Regex)} {branches : List Regex} :
      (∀ x ∈ pairs, Reordered x.1 x.2) → (pairs.map Prod.snd).Perm branches →
      Reordered (.alt (pairs.map Prod.fst)) (.alt branches)
  | charClass {pairs : List (Regex × Regex)} {members : List Regex} :
      (∀ x ∈ pairs, Reordered x.1 x.2) → (pairs.map Prod.snd).Perm members →
      Reordered (.charClass (pairs.map Prod.fst)) (.charClass members)
  | negation {body body' : Regex} : Reordered body body' →
      Reordered (.negation body) (.negation body')
  | group (slot : Nat) {body body' : Regex} : Reordered body body' →
      Reordered (.group slot body) (.group slot body')
  | repeated {body body' : Regex} (least : Nat) (most : Option Nat) (isLazy isLazy' : Bool) :
      Reordered body body' →
      Reordered (.repeated body ⟨least, most, isLazy⟩) (.repeated body' ⟨least, most, isLazy'⟩)

variable {subject : String} {t u : Regex} {pairs : List (Regex × Regex)}

/-- A tree may keep all its preferences. -/
theorem Reordered.refl (t : Regex) : t.Reordered t := by
  -- each tree of a list goes with itself
  have hpairs : ∀ ts : List Regex, (∀ t ∈ ts, t.Reordered t) →
      (∀ x ∈ ts.map fun t => (t, t), Reordered x.1 x.2) ∧
        (ts.map fun t => (t, t)).map Prod.fst = ts ∧
        (ts.map fun t => (t, t)).map Prod.snd = ts := by
    intro ts h
    refine ⟨fun x hx => ?_, ?_, ?_⟩
    · obtain ⟨t, ht, rfl⟩ := List.mem_map.1 hx
      exact h t ht
    · rw [List.map_map]
      exact List.map_id ts
    · rw [List.map_map]
      exact List.map_id ts
  induction t with
  | atom a => exact .atom a
  | seq items ih =>
    obtain ⟨hall, hfst, hsnd⟩ := hpairs items ih
    have h := Reordered.seq hall
    rwa [hfst, hsnd] at h
  | alt branches ih =>
    obtain ⟨hall, hfst, hsnd⟩ := hpairs branches ih
    have h := Reordered.alt hall (.refl _)
    rwa [hfst, hsnd] at h
  | charClass members ih =>
    obtain ⟨hall, hfst, hsnd⟩ := hpairs members ih
    have h := Reordered.charClass hall (.refl _)
    rwa [hfst, hsnd] at h
  | negation body ih => exact .negation ih
  | group slot body ih => exact .group slot ih
  | repeated body count ih => exact .repeated count.least count.most count.lazy count.lazy ih

/-! ## Weights and slots -/

theorem weightOf_perm {ts us : List Regex} (h : ts.Perm us) : weightOf ts = weightOf us := by
  induction h with
  | nil => rfl
  | cons t _ ih => rw [weightOf, weightOf, ih]
  | swap t u ts =>
    simp only [weightOf]
    omega
  | trans _ _ ih ih' => exact ih.trans ih'

theorem weightOf_pairs (h : ∀ x ∈ pairs, x.1.weight = x.2.weight) :
    weightOf (pairs.map Prod.fst) = weightOf (pairs.map Prod.snd) := by
  induction pairs with
  | nil => rfl
  | cons x rest ih =>
    rw [List.map_cons, List.map_cons, weightOf, weightOf, h x (by simp),
      ih fun y hy => h y (by simp [hy])]

/-- Preferences have no weight. -/
theorem Reordered.weight_eq (h : t.Reordered u) : t.weight = u.weight := by
  induction h with
  | atom a => rfl
  | seq _ ih => rw [weight, weight, weightOf_pairs ih]
  | alt _ hperm ih => rw [weight, weight, weightOf_pairs ih, weightOf_perm hperm]
  | charClass _ hperm ih => rw [weight, weight, weightOf_pairs ih, weightOf_perm hperm]
  | negation _ ih => rw [weight, weight, ih]
  | group _ _ ih => rw [weight, weight, ih]
  | repeated least most isLazy isLazy' _ ih =>
    rw [weight, weight, ih]
    rfl

theorem slotsOf_perm {ts us : List Regex} (h : ts.Perm us) : (slotsOf ts).Perm (slotsOf us) := by
  rw [slotsOf_eq_flatMap, slotsOf_eq_flatMap]
  exact h.flatMap_right slots

theorem slotsOf_pairs (h : ∀ x ∈ pairs, x.1.slots.Perm x.2.slots) :
    (slotsOf (pairs.map Prod.fst)).Perm (slotsOf (pairs.map Prod.snd)) := by
  induction pairs with
  | nil => exact .refl _
  | cons x rest ih => exact (h x (by simp)).append (ih fun y hy => h y (by simp [hy]))

/-- The groups keep their slots, though they may open in another order. -/
theorem Reordered.slots_perm (h : t.Reordered u) : t.slots.Perm u.slots := by
  induction h with
  | atom a => exact .refl _
  | seq _ ih => exact slotsOf_pairs ih
  | alt _ hperm ih => exact (slotsOf_pairs ih).trans (slotsOf_perm hperm)
  | charClass _ hperm ih => exact (slotsOf_pairs ih).trans (slotsOf_perm hperm)
  | negation _ ih => exact ih
  | group slot _ ih => exact ih.cons slot
  | repeated _ _ _ _ _ ih => exact ih

/-! ## Plain trees -/

theorem plain_charClass_iff {members : List Regex} :
    Plain (.charClass members) ↔ ∀ t ∈ members, ∃ a, t = .atom a := by
  constructor
  · intro h
    generalize hc : Regex.charClass members = c at h
    cases h <;> cases hc
    intro t ht
    obtain ⟨a, -, rfl⟩ := List.mem_map.1 ht
    exact ⟨a, rfl⟩
  · intro h
    have hatoms : ∃ atoms : List Atom, members = atoms.map .atom := by
      induction members with
      | nil => exact ⟨[], rfl⟩
      | cons t rest ih =>
        obtain ⟨a, rfl⟩ := h t (by simp)
        obtain ⟨atoms, rfl⟩ := ih fun t ht => h t (by simp [ht])
        exact ⟨a :: atoms, rfl⟩
    obtain ⟨atoms, rfl⟩ := hatoms
    exact .charClass atoms

theorem plain_negation_iff {body : Regex} :
    Plain (.negation body) ↔ ∃ members, body = .charClass members ∧ Plain body := by
  constructor
  · intro h
    generalize hn : Regex.negation body = n at h
    cases h <;> cases hn
    exact ⟨_, rfl, .charClass _⟩
  · rintro ⟨members, rfl, h⟩
    generalize hc : Regex.charClass members = c at h
    cases h <;> cases hc
    exact .negation _

theorem Reordered.eq_atom {a : Atom} (h : Reordered (.atom a) u) : u = .atom a := by
  cases h
  rfl

theorem Reordered.exists_charClass {members : List Regex}
    (h : Reordered (.charClass members) u) : ∃ members', u = .charClass members' := by
  generalize hc : Regex.charClass members = c at h
  cases h <;> cases hc
  exact ⟨_, rfl⟩

/-- With other preferences, a plain tree is plain. -/
theorem Reordered.plain (h : t.Reordered u) (ht : t.Plain) : u.Plain := by
  induction h with
  | atom a => exact ht
  | seq _ ih =>
    cases ht with
    | seq hitems =>
      refine .seq fun t ht => ?_
      obtain ⟨x, hx, rfl⟩ := List.mem_map.1 ht
      exact ih x hx (hitems x.1 (List.mem_map_of_mem hx))
  | alt _ hperm ih =>
    cases ht with
    | alt hbranches =>
      refine .alt fun t ht => ?_
      obtain ⟨x, hx, rfl⟩ := List.mem_map.1 (hperm.mem_iff.2 ht)
      exact ih x hx (hbranches x.1 (List.mem_map_of_mem hx))
  | charClass hpairs hperm _ =>
    rw [plain_charClass_iff] at ht ⊢
    intro t hmem
    obtain ⟨x, hx, rfl⟩ := List.mem_map.1 (hperm.mem_iff.2 hmem)
    obtain ⟨a, ha⟩ := ht x.1 (List.mem_map_of_mem hx)
    have hx := hpairs x hx
    rw [ha] at hx
    exact ⟨a, hx.eq_atom⟩
  | negation hbody ih =>
    obtain ⟨members, rfl, hplain⟩ := plain_negation_iff.1 ht
    obtain ⟨members', hbody'⟩ := hbody.exists_charClass
    exact plain_negation_iff.2 ⟨members', hbody', ih hplain⟩
  | group slot _ ih =>
    cases ht with
    | group _ hbody => exact .group slot (ih hbody)
  | repeated _ _ _ _ _ ih =>
    cases ht with
    | repeated hcount hbody => exact .repeated hcount (ih hbody)

/-! ## What is matched -/

theorem matchesAll_pairs
    (h : ∀ x ∈ pairs, ∀ i j, x.1.Matches subject i j ↔ x.2.Matches subject i j) {i j : Nat} :
    MatchesAll subject (pairs.map Prod.fst) i j ↔ MatchesAll subject (pairs.map Prod.snd) i j := by
  induction pairs generalizing i with
  | nil => exact Iff.rfl
  | cons x rest ih =>
    simp only [List.map_cons, MatchesAll, h x (by simp), ih fun y hy => h y (by simp [hy])]

theorem matchesAny_pairs {ts : List Regex}
    (h : ∀ x ∈ pairs, ∀ i j, x.1.Matches subject i j ↔ x.2.Matches subject i j)
    (hperm : (pairs.map Prod.snd).Perm ts) {i j : Nat} :
    MatchesAny subject (pairs.map Prod.fst) i j ↔ MatchesAny subject ts i j := by
  rw [matchesAny_iff, matchesAny_iff]
  constructor
  · rintro ⟨t, ht, hmatches⟩
    obtain ⟨x, hx, rfl⟩ := List.mem_map.1 ht
    exact ⟨x.2, hperm.mem_iff.1 (List.mem_map_of_mem hx), (h x hx i j).1 hmatches⟩
  · rintro ⟨t, ht, hmatches⟩
    obtain ⟨x, hx, rfl⟩ := List.mem_map.1 (hperm.mem_iff.2 ht)
    exact ⟨x.1, List.mem_map_of_mem hx, (h x hx i j).2 hmatches⟩

/-- With other preferences, a tree matches the same stretches. -/
theorem Reordered.matches_iff (h : t.Reordered u) (i j : Nat) :
    t.Matches subject i j ↔ u.Matches subject i j := by
  induction h generalizing i j with
  | atom a => exact Iff.rfl
  | seq _ ih =>
    rw [Matches, Matches]
    exact matchesAll_pairs ih
  | alt _ hperm ih =>
    rw [Matches, Matches]
    exact matchesAny_pairs ih hperm
  | charClass _ hperm ih =>
    rw [Matches, Matches]
    exact matchesAny_pairs ih hperm
  | negation _ ih =>
    rw [Matches, Matches]
    simp only [ih]
  | group slot _ ih =>
    rw [Matches, Matches]
    exact ih i j
  | @repeated body body' least most isLazy isLazy' _ ih =>
    have hbody : body.Matches subject = body'.Matches subject := by
      funext i j
      exact propext (ih i j)
    rw [Matches, Matches, hbody]
    exact Iff.rfl

/-- A tree can be completed exactly if it matches some stretch from there on. -/
theorem completions_eq_nil_iff (ht : t.Plain) (hslots : t.slots.Nodup) {σ : State}
    (hσ : σ.subject = subject) :
    completions false t σ = [] ↔ ∀ j, ¬ t.Matches subject σ.offset j := by
  rw [← List.map_eq_nil_iff (f := State.outcome), map_completions ht hslots hσ,
    outcomes_eq_nil_iff ht]
  rfl

end Regex

/-! ## Searching -/

/-- A match begins at the first boundary from which the tree can be completed. -/
theorem Program.map_run_start {t : Regex} {captures : Nat} {p : Program}
    (h : compile t captures = .ok p) (subject : String) (start : Nat) :
    (p.run subject start).map State.start = (Text.boundariesFrom subject start).find? fun b =>
      !(t.completions false (.fresh subject b captures 0)).isEmpty := by
  have hstart : State.start = State.start ∘ State.unmarked := rfl
  rw [hstart, ← Option.map_map, run_of_compile h, List.map_findSome?,
    List.find?_eq_findSome?_guard]
  congr
  funext b
  rw [Function.comp_apply, Option.guard]
  cases hc : t.completions false (.fresh subject b captures 0) with
  | nil => rfl
  | cons τ rest =>
    have hτ : τ ∈ t.completions false (.fresh subject b captures 0) := by simp [hc]
    simp only [List.head?_cons, Option.map_some, (Regex.follows_of_mem_completions hτ).start]
    rfl

/-- Trees that match the same stretches begin their matches at the same offsets, however many
groups are remembered. -/
theorem Program.start_of_matches_iff {t u : Regex} {m n : Nat} {p q : Program}
    (ht : t.Plain) (htslots : t.slots.Nodup) (hu : u.Plain) (huslots : u.slots.Nodup)
    (hp : compile t m = .ok p) (hq : compile u n = .ok q) {subject : String}
    (h : ∀ i j, t.Matches subject i j ↔ u.Matches subject i j) (start : Nat) :
    (p.run subject start).map State.start = (q.run subject start).map State.start := by
  rw [map_run_start hp, map_run_start hq]
  congr
  funext b
  congr 1
  apply Bool.eq_iff_iff.2
  rw [List.isEmpty_iff, List.isEmpty_iff, Regex.completions_eq_nil_iff ht htslots rfl,
    Regex.completions_eq_nil_iff hu huslots rfl]
  exact forall_congr' fun j => not_congr (h b j)

open Regex (Reordered)

namespace Pattern

/-- **Preferences do not move a match.**  The tree of a pattern with other preferences can be
compiled as well, whatever number of groups is remembered, and all searches find nothing with
either, or a match that begins at the same offset. -/
theorem start_of_reordered {text : String} {p : Pattern} (h : ofString text = .ok p) {u : Regex}
    (hu : p.root.Reordered u) (captures : Nat) :
    ∃ q, Program.compile u captures = .ok q ∧ ∀ subject start,
      (p.program.run subject start).map State.start = (q.run subject start).map State.start := by
  obtain ⟨groups, hparse, hcompile, -, -⟩ := ofString_eq_ok_iff.1 h
  have ht : p.root.WellFormed groups := Regex.wellFormed_of_parse hparse
  obtain ⟨q, hq⟩ :=
    Program.exists_compile_of_weight_le hcompile (Nat.le_of_eq hu.weight_eq.symm) captures
  refine ⟨q, hq, fun subject start => ?_⟩
  apply Program.start_of_matches_iff ht.plain ht.nodup (hu.plain ht.plain) _ hcompile hq
  · intro i j
    exact hu.matches_iff i j
  · exact hu.slots_perm.nodup_iff.1 ht.nodup

/-- A repetition becomes greedy and its branches change places: the match begins at the same
offset and ends further on. -/
theorem start_of_reordered_greedy :
    ∃ p q, ofString "[xa](b|bc)+?" = .ok p ∧
      Program.compile (.seq [.charClass [.char 'a', .char 'x'], .repeated (.group 0
        (.alt [.seq [.char 'b', .char 'c'], .seq [.char 'b']])) ⟨1, none, false⟩]) 1 = .ok q ∧
      (p.program.run "éabcb" 0).map State.start = (q.run "éabcb" 0).map State.start ∧
      (p.program.run "éabcb" 0).map State.outcome = some ⟨4, [some ⟨3, 4⟩]⟩ ∧
      (q.run "éabcb" 0).map State.outcome = some ⟨6, [some ⟨5, 6⟩]⟩ := by
  let b : Regex := .seq [.char 'b']
  let bc : Regex := .seq [.char 'b', .char 'c']
  let t : Regex := .seq [.charClass [.char 'x', .char 'a'],
    .repeated (.group 0 (.alt [b, bc])) ⟨1, none, true⟩]
  let u : Regex := .seq [.charClass [.char 'a', .char 'x'],
    .repeated (.group 0 (.alt [bc, b])) ⟨1, none, false⟩]
  have hparse : Regex.parse "[xa](b|bc)+?" = .ok ⟨t, 1⟩ := rfl
  obtain ⟨p, hp, hroot, -⟩ := exists_ofString_eq_ok hparse (by decide)
  have hclass : Reordered (.charClass [.char 'x', .char 'a']) (.charClass [.char 'a', .char 'x']) :=
    @Reordered.charClass [(.char 'x', .char 'x'), (.char 'a', .char 'a')] _
      (by simp [Regex.Reordered.refl]) (.swap ..)
  have halt : Reordered (.alt [b, bc]) (.alt [bc, b]) :=
    @Reordered.alt [(b, b), (bc, bc)] _ (by simp [Regex.Reordered.refl]) (.swap ..)
  have hu : t.Reordered u :=
    @Reordered.seq [(_, _), (_, _)] (by
      simp only [List.forall_mem_cons]
      exact ⟨hclass, .repeated 1 none true false (.group 0 halt), nofun⟩)
  obtain ⟨q, hq, hstart⟩ := start_of_reordered hp (hroot ▸ hu) 1
  refine ⟨p, q, hp, hq, hstart "éabcb" 0, ?_, ?_⟩
  · obtain ⟨groups, hread, hcompile, -, -⟩ := ofString_eq_ok_iff.1 hp
    obtain ⟨-, rfl⟩ := Parsed.mk.inj (Except.ok.inj (hparse.symm.trans hread))
    have hrun := congrArg (Option.map State.outcome) (Program.run_of_compile hcompile "éabcb" 0)
    rw [Option.map_map, hroot] at hrun
    exact hrun.trans (by decide +kernel)
  · have hrun := congrArg (Option.map State.outcome) (Program.run_of_compile hq "éabcb" 0)
    rw [Option.map_map] at hrun
    exact hrun.trans (by decide +kernel)

end Pattern

end Backtrack
