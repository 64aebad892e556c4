import Backtrack.Proofs.Outcomes

/-!
# What a tree matches

`Regex.Matches subject t i j` says that tree `t` matches the stretch of `subject` from byte
offset `i` to `j`, in the plain sense: nothing is preferred, nothing is remembered, and a
repetition is any number of rounds that its bounds allow, empty rounds included.

Main statement: `Pattern.findFrom_matches`, a search finds a match exactly if there is one
at a boundary from its start on, and then it finds one that begins as far left as possible.
It is put together from:

    an outcome is at most further on                    (Matches.forward)
    empty rounds can be left out                        (mem_ends_anyNumber)
    the outcomes of a tree are where it can end         (mem_ends_outcomes)
-/

namespace Backtrack

/-- `n` steps of `R`, one after the other. -/
inductive Rounds (R : Nat → Nat → Prop) : Nat → Nat → Nat → Prop
  | zero (i : Nat) : Rounds R 0 i i
  | succ {n i j k : Nat} : R i j → Rounds R n j k → Rounds R (n + 1) i k

/-- Whether so many rounds lie within the bounds. -/
def Quantifier.Allows (q : Quantifier) (n : Nat) : Prop :=
  q.least ≤ n ∧ ∀ most, q.most = some most → n ≤ most

namespace Regex

mutual

/-- Tree `t` matches the stretch of `subject` between two byte offsets. -/
def Matches (subject : String) : Regex → Nat → Nat → Prop
  | .atom a, i, j => a.step? subject i = some j
  | .seq items, i, j => MatchesAll subject items i j
  | .alt branches, i, j => MatchesAny subject branches i j
  | .charClass members, i, j => MatchesAny subject members i j
  | .negation body, i, j => Text.after? subject i = some j ∧ ∀ k, ¬ Matches subject body i k
  | .group _ body, i, j => Matches subject body i j
  | .repeated body count, i, j => ∃ n, count.Allows n ∧ Rounds (Matches subject body) n i j

/-- Trees in a row match a stretch of `subject`. -/
def MatchesAll (subject : String) : List Regex → Nat → Nat → Prop
  | [], i, j => i = j
  | t :: rest, i, j => ∃ k, Matches subject t i k ∧ MatchesAll subject rest k j

/-- One of several trees matches a stretch of `subject`. -/
def MatchesAny (subject : String) : List Regex → Nat → Nat → Prop
  | [], _, _ => False
  | t :: rest, i, j => Matches subject t i j ∨ MatchesAny subject rest i j

end

end Regex

/-! ## Rounds -/

namespace Rounds

variable {R : Nat → Nat → Prop} {m n i j : Nat}

theorem zero_iff : Rounds R 0 i j ↔ i = j := by
  constructor
  · rintro ⟨⟩
    rfl
  · rintro rfl
    exact .zero i

theorem succ_iff : Rounds R (n + 1) i j ↔ ∃ k, R i k ∧ Rounds R n k j := by
  constructor
  · rintro (_ | ⟨hfirst, hrest⟩)
    exact ⟨_, hfirst, hrest⟩
  · rintro ⟨k, hfirst, hrest⟩
    exact .succ hfirst hrest

theorem add_iff : Rounds R (m + n) i j ↔ ∃ k, Rounds R m i k ∧ Rounds R n k j := by
  induction m generalizing i with
  | zero => simp [zero_iff]
  | succ m ih =>
    rw [Nat.succ_add, succ_iff]
    constructor
    · rintro ⟨k, hfirst, hrest⟩
      obtain ⟨l, hm, hn⟩ := ih.1 hrest
      exact ⟨l, .succ hfirst hm, hn⟩
    · rintro ⟨l, hm, hn⟩
      obtain ⟨k, hfirst, hm⟩ := succ_iff.1 hm
      exact ⟨k, hfirst, ih.2 ⟨l, hm, hn⟩⟩

/-- What holds of one step, and of several if it holds of each, holds of rounds. -/
theorem preserves {P : Nat → Nat → Prop} (refl : ∀ i, P i i)
    (trans : ∀ i j k, P i j → P j k → P i k) (step : ∀ i j, R i j → P i j)
    (h : Rounds R n i j) : P i j := by
  induction h with
  | zero i => exact refl i
  | succ hfirst _ ih => exact trans _ _ _ (step _ _ hfirst) ih

end Rounds

/-! ## Moving forward -/

/-- From `i` to `j` nothing is taken back, and what is matched ends at a boundary. -/
def Forward (subject : String) (i j : Nat) : Prop :=
  j = i ∨ i < j ∧ Text.isBoundary subject j = true

theorem Forward.trans {subject : String} {i j k : Nat} (h : Forward subject i j)
    (h' : Forward subject j k) : Forward subject i k := by
  rcases h with rfl | ⟨hlt, hj⟩
  · exact h'
  · rcases h' with rfl | ⟨hlt', hk⟩
    · exact .inr ⟨hlt, hj⟩
    · exact .inr ⟨by omega, hk⟩

theorem forward_of_after? {subject : String} {i j : Nat} (h : Text.after? subject i = some j) :
    Forward subject i j := by
  obtain ⟨c, hc, rfl⟩ := Option.map_eq_some_iff.1 h
  have hpos := c.utf8Size_pos
  exact .inr ⟨by omega, Text.isBoundary_add_utf8Size hc⟩

namespace Regex

variable {subject : String}

theorem forward_of_matchesAll {ts : List Regex}
    (ih : ∀ t ∈ ts, ∀ i j, t.Matches subject i j → Forward subject i j) {i j : Nat}
    (h : MatchesAll subject ts i j) : Forward subject i j := by
  induction ts generalizing i with
  | nil => exact .inl h.symm
  | cons t rest ihts =>
    obtain ⟨k, hfirst, hrest⟩ := h
    exact (ih t (by simp) i k hfirst).trans (ihts (fun t ht => ih t (by simp [ht])) hrest)

theorem matchesAny_iff {ts : List Regex} {i j : Nat} :
    MatchesAny subject ts i j ↔ ∃ t ∈ ts, t.Matches subject i j := by
  induction ts with
  | nil => simp [MatchesAny]
  | cons t rest ih => simp [MatchesAny, ih]

/-- What a tree matches ends where it begins, or at a boundary further on. -/
theorem Matches.forward {t : Regex} {i j : Nat} (h : t.Matches subject i j) :
    Forward subject i j := by
  induction t generalizing i j with
  | atom a =>
    rw [Matches] at h
    rcases Atom.eq_or_after?_of_step? h with rfl | h
    · exact .inl rfl
    · exact forward_of_after? h
  | seq items ih =>
    rw [Matches] at h
    exact forward_of_matchesAll (fun t ht i j => ih t ht) h
  | alt branches ih =>
    rw [Matches, matchesAny_iff] at h
    obtain ⟨t, ht, h⟩ := h
    exact ih t ht h
  | charClass members ih =>
    rw [Matches, matchesAny_iff] at h
    obtain ⟨t, ht, h⟩ := h
    exact ih t ht h
  | negation body =>
    rw [Matches] at h
    exact forward_of_after? h.1
  | group slot body ih =>
    rw [Matches] at h
    exact ih h
  | repeated body count ih =>
    rw [Matches] at h
    obtain ⟨n, -, h⟩ := h
    exact h.preserves (fun _ => .inl rfl) (fun _ _ _ => .trans) fun _ _ => ih

end Regex

/-! ## Where outcomes end -/

/-- The offsets at which outcomes end. -/
def Outcome.ends (l : List Outcome) : List Nat := l.map Outcome.offset

namespace Quantifier

open Outcome (ends)

theorem mem_ends_flatMap {l : List Outcome} {f : Outcome → List Outcome} {R : Nat → Prop}
    {S : Nat → Nat → Prop} (hl : ∀ i, i ∈ ends l ↔ R i)
    (hf : ∀ o j, j ∈ ends (f o) ↔ S o.offset j) (j : Nat) :
    j ∈ ends (l.flatMap f) ↔ ∃ i, R i ∧ S i j := by
  unfold ends at hl hf ⊢
  constructor
  · intro h
    rw [List.map_flatMap, List.mem_flatMap] at h
    obtain ⟨o, ho, hj⟩ := h
    exact ⟨o.offset, (hl _).1 (List.mem_map_of_mem ho), (hf o j).1 hj⟩
  · rintro ⟨i, hi, hj⟩
    obtain ⟨o, ho, rfl⟩ := List.mem_map.1 ((hl i).2 hi)
    rw [List.map_flatMap, List.mem_flatMap]
    exact ⟨o, ho, (hf o j).2 hj⟩

variable {subject : String} {round : Outcome → List Outcome} {R : Nat → Nat → Prop}

theorem mem_ends_exactly (h : ∀ o j, j ∈ ends (round o) ↔ R o.offset j) (n : Nat) (o : Outcome)
    (j : Nat) : j ∈ ends (exactly round n o) ↔ Rounds R n o.offset j := by
  induction n generalizing o j with
  | zero =>
    rw [exactly, Rounds.zero_iff]
    simp [ends, eq_comm]
  | succ n ih => rw [exactly, mem_ends_flatMap (h o) fun o j => ih o j, Rounds.succ_iff]

/-- Stopping comes to no round at all, and going on to one round more. -/
theorem mem_ends_prefer {isLazy : Bool} {o : Outcome} {more : List Outcome} {j : Nat} :
    j ∈ ends (prefer isLazy [o] more) ↔ o.offset = j ∨ j ∈ ends more := by
  rw [ends, map_prefer, mem_prefer, List.map_singleton, List.mem_singleton, eq_comm]
  rfl

theorem mem_ends_upTo (h : ∀ o j, j ∈ ends (round o) ↔ R o.offset j) (isLazy : Bool) (n : Nat)
    (o : Outcome) (j : Nat) :
    j ∈ ends (upTo round isLazy n o) ↔ ∃ m, m ≤ n ∧ Rounds R m o.offset j := by
  induction n generalizing o j with
  | zero =>
    rw [upTo]
    constructor
    · intro hj
      have hj : j = o.offset := by simpa [ends] using hj
      exact ⟨0, Nat.le_refl 0, hj ▸ .zero _⟩
    · rintro ⟨m, hm, hrounds⟩
      obtain rfl : m = 0 := by omega
      rw [Rounds.zero_iff] at hrounds
      simp [ends, hrounds]
  | succ n ih =>
    rw [upTo, mem_ends_prefer,
      mem_ends_flatMap (S := fun i j => ∃ m, m ≤ n ∧ Rounds R m i j) (h o) ih]
    constructor
    · rintro (rfl | ⟨i, hfirst, m, hm, hrest⟩)
      · exact ⟨0, by omega, .zero _⟩
      · exact ⟨m + 1, by omega, .succ hfirst hrest⟩
    · rintro ⟨m, hm, hrounds⟩
      cases hrounds with
      | zero => exact .inl rfl
      | succ hfirst hrest => exact .inr ⟨_, hfirst, _, by omega, hrest⟩

/-- Empty rounds can be left out, so nothing is lost by stopping after one.  By induction on
what is left of the subject, and then on the number of rounds. -/
theorem mem_ends_anyNumber (h : ∀ o j, j ∈ ends (round o) ↔ R o.offset j)
    (hR : ∀ i j, R i j → Forward subject i j) (isLazy : Bool) (o : Outcome) (j : Nat) :
    j ∈ ends (anyNumber (fun r => subject.utf8ByteSize - r.offset) round isLazy o) ↔
      ∃ n, Rounds R n o.offset j := by
  induction hleft : subject.utf8ByteSize - o.offset using Nat.strongRecOn generalizing o with
  | ind left ih =>
    rw [anyNumber, mem_ends_prefer, hleft]
    constructor
    · rintro (rfl | hj)
      · exact ⟨0, .zero _⟩
      · unfold ends at hj
        rw [List.map_flatMap, List.mem_flatMap] at hj
        obtain ⟨r, hr, hj⟩ := hj
        have hfirst : R o.offset r.offset := (h o _).1 (List.mem_map_of_mem hr)
        split at hj
        · next hlt =>
          obtain ⟨n, hrest⟩ := (ih _ hlt r rfl).1 hj
          exact ⟨n + 1, .succ hfirst hrest⟩
        · -- the loop is left after a round that consumed nothing
          have hj : j = r.offset := by simpa using hj
          exact ⟨1, .succ hfirst (hj ▸ .zero _)⟩
    · rintro ⟨n, hrounds⟩
      induction n with
      | zero =>
        rw [Rounds.zero_iff] at hrounds
        exact .inl hrounds
      | succ n ihn =>
        obtain ⟨i, hfirst, hrest⟩ := Rounds.succ_iff.1 hrounds
        rcases hR _ _ hfirst with rfl | ⟨hlt, hi⟩
        · -- an empty round changes nothing: the rounds after it do alone
          exact ihn hrest
        · right
          obtain ⟨r, hr, rfl⟩ := List.mem_map.1 ((h o i).2 hfirst)
          have hle := Text.le_utf8ByteSize_of_isBoundary hi
          unfold ends
          rw [List.map_flatMap, List.mem_flatMap]
          refine ⟨r, hr, ?_⟩
          rw [if_pos (by omega)]
          exact (ih _ (by omega) r rfl).2 ⟨n, hrest⟩

/-- A repetition can end where so many rounds as its bounds allow can end. -/
theorem mem_ends_repeats {q : Quantifier} (hq : q.isWritable = true)
    (h : ∀ o j, j ∈ ends (round o) ↔ R o.offset j) (hR : ∀ i j, R i j → Forward subject i j)
    (o : Outcome) (j : Nat) :
    j ∈ ends (q.repeats (fun r => subject.utf8ByteSize - r.offset) round o) ↔
      ∃ n, q.Allows n ∧ Rounds R n o.offset j := by
  unfold repeats Allows
  have hdue := mem_ends_exactly h q.least o
  cases hmost : q.most with
  | none =>
    rw [mem_ends_flatMap (S := fun i j => ∃ n, Rounds R n i j) hdue
      (mem_ends_anyNumber h hR q.lazy)]
    constructor
    · rintro ⟨i, hm, n, hn⟩
      exact ⟨q.least + n, ⟨by omega, fun _ h => by cases h⟩, Rounds.add_iff.2 ⟨i, hm, hn⟩⟩
    · rintro ⟨n, ⟨hle, -⟩, hn⟩
      obtain ⟨k, rfl⟩ := Nat.exists_eq_add_of_le hle
      obtain ⟨i, hm, hk⟩ := Rounds.add_iff.1 hn
      exact ⟨i, hm, k, hk⟩
  | some most =>
    have hle : q.least ≤ most := by
      simp only [isWritable, hmost, Bool.and_eq_true, decide_eq_true_eq] at hq
      exact hq.1
    rw [mem_ends_flatMap (S := fun i j => ∃ n, n ≤ most - q.least ∧ Rounds R n i j) hdue
      (mem_ends_upTo h q.lazy _)]
    constructor
    · rintro ⟨i, hm, n, hle', hn⟩
      refine ⟨q.least + n, ⟨by omega, ?_⟩, Rounds.add_iff.2 ⟨i, hm, hn⟩⟩
      rintro _ ⟨⟩
      omega
    · rintro ⟨n, ⟨hle, hallows⟩, hn⟩
      have hallows := hallows most rfl
      obtain ⟨k, rfl⟩ := Nat.exists_eq_add_of_le hle
      obtain ⟨i, hm, hk⟩ := Rounds.add_iff.1 hn
      exact ⟨i, hm, k, by omega, hk⟩

end Quantifier

namespace Regex

variable {subject : String}

open Outcome (ends)

theorem mem_ends_all {ts : List Regex}
    (ih : ∀ t ∈ ts, ∀ o j, j ∈ ends (outcomes subject t o) ↔ t.Matches subject o.offset j)
    (o : Outcome) (j : Nat) :
    j ∈ ends (outcomesAll subject ts o) ↔ MatchesAll subject ts o.offset j := by
  induction ts generalizing o j with
  | nil => simp [outcomesAll, MatchesAll, ends, eq_comm]
  | cons t rest ihts =>
    rw [outcomesAll, MatchesAll]
    exact Quantifier.mem_ends_flatMap (ih t (by simp) o)
      (fun o j => ihts (fun t ht => ih t (by simp [ht])) o j) j

theorem mem_ends_any {ts : List Regex}
    (ih : ∀ t ∈ ts, ∀ o j, j ∈ ends (outcomes subject t o) ↔ t.Matches subject o.offset j)
    (o : Outcome) (j : Nat) :
    j ∈ ends (outcomesAny subject ts o) ↔ MatchesAny subject ts o.offset j := by
  induction ts with
  | nil => simp [outcomesAny, MatchesAny, ends]
  | cons t rest ihts =>
    rw [outcomesAny, MatchesAny, ← ih t (by simp), ← ihts fun t ht => ih t (by simp [ht])]
    simp [ends]

theorem mem_ends_atom (a : Atom) (o : Outcome) (j : Nat) :
    j ∈ ends (outcomes subject (.atom a) o) ↔ Matches subject (.atom a) o.offset j := by
  rw [outcomes, Matches, ends, List.map_map]
  cases a.step? subject o.offset <;> simp [eq_comm]

theorem mem_ends_class (atoms : List Atom) (o : Outcome) (j : Nat) :
    j ∈ ends (outcomes subject (.charClass (atoms.map .atom)) o) ↔
      Matches subject (.charClass (atoms.map .atom)) o.offset j := by
  rw [outcomes, Matches]
  refine mem_ends_any (fun t ht => ?_) o j
  obtain ⟨a, -, rfl⟩ := List.mem_map.1 ht
  exact mem_ends_atom a

theorem eq_nil_iff_of_ends {l : List Outcome} {R : Nat → Prop} (h : ∀ j, j ∈ ends l ↔ R j) :
    l = [] ↔ ∀ j, ¬ R j := by
  rw [← List.map_eq_nil_iff (f := Outcome.offset), List.eq_nil_iff_forall_not_mem]
  exact forall_congr' fun j => not_congr (h j)

theorem mem_ends_negation {body : Regex}
    (h : ∀ o j, j ∈ ends (outcomes subject body o) ↔ Matches subject body o.offset j)
    (o : Outcome) (j : Nat) :
    j ∈ ends (outcomes subject (.negation body) o) ↔
      Matches subject (.negation body) o.offset j := by
  rw [outcomes, Matches, ← eq_nil_iff_of_ends (h o), ← List.isEmpty_iff]
  by_cases hempty : (outcomes subject body o).isEmpty = true
  · rw [if_pos hempty]
    cases Text.after? subject o.offset <;> simp [ends, hempty, eq_comm]
  · rw [if_neg hempty]
    simp [ends, hempty]

/-- The outcomes of a tree end exactly where the tree can end. -/
theorem mem_ends_outcomes {t : Regex} (ht : t.Plain) (o : Outcome) (j : Nat) :
    j ∈ ends (outcomes subject t o) ↔ t.Matches subject o.offset j := by
  induction ht generalizing o j with
  | atom a => exact mem_ends_atom a o j
  | seq _ ih =>
    rw [outcomes, Matches]
    exact mem_ends_all (fun t ht o j => ih t ht o j) o j
  | alt _ ih =>
    rw [outcomes, Matches]
    exact mem_ends_any (fun t ht o j => ih t ht o j) o j
  | charClass atoms => exact mem_ends_class atoms o j
  | negation atoms => exact mem_ends_negation (mem_ends_class atoms) o j
  | group slot _ ih =>
    rw [outcomes, Matches, ends, List.map_map, ← ih]
    rfl
  | repeated hcount _ ih =>
    rw [outcomes, Matches]
    exact Quantifier.mem_ends_repeats hcount ih (fun _ _ h => h.forward) o j

theorem outcomes_eq_nil_iff {t : Regex} (ht : t.Plain) (o : Outcome) :
    outcomes subject t o = [] ↔ ∀ j, ¬ t.Matches subject o.offset j :=
  eq_nil_iff_of_ends (mem_ends_outcomes ht o)

end Regex

/-! ## Searching -/

/-- A search comes to nothing exactly if nothing matches from its start on. -/
theorem Program.run_eq_none_iff {t : Regex} {groups : Nat} {p : Program} (ht : t.WellFormed groups)
    (hp : compile t groups = .ok p) (subject : String) (start : Nat) :
    p.run subject start = none ↔
      ∀ i j, start ≤ i → Text.isBoundary subject i = true → ¬ t.Matches subject i j := by
  rw [← Option.map_eq_none_iff (f := State.seen), map_run_seen ht hp,
    Text.findSome?_boundariesFrom_eq_none]
  constructor
  · intro h i j hi hb
    have h := h i hi hb
    rw [Option.map_eq_none_iff, List.head?_eq_none_iff, Regex.outcomes_eq_nil_iff ht.plain] at h
    exact h j
  · intro h i hi hb
    rw [Option.map_eq_none_iff, List.head?_eq_none_iff, Regex.outcomes_eq_nil_iff ht.plain]
    exact fun j => h i j hi hb

/-- What a search comes to is a match, and it begins as far left as possible. -/
theorem Program.matches_of_run {t : Regex} {groups : Nat} {p : Program} (ht : t.WellFormed groups)
    (hp : compile t groups = .ok p) {subject : String} {start : Nat} {σ : State}
    (h : p.run subject start = some σ) :
    start ≤ σ.start ∧ Text.isBoundary subject σ.start = true ∧
      t.Matches subject σ.start σ.offset ∧
      ∀ i j, start ≤ i → Text.isBoundary subject i = true → t.Matches subject i j →
        σ.start ≤ i := by
  have hseen := map_run_seen ht hp subject start
  rw [h, Option.map_some] at hseen
  obtain ⟨b, hle, hb, hfound, hfirst⟩ := Text.exists_of_findSome?_boundariesFrom hseen.symm
  obtain ⟨o, ho, hσ⟩ := Option.map_eq_some_iff.1 hfound
  obtain ⟨-, rfl, rfl⟩ : subject = σ.subject ∧ b = σ.start ∧ o = σ.outcome := by
    simpa [State.seen] using hσ
  refine ⟨hle, hb, ?_, fun i j hi hbi hij => ?_⟩
  · exact (Regex.mem_ends_outcomes ht.plain _ _).1 (List.mem_map_of_mem (List.mem_of_head? ho))
  · by_cases hlt : i < σ.start
    · have hnone := hfirst i hi hlt hbi
      rw [Option.map_eq_none_iff, List.head?_eq_none_iff,
        Regex.outcomes_eq_nil_iff ht.plain] at hnone
      exact absurd hij (hnone j)
    · omega

/-- **Soundness and completeness.**  A search for a pattern finds something exactly if its
tree matches from some boundary on, and what it finds is such a match that begins as far
left as possible. -/
theorem Pattern.findFrom_matches {text : String} {p : Pattern} (h : ofString text = .ok p)
    (subject : String) (start : Nat) :
    ((p.findFrom subject start).isSome = true ↔
      ∃ i j, start ≤ i ∧ Text.isBoundary subject i = true ∧ p.root.Matches subject i j) ∧
    ∀ m, p.findFrom subject start = some m →
      start ≤ m.span.start ∧ Text.isBoundary subject m.span.start = true ∧
      Text.isBoundary subject m.span.stop = true ∧
      p.root.Matches subject m.span.start m.span.stop ∧
      ∀ i j, start ≤ i → Text.isBoundary subject i = true → p.root.Matches subject i j →
        m.span.start ≤ i := by
  obtain ⟨groups, hparse, hcompile, -, -⟩ := ofString_eq_ok_iff.1 h
  have ht : p.root.WellFormed groups := Regex.wellFormed_of_parse hparse
  unfold findFrom
  constructor
  · rw [Option.isSome_map, ← Option.ne_none_iff_isSome, ne_eq,
      Program.run_eq_none_iff ht hcompile]
    simp only [Classical.not_forall, Classical.not_not, exists_prop]
  · intro m hm
    obtain ⟨σ, hσ, rfl⟩ := Option.map_eq_some_iff.1 hm
    obtain ⟨hle, hb, hmatches, hleast⟩ := Program.matches_of_run ht hcompile hσ
    refine ⟨hle, hb, ?_, hmatches, hleast⟩
    rcases hmatches.forward with heq | ⟨-, hstop⟩
    · show Text.isBoundary subject σ.offset = true
      rw [heq]
      exact hb
    · exact hstop

/-- The body of the loop can match without consuming anything, in every round. -/
theorem Pattern.findFrom_matches_nullable_rounds :
    ∃ p, ofString "(a*|b)*c" = .ok p ∧ ∃ m, p.findFrom "xabac" 1 = some m ∧
      m.span.start = 1 ∧ p.root.Matches "xabac" 1 m.span.stop := by
  let t : Regex := .seq [
    .repeated (.group 0 (.alt [.seq [.repeated (.char 'a') ⟨0, none, false⟩], .seq [.char 'b']]))
      ⟨0, none, false⟩,
    .char 'c']
  have hparse : Regex.parse "(a*|b)*c" = .ok ⟨t, 1⟩ := rfl
  obtain ⟨p, hp, hroot, -⟩ := exists_ofString_eq_ok hparse (by decide)
  have ht : t.WellFormed 1 := by decide
  have hmatches : p.root.Matches "xabac" 1 5 := by
    rw [hroot, ← Regex.mem_ends_outcomes ht.plain ⟨1, []⟩]
    decide +kernel
  have hboundary : Text.isBoundary "xabac" 1 = true := by decide
  have hfound := (findFrom_matches hp "xabac" 1).1.2 ⟨1, 5, Nat.le_refl 1, hboundary, hmatches⟩
  obtain ⟨m, hm⟩ := Option.isSome_iff_exists.1 hfound
  obtain ⟨hle, -, -, hspan, hleast⟩ := (findFrom_matches hp "xabac" 1).2 m hm
  have hstart : m.span.start = 1 :=
    Nat.le_antisymm (hleast 1 5 (Nat.le_refl 1) hboundary hmatches) hle
  rw [hstart] at hspan
  exact ⟨p, hp, m, hm, hstart, hspan⟩

end Backtrack
