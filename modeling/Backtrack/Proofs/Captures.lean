import Backtrack.Proofs.Alternation
import Backtrack.Proofs.Attempts
import Backtrack.Proofs.Bounds
import Backtrack.Proofs.FirstPath
import Backtrack.Proofs.Matches
import Backtrack.Proofs.Parentheses
import Backtrack.Proofs.WellFormedGraph

/-!
# What groups report

Main statement: `Pattern.groups_of_match`.  Each group of a match is that of one pair of parentheses
of the pattern, and it reports where the group has been opened and closed last on the path on which
the match has been found.  The text between the parentheses matches just that stretch of the
subject.  Two accounts of a group are put together.  Along the path, its slot is opened and closed
as the tests say:

    a path makes of a slot what its tasks make of it      (slots_of_arrives)
    groups are closed in the end and properly nested      (nest_of_arrives)
    so the last pair of tests is what is reported         (span_keepAll)

Along the tree, only the body of a group can have been remembered:

    whatever a group has matched, its body matches        (records_of_mem_outcomes)
    how the groups in the body are numbered is no matter  (matches_raise)
-/

namespace Backtrack

/-! ## A slot along a path -/

/-- Where the test of an automaton passes, the automaton does so only if it is not negated. -/
theorem Automaton.eq_of_run {a : Automaton} {σ τ ρ : State} (h : a.run σ = some τ)
    (ha : a.test.run σ = some ρ) : τ = ρ := by
  unfold run at h
  rw [ha] at h
  split at h <;> cases h
  rfl

theorem Test.eq_of_slot? {test : Test} {i : Nat} (h : test.slot? = some i) :
    test = .openSlot i ∨ test = .closeSlot i := by
  cases test with
  | openSlot j =>
    cases h
    exact .inl rfl
  | closeSlot j =>
    cases h
    exact .inr rfl
  | _ => cases h

section

variable {test : Test} {opened after : List Nat} {i : Nat}

/-- A group that is not open after a test that does not close it is not open before. -/
theorem Test.not_mem_before (h : test.nest opened = some after) (hi : i ∉ after)
    (htest : test ≠ .closeSlot i) : i ∉ opened ∧ test ≠ .openSlot i := by
  cases test with
  | openSlot j =>
    cases h
    rw [List.mem_cons, not_or] at hi
    exact ⟨hi.2, fun heq => hi.1 (Test.openSlot.inj heq).symm⟩
  | closeSlot j =>
    cases opened with
    | nil => cases h
    | cons last opened =>
      obtain ⟨rfl, hafter⟩ := Option.ite_none_right_eq_some.1 h
      cases hafter
      refine ⟨?_, nofun⟩
      rw [List.mem_cons, not_or]
      exact ⟨fun heq => htest (congrArg _ heq.symm), hi⟩
  | _ =>
    cases h
    exact ⟨hi, nofun⟩

/-- A group that is not open before a test that does not open it is not open after. -/
theorem Test.not_mem_after (h : test.nest opened = some after) (hi : i ∉ opened)
    (htest : test ≠ .openSlot i) : i ∉ after ∧ test ≠ .closeSlot i := by
  cases test with
  | openSlot j =>
    cases h
    refine ⟨?_, nofun⟩
    rw [List.mem_cons, not_or]
    exact ⟨fun heq => htest (congrArg _ heq.symm), hi⟩
  | closeSlot j =>
    cases opened with
    | nil => cases h
    | cons last opened =>
      obtain ⟨rfl, hafter⟩ := Option.ite_none_right_eq_some.1 h
      cases hafter
      rw [List.mem_cons, not_or] at hi
      exact ⟨hi.2, fun heq => hi.1 (Test.closeSlot.inj heq).symm⟩
  | _ =>
    cases h
    exact ⟨hi, nofun⟩

end

namespace Graph

/-- The offset at which `test` is made on a path for the last time. -/
def lastAt (g : Graph) (test : Test) : List Task → Option Nat
  | [] => none
  | t :: path =>
    (g.lastAt test path).or (if g.test? t.vertex = some test then some t.state.offset else none)

/-- What a task makes of slot `i`. -/
def keep (g : Graph) (i : Nat) (t : Task) (s : Slot) : Slot :=
  if g.test? t.vertex = some (.openSlot i) then { s with opened := some t.state.offset }
  else if g.test? t.vertex = some (.closeSlot i) then s.close t.state.offset
  else s

/-- What the tasks on a path make of slot `i`. -/
def keepAll (g : Graph) (i : Nat) (path : List Task) (s : Slot) : Slot :=
  path.foldl (fun s t => g.keep i t s) s

variable {g : Graph} {i : Nat} {t : Task} {path : List Task} {ways : List Nat} {σ τ : State}
  {s : Slot}

theorem slots_of_run (i : Nat) (h : g.run t.vertex t.state = some τ) :
    τ.slots[i]? = t.state.slots[i]?.map (g.keep i t) := by
  unfold run at h
  cases hv : g.vertices[t.vertex]? with
  | none => rw [hv] at h; cases h
  | some v =>
    rw [hv] at h
    have hkeep : g.keep i t = fun s =>
        if v.automaton.test = .openSlot i then { s with opened := some t.state.offset }
        else if v.automaton.test = .closeSlot i then s.close t.state.offset
        else s := by
      funext s
      simp only [keep, test?_of_vertex hv, Option.some.injEq]
    rw [hkeep]
    by_cases hopen : v.automaton.test = .openSlot i
    · have hτ : τ = t.state.openSlot i := Automaton.eq_of_run h (by rw [hopen]; rfl)
      simp [hτ, State.openSlot, Array.getElem?_modify, hopen]
    · by_cases hclose : v.automaton.test = .closeSlot i
      · have hτ : τ = t.state.closeSlot i := Automaton.eq_of_run h (by rw [hclose]; rfl)
        simp [hτ, State.closeSlot, Array.getElem?_modify, hclose]
      · have hslot : i ∉ v.automaton.test.slot?.toList := by
          rw [Option.mem_toList]
          intro hslot
          rcases Test.eq_of_slot? hslot with heq | heq
          · exact hopen heq
          · exact hclose heq
        simp [hopen, hclose, (Automaton.follows_of_run h).kept i hslot]

/-- A path makes of a slot what its tasks make of it. -/
theorem slots_of_arrives (i : Nat) (h : g.Arrives t ways path σ) :
    σ.slots[i]? = t.state.slots[i]?.map (g.keepAll i path) := by
  induction h with
  | last _ hrun => exact slots_of_run i hrun
  | step hrun _ _ ih =>
    rw [ih, slots_of_run i hrun, Option.map_map]
    rfl

theorem start_of_arrives (h : g.Arrives t ways path σ) : σ.start = t.state.start := by
  have hrun : ∀ {n : Nat} {ρ τ : State}, g.run n ρ = some τ → τ.start = ρ.start := by
    intro n ρ τ h
    unfold run at h
    split at h
    · exact (Automaton.follows_of_run h).start
    · cases h
  induction h with
  | last _ h => exact hrun h
  | step h _ _ ih => exact ih.trans (hrun h)

theorem path_of_arrives (h : g.Arrives t ways path σ) :
    g.Path t.vertex g.terminal (path.map Task.vertex) := by
  induction h with
  | last ht _ =>
    rw [List.map_singleton, ht]
    exact .single _
  | step _ hn _ ih => exact .step (List.mem_of_getElem? hn) ih

/-! ## What is opened and closed -/

theorem opened_keep : (g.keep i t s).opened =
    (if g.test? t.vertex = some (.openSlot i) then some t.state.offset else none).or s.opened := by
  unfold keep
  split
  · rfl
  · rw [Option.none_or]
    split
    · unfold Slot.close
      cases hs : s.opened <;> simp [hs]
    · rfl

/-- Where a group is not closed, it reports what it has reported before. -/
theorem span_keepAll_of_none (h : g.lastAt (.closeSlot i) path = none) :
    (g.keepAll i path s).span = s.span := by
  induction path generalizing s with
  | nil => rfl
  | cons t path ih =>
    rw [lastAt, Option.or_eq_none_iff] at h
    obtain ⟨hpath, ht⟩ := h
    have hspan : (g.keep i t s).span = s.span := by
      unfold keep
      split
      · rfl
      · split
        · next htest => rw [if_pos htest] at ht; cases ht
        · rfl
    exact (ih hpath).trans hspan

theorem nest_cons_eq_some {n : Nat} {path opened after : List Nat} :
    g.nest (n :: path) opened = some after ↔ ∃ test between, g.test? n = some test ∧
      test.nest opened = some between ∧ g.nest path between = some after := by
  simp [nest, Option.bind_eq_some_iff]

theorem lastAt_cons_eq_none {test : Test} :
    g.lastAt test (t :: path) = none ↔
      g.lastAt test path = none ∧ g.test? t.vertex ≠ some test := by
  rw [lastAt, Option.or_eq_none_iff]
  simp

/-- After a group has been closed for the last time it is not opened. -/
theorem lastAt_openSlot_of_nest {opened : List Nat}
    (hnest : g.nest (path.map Task.vertex) opened = some [])
    (hclose : g.lastAt (.closeSlot i) path = none) :
    i ∉ opened ∧ g.lastAt (.openSlot i) path = none := by
  induction path generalizing opened with
  | nil =>
    cases hnest
    exact ⟨List.not_mem_nil, rfl⟩
  | cons t path ih =>
    obtain ⟨test, between, htest, hbetween, hnest⟩ := nest_cons_eq_some.1 hnest
    obtain ⟨hlater, hne⟩ := lastAt_cons_eq_none.1 hclose
    obtain ⟨hi, hopen⟩ := ih hnest hlater
    obtain ⟨hi, hne⟩ := Test.not_mem_before hbetween hi fun heq => hne (heq ▸ htest)
    refine ⟨hi, lastAt_cons_eq_none.2 ⟨hopen, fun hsame => hne ?_⟩⟩
    exact Option.some.inj (htest.symm.trans hsame)

/-- Before a group has been opened for the first time it is not closed. -/
theorem lastAt_closeSlot_of_nest {opened after : List Nat}
    (hnest : g.nest (path.map Task.vertex) opened = some after)
    (hopen : g.lastAt (.openSlot i) path = none) (hi : i ∉ opened) :
    g.lastAt (.closeSlot i) path = none := by
  induction path generalizing opened with
  | nil => rfl
  | cons t path ih =>
    obtain ⟨test, between, htest, hbetween, hnest⟩ := nest_cons_eq_some.1 hnest
    obtain ⟨hlater, hne⟩ := lastAt_cons_eq_none.1 hopen
    obtain ⟨hi, hne⟩ := Test.not_mem_after hbetween hi fun heq => hne (heq ▸ htest)
    refine lastAt_cons_eq_none.2 ⟨ih hnest hlater hi, fun hsame => hne ?_⟩
    exact Option.some.inj (htest.symm.trans hsame)

/-- **A group reports where it has been opened and closed last.** -/
theorem span_keepAll {opened : List Nat} {a b : Nat}
    (hnest : g.nest (path.map Task.vertex) opened = some [])
    (hclose : g.lastAt (.closeSlot i) path = some b)
    (hopen : (g.lastAt (.openSlot i) path).or s.opened = some a) :
    (g.keepAll i path s).span = some ⟨a, b⟩ := by
  induction path generalizing opened s with
  | nil => cases hclose
  | cons t path ih =>
    obtain ⟨test, between, htest, hbetween, hnest⟩ := nest_cons_eq_some.1 hnest
    show (g.keepAll i path (g.keep i t s)).span = _
    cases hlater : g.lastAt (.closeSlot i) path with
    | some b' =>
      rw [lastAt, hlater, Option.some_or] at hclose
      cases hclose
      refine ih hnest hlater ?_
      rwa [opened_keep, ← Option.or_assoc]
    | none =>
      rw [span_keepAll_of_none hlater]
      obtain ⟨-, hlast⟩ := lastAt_openSlot_of_nest hnest hlater
      rw [lastAt, hlater, Option.none_or] at hclose
      obtain ⟨hsame, hb⟩ := Option.ite_none_right_eq_some.1 hclose
      cases hb
      rw [lastAt, hlast, Option.none_or, hsame, if_neg nofun, Option.none_or] at hopen
      rw [keep, hsame, if_neg nofun, if_pos rfl, Slot.close, hopen]

end Graph

/-! ## What a group has matched -/

/-- Each group has matched what it had matched before, or something that the body of one of the
groups `gs` matches. -/
def Outcome.Records (subject : String) (gs : List (Nat × Regex)) (o r : Outcome) : Prop :=
  ∀ i : Nat, r.captures[i]? = o.captures[i]? ∨ ∃ body s, (i, body) ∈ gs ∧
    r.captures[i]? = some (some s) ∧ body.Matches subject s.start s.stop

namespace Outcome.Records

variable {subject : String} {gs gs' : List (Nat × Regex)} {o r x : Outcome}

theorem of_eq (h : r.captures = o.captures) : o.Records subject gs r := fun i => by
  rw [h]
  exact .inl rfl

theorem mono (h : o.Records subject gs r) (hsub : gs ⊆ gs') : o.Records subject gs' r := fun i => by
  refine (h i).imp_right ?_
  rintro ⟨body, s, hmem, hmatches⟩
  exact ⟨body, s, hsub hmem, hmatches⟩

theorem trans (h : o.Records subject gs x) (h' : x.Records subject gs r) :
    o.Records subject gs r := fun i => by
  rcases h' i with heq | hmatched
  · rw [heq]
    exact h i
  · exact .inr hmatched

end Outcome.Records

namespace Regex

variable {subject : String}

theorem records_all {ts : List Regex}
    (ih : ∀ t ∈ ts, ∀ o, ∀ r ∈ outcomes subject t o, o.Records subject t.groups r)
    {o r : Outcome} (hr : r ∈ outcomesAll subject ts o) : o.Records subject (groupsOf ts) r := by
  induction ts generalizing o with
  | nil =>
    rw [outcomesAll, List.mem_singleton] at hr
    exact .of_eq (congrArg _ hr)
  | cons t rest ihts =>
    rw [outcomesAll, List.mem_flatMap] at hr
    obtain ⟨x, hx, hr⟩ := hr
    have hfirst := (ih t (by simp) o x hx).mono (List.subset_append_left _ (groupsOf rest))
    have hrest := ihts (fun t ht => ih t (by simp [ht])) hr
    exact hfirst.trans (hrest.mono (List.subset_append_right _ _))

theorem records_any {ts : List Regex}
    (ih : ∀ t ∈ ts, ∀ o, ∀ r ∈ outcomes subject t o, o.Records subject t.groups r)
    {o r : Outcome} (hr : r ∈ outcomesAny subject ts o) : o.Records subject (groupsOf ts) r := by
  induction ts with
  | nil => cases hr
  | cons t rest ihts =>
    rw [outcomesAny, List.mem_append] at hr
    rcases hr with hr | hr
    · exact (ih t (by simp) o r hr).mono (List.subset_append_left _ _)
    · exact (ihts (fun t ht => ih t (by simp [ht])) hr).mono (List.subset_append_right _ _)

theorem records_atom (a : Atom) (o : Outcome) :
    ∀ r ∈ outcomes subject (.atom a) o, o.Records subject [] r := by
  intro r hr
  rw [outcomes, List.mem_map] at hr
  obtain ⟨i, -, rfl⟩ := hr
  exact .of_eq rfl

/-- Whatever a group of a tree has matched in the end, its body matches. -/
theorem records_of_mem_outcomes {t : Regex} (ht : t.Plain) :
    ∀ o, ∀ r ∈ outcomes subject t o, o.Records subject t.groups r := by
  induction ht with
  | atom a => exact records_atom a
  | seq _ ih =>
    intro o r hr
    rw [outcomes] at hr
    exact records_all ih hr
  | alt _ ih =>
    intro o r hr
    rw [outcomes] at hr
    exact records_any ih hr
  | charClass atoms =>
    intro o r hr
    rw [outcomes] at hr
    refine records_any (fun t ht => ?_) hr
    obtain ⟨a, -, rfl⟩ := List.mem_map.1 ht
    exact records_atom a
  | negation atoms =>
    intro o r hr
    rw [outcomes] at hr
    obtain ⟨-, hr⟩ := List.mem_ite_nil_right.1 hr
    obtain ⟨i, -, rfl⟩ := List.mem_map.1 hr
    exact .of_eq rfl
  | @group slot body hbody ih =>
    intro o r hr i
    rw [outcomes, List.mem_map] at hr
    obtain ⟨x, hx, rfl⟩ := hr
    have hbefore := (ih o x hx).mono (List.subset_cons_self (slot, body) _) i
    by_cases hslot : slot = i
    · subst hslot
      by_cases hlt : slot < x.captures.length
      · refine .inr ⟨body, ⟨o.offset, x.offset⟩, List.mem_cons_self, List.getElem?_set_self hlt, ?_⟩
        exact (mem_ends_outcomes hbody o x.offset).1 (List.mem_map_of_mem hx)
      · rwa [List.set_eq_of_length_le (Nat.le_of_not_lt hlt)]
    · rwa [List.getElem?_set_ne hslot]
  | repeated _ _ ih =>
    intro o r hr
    rw [outcomes] at hr
    exact Quantifier.forall_mem_repeats (P := fun x => o.Records subject _ x) _
      (fun x hx y hy => hx.trans (ih x y hy)) (.of_eq rfl) r hr

/-! ## The numbers of the groups do not matter -/

theorem matchesAll_raiseAll {n : Nat} {ts : List Regex}
    (ih : ∀ t ∈ ts, Matches subject (t.raise n) = Matches subject t) :
    MatchesAll subject (raiseAll n ts) = MatchesAll subject ts := by
  induction ts with
  | nil => rfl
  | cons t rest ihts =>
    funext i j
    rw [raiseAll, MatchesAll, MatchesAll, ih t (by simp), ihts fun t ht => ih t (by simp [ht])]

theorem matchesAny_raiseAll {n : Nat} {ts : List Regex}
    (ih : ∀ t ∈ ts, Matches subject (t.raise n) = Matches subject t) :
    MatchesAny subject (raiseAll n ts) = MatchesAny subject ts := by
  induction ts with
  | nil => rfl
  | cons t rest ihts =>
    funext i j
    rw [raiseAll, MatchesAny, MatchesAny, ih t (by simp), ihts fun t ht => ih t (by simp [ht])]

theorem matches_raise (n : Nat) (t : Regex) : Matches subject (t.raise n) = Matches subject t := by
  induction t with
  | atom a => rfl
  | seq items ih =>
    funext i j
    rw [raise, Matches, Matches, matchesAll_raiseAll ih]
  | alt branches ih =>
    funext i j
    rw [raise, Matches, Matches, matchesAny_raiseAll ih]
  | charClass members ih =>
    funext i j
    rw [raise, Matches, Matches, matchesAny_raiseAll ih]
  | negation body ih =>
    funext i j
    rw [raise, Matches, Matches, ih]
  | group slot body ih =>
    funext i j
    rw [raise, Matches, Matches, ih]
  | repeated body count ih =>
    funext i j
    rw [raise, Matches, Matches, ih]

end Regex

/-! ## Matches -/

theorem eq_of_mem_of_nodup {α β : Type} {l : List (α × β)} (hl : (l.map Prod.fst).Nodup) {a : α}
    {b b' : β} (h : (a, b) ∈ l) (h' : (a, b') ∈ l) : b = b' := by
  induction l with
  | nil => cases h
  | cons x l ih =>
    rw [List.map_cons, List.nodup_cons] at hl
    have hx : ∀ {c}, (a, c) ∈ l → a ≠ x.1 := fun hc heq => hl.1 (heq ▸ List.mem_map_of_mem hc)
    rcases List.mem_cons.1 h with hfirst | hlater
    · rcases List.mem_cons.1 h' with hfirst' | hlater'
      · exact (Prod.mk.inj (hfirst.trans hfirst'.symm)).2
      · exact absurd (congrArg Prod.fst hfirst) (hx hlater')
    · rcases List.mem_cons.1 h' with hfirst' | hlater'
      · exact absurd (congrArg Prod.fst hfirst') (hx hlater)
      · exact ih hl.2 hlater hlater'

theorem Capture.name_inj {c d : Capture} (h : c.name = d.name) : c = d := by
  obtain ⟨i⟩ := c
  obtain ⟨j⟩ := d
  have hdigits : Nat.toDigits 10 (i + 1) = Nat.toDigits 10 (j + 1) := String.ofList_injective h
  have hnumber : i + 1 = j + 1 := by
    rw [← Nat.ofDigitChars_ten_toDigits (n := i + 1), hdigits, Nat.ofDigitChars_ten_toDigits]
  rw [Nat.succ.inj hnumber]

/-- A group is found under its number in decimal digits. -/
theorem Match.named?_repr {m : Match} (h : m.names = (List.range m.groups.length).map Capture.mk)
    (i : Nat) : m.named? (i + 1).repr = m.group? (i + 1) := by
  have hname : (fun c : Capture => c.name == (i + 1).repr) ∘ Capture.mk = (· == i) := by
    funext j
    rw [Function.comp_apply, Bool.eq_iff_iff, beq_iff_eq, beq_iff_eq]
    constructor
    · exact fun h => congrArg Capture.slot (Capture.name_inj (c := ⟨j⟩) (d := ⟨i⟩) h)
    · rintro rfl
      rfl
  unfold named?
  rw [h, List.find?_map, hname]
  by_cases hi : i < m.groups.length
  · have hfind : (List.range m.groups.length).find? (· == i) = some i :=
      List.find?_range_eq_some.2 ⟨by simp, List.mem_range.2 hi, fun j hj => by simp; omega⟩
    rw [hfind]
    rfl
  · have hfind : (List.range m.groups.length).find? (· == i) = none := by
      simp; omega
    have hnone : m.group? (i + 1) = none := by
      show m.groups[i]?.join.map m.textOf = none
      rw [List.getElem?_eq_none (Nat.le_of_not_lt hi)]
      rfl
    rw [hfind, hnone]
    rfl

namespace Pattern

variable {text subject : String} {p : Pattern} {start : Nat} {m : Match}

/-- What a group reports is something that its body matches. -/
theorem exists_body_of_groupSpan? (hp : ofString text = .ok p)
    (hm : p.findFrom subject start = some m) {i : Nat} {s : Span}
    (hs : m.groupSpan? (i + 1) = some s) :
    ∃ body, (i, body) ∈ p.root.groups ∧ body.Matches subject s.start s.stop := by
  have hgroups := map_findFrom hp (fun _ groups => groups) subject start
  rw [hm, Option.map_some] at hgroups
  obtain ⟨b, -, hb⟩ := List.exists_of_findSome?_eq_some hgroups.symm
  obtain ⟨r, hr, hcaptures⟩ := Option.map_eq_some_iff.1 hb
  have hi : r.captures[i]? = some (some s) := by
    rw [hcaptures]
    exact Option.join_eq_some_iff.1 hs
  have hplain := (Regex.wellFormed_of_parse (parse_eq_ok hp)).plain
  rcases Regex.records_of_mem_outcomes hplain _ r (List.mem_of_head? hr) i with hunset | hset
  · rw [hi, List.getElem?_replicate] at hunset
    split at hunset <;> cases hunset
  · obtain ⟨body, s', hmem, hs', hmatches⟩ := hset
    rw [hi] at hs'
    cases hs'
    exact ⟨body, hmem, hmatches⟩

/-- A match comes from a first path. -/
theorem exists_first_of_findFrom (hm : p.findFrom subject start = some m) :
    ∃ ways path σ, p.program.run subject start = some σ ∧ m = .ofState p.source p.captures σ ∧
      Graph.IsFirst (p.program.graph.Arrives (p.program.entry subject m.span.start)) ways path σ := by
  obtain ⟨σ, hσ, rfl⟩ := Option.map_eq_some_iff.1 hm
  obtain ⟨first, hfirst, hrun⟩ := p.program.exists_run_eq subject
  rw [hrun] at hσ
  obtain ⟨b, -, hb⟩ := List.exists_of_findSome?_eq_some hσ
  have htells := hfirst b
  rw [hb] at htells
  obtain ⟨ways, path, hfirst⟩ := htells
  obtain rfl : σ.start = b := Graph.start_of_arrives hfirst.arrives
  exact ⟨ways, path, σ, (hrun start).trans hσ, rfl, hfirst⟩

/-- What match `m` of `p`, which has been read from `text`, reports of the group that is opened
after `i` others, if it has been found on `path`: where it was opened and closed for the last time
on this path, if it was closed at all. -/
structure Reports (text subject : String) (p : Pattern) (m : Match) (path : List Task) (i : Nat) :
    Prop where
  /-- Two parentheses enclose the text of the group.  It is a pattern by itself, up to the numbers
  of its own groups its tree is the body of the group, and what the group reports is something that
  this tree matches. -/
  encloses : ∃ body t, (∀ b, Outline.Encloses text i b ↔ b = body) ∧ Regex.parse body = .ok t ∧
    (i, t.root.raise (i + 1)) ∈ p.root.groups ∧
    ∀ s, m.groupSpan? (i + 1) = some s → t.root.Matches subject s.start s.stop
  unset : p.program.graph.lastAt (.closeSlot i) path = none → m.groupSpan? (i + 1) = none
  set : ∀ b, p.program.graph.lastAt (.closeSlot i) path = some b → ∃ a,
    p.program.graph.lastAt (.openSlot i) path = some a ∧ m.groupSpan? (i + 1) = some ⟨a, b⟩ ∧
    m.span.start ≤ a ∧ a ≤ b ∧ b ≤ m.span.stop

theorem captures_graph (hp : ofString text = .ok p) :
    p.program.graph.captures = p.captures.length := by
  obtain ⟨groups, hparse, hcompile, -, -⟩ := ofString_eq_ok_iff.1 hp
  rw [Program.graph_of_compile hcompile]
  exact congrArg Parsed.groups (Except.ok.inj (hparse.symm.trans (parse_eq_ok hp)))

/-- What a group reports at the end of a path. -/
theorem groupSpan?_of_arrives (hp : ofString text = .ok p) {b : Nat} {ways : List Nat}
    {path : List Task} {σ : State}
    (h : p.program.graph.Arrives (p.program.entry subject b) ways path σ) {i : Nat}
    (hi : i < p.captures.length) :
    (Match.ofState p.source p.captures σ).groupSpan? (i + 1) =
      (p.program.graph.keepAll i path .unset).span := by
  have hslot := Graph.slots_of_arrives i h
  have hfresh : (p.program.entry subject b).state.slots[i]? = some .unset := by
    show (Array.replicate p.program.graph.captures Slot.unset)[i]? = _
    rw [captures_graph hp, Array.getElem?_replicate, if_pos hi]
  rw [hfresh, Option.map_some] at hslot
  show ((σ.slots.toList.map Slot.span)[i]?).join = _
  rw [List.getElem?_map, Array.getElem?_toList, hslot]
  rfl

/-- All groups are closed in the end of a path, and only the one opened last is closed. -/
theorem nest_of_arrives (hp : ofString text = .ok p) {b : Nat} {ways : List Nat} {path : List Task}
    {σ : State} (h : p.program.graph.Arrives (p.program.entry subject b) ways path σ) :
    p.program.graph.nest (path.map Task.vertex) [] = some [] := by
  obtain ⟨groups, hparse, hcompile, -, -⟩ := ofString_eq_ok_iff.1 hp
  have hwell := (Regex.wellFormed_of_parse hparse).wellFormed_graph
  rw [← Program.graph_of_compile hcompile] at hwell
  exact hwell.nested _ (Graph.path_of_arrives h)

/-- The text of a group, and the tree that it is read as. -/
theorem encloses_of_findFrom (hp : ofString text = .ok p) (hm : p.findFrom subject start = some m)
    {i : Nat} (hi : i < p.captures.length) :
    ∃ body t, (∀ b, Outline.Encloses text i b ↔ b = body) ∧ Regex.parse body = .ok t ∧
      (i, t.root.raise (i + 1)) ∈ p.root.groups ∧
      ∀ s, m.groupSpan? (i + 1) = some s → t.root.Matches subject s.start s.stop := by
  have hparse := parse_eq_ok hp
  obtain ⟨body, t, hencloses, ht, hmem⟩ := Regex.encloses_of_parse hparse hi
  refine ⟨body, t, fun b => ⟨fun h => h.unique hencloses, fun h => h ▸ hencloses⟩, ht, hmem, ?_⟩
  intro s hs
  obtain ⟨body', hmem', hmatches⟩ := exists_body_of_groupSpan? hp hm hs
  have hnodup : (p.root.groups.map Prod.fst).Nodup := by
    rw [Regex.map_fst_groups]
    exact (Regex.wellFormed_of_parse hparse).nodup
  rwa [eq_of_mem_of_nodup hnodup hmem' hmem, Regex.matches_raise] at hmatches

/-- **Groups are numbered by text position and report what they matched.**  A match has been found
on the first of all paths from where it begins, and each of its groups reports where it has been
opened and closed last on this path, which is something that the text between its parentheses
matches. -/
theorem groups_of_match (hp : ofString text = .ok p) (hm : p.findFrom subject start = some m) :
    m.groupCount = p.captures.length + 1 ∧
    Outline.ofText text = some ⟨.plain, p.captures.length, 0⟩ ∧
    (∀ i, m.named? (i + 1).repr = m.group? (i + 1)) ∧
    ∃ ways path σ, p.program.run subject start = some σ ∧ m = .ofState p.source p.captures σ ∧
      Graph.IsFirst (p.program.graph.Arrives (p.program.entry subject m.span.start)) ways path σ ∧
      ∀ i < p.captures.length, Reports text subject p m path i := by
  have hlength := length_groups hp hm
  have hnames : m.names = (List.range m.groups.length).map Capture.mk := by
    obtain ⟨groups, hparse, -, -, hcaptures⟩ := ofString_eq_ok_iff.1 hp
    obtain ⟨σ, -, rfl⟩ := Option.map_eq_some_iff.1 hm
    rw [hlength]
    show p.captures = _
    rw [hcaptures, Parsed.captures, List.length_map, List.length_range]
  have hencloses := fun i => encloses_of_findFrom hp hm (i := i)
  obtain ⟨ways, path, σ, hσ, rfl, hfirst⟩ := exists_first_of_findFrom hm
  refine ⟨congrArg (· + 1) hlength, Regex.ofText_of_parse (parse_eq_ok hp),
    Match.named?_repr hnames, ways, path, σ, hσ, rfl, hfirst, fun i hi => ?_⟩
  have hspan := groupSpan?_of_arrives hp hfirst.arrives hi
  have hnest := nest_of_arrives hp hfirst.arrives
  refine ⟨hencloses i hi, fun hclose => ?_, fun b hclose => ?_⟩
  · rw [hspan, Graph.span_keepAll_of_none hclose]
    rfl
  · cases hopen : p.program.graph.lastAt (.openSlot i) path with
    | none =>
      rw [Graph.lastAt_closeSlot_of_nest hnest hopen List.not_mem_nil] at hclose
      cases hclose
    | some a =>
      rw [Graph.span_keepAll hnest hclose (by rw [hopen]; rfl)] at hspan
      have hgroup : some ⟨a, b⟩ ∈ (Match.ofState p.source p.captures σ).groups :=
        List.mem_of_getElem? (Option.join_eq_some_iff.1 hspan)
      obtain ⟨hstart, hstop⟩ := Match.between_of_mem_groups (Program.valid_of_run hσ) hgroup
      exact ⟨a, rfl, hspan, hstart.lower, hstart.upper, hstop.upper⟩

/-- Of four opening parentheses one is in a class and one is escaped.  The second round leaves what
the inner group has matched in the first one. -/
theorem groups_of_match_earlier_round :
    ∃ p m, ofString "((a)|b[(])+\\(" = .ok p ∧ p.findFrom "xab((" 0 = some m ∧ m.groupCount = 3 ∧
      m.groups = [some ⟨2, 4⟩, some ⟨1, 2⟩] ∧ m.named? "2" = m.group? 2 ∧
      (∃ t, Regex.parse "(a)|b[(]" = .ok t ∧ t.root.Matches "xab((" 2 4) ∧
      ∃ t, Regex.parse "a" = .ok t ∧ t.root.Matches "xab((" 1 2 := by
  let t : Regex := .seq [
    .repeated (.group 0 (.alt [.seq [.group 1 (.seq [.char 'a'])],
      .seq [.char 'b', .charClass [.char '(']]])) ⟨1, none, false⟩,
    .char '(']
  have hparse : Regex.parse "((a)|b[(])+\\(" = .ok ⟨t, 2⟩ := rfl
  obtain ⟨p, hp, hroot, hcaptures⟩ := exists_ofString_eq_ok hparse (by decide)
  have hfound : (p.findFrom "xab((" 0).map Match.groups = some [some ⟨2, 4⟩, some ⟨1, 2⟩] := by
    rw [map_findFrom hp fun _ groups => groups, hroot, hcaptures]
    decide +kernel
  obtain ⟨m, hm, hgroups⟩ := Option.map_eq_some_iff.1 hfound
  obtain ⟨hcount, -, hnamed, _, path, -, -, -, -, hreports⟩ := groups_of_match hp hm
  have hlength : p.captures.length = 2 := by rw [hcaptures]; rfl
  rw [hlength] at hcount hreports
  -- the text that parentheses enclose is the only one that they enclose
  have hbody : ∀ i, i < 2 → ∀ body s, Outline.Encloses "((a)|b[(])+\\(" i body →
      m.groupSpan? (i + 1) = some s →
      ∃ t, Regex.parse body = .ok t ∧ t.root.Matches "xab((" s.start s.stop := by
    intro i hi body s hencloses hs
    obtain ⟨body', t, hunique, ht, -, hmatches⟩ := (hreports i hi).encloses
    obtain rfl := (hunique body).1 hencloses
    exact ⟨t, ht, hmatches s hs⟩
  refine ⟨p, m, hp, hm, hcount, hgroups, hnamed 1, ?_, ?_⟩
  · refine hbody 0 (by decide) "(a)|b[(]" ⟨2, 4⟩ ⟨"", "+\\(", 0, 1, rfl, rfl, rfl⟩ ?_
    show m.groups[0]?.join = _
    rw [hgroups]
    rfl
  · refine hbody 1 (by decide) "a" ⟨1, 2⟩ ⟨"(", "|b[(])+\\(", 1, 0, rfl, rfl, rfl⟩ ?_
    show m.groups[1]?.join = _
    rw [hgroups]
    rfl

end Pattern

end Backtrack
