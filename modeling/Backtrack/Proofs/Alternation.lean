import Backtrack.Proofs.Outcomes
import Backtrack.Proofs.Relocation

/-!
# Two patterns with a bar between them

Main statement: `Pattern.findFrom_bar`.  The search for `left|right` finds what one of the two
patterns finds by itself: the one whose match begins further left, or `left` if both begin at
one place.  The groups of `left` are numbered first, and those of the other pattern take no
part, whatever it has matched before it failed.

    a tree among other groups             the same outcomes             (outcomes_raise)
    the branches of two trees             the outcomes of both          (outcomes_bar)
    one of two things, place by place     the leftmost one of the two   (findSome?_or)
-/

namespace Backtrack

/-- The outcome among other groups, which have matched `before` and `after`. -/
def Outcome.among (before after : List (Option Span)) (o : Outcome) : Outcome :=
  { o with captures := before ++ o.captures ++ after }

namespace Regex

variable {subject : String} {before after : List (Option Span)}

/-! ## How many groups there are -/

theorem length_captures_all {ts : List Regex}
    (ih : ∀ t ∈ ts, ∀ o, ∀ r ∈ outcomes subject t o, r.captures.length = o.captures.length)
    {o r : Outcome} (hr : r ∈ outcomesAll subject ts o) :
    r.captures.length = o.captures.length := by
  induction ts generalizing o with
  | nil =>
    rw [outcomesAll, List.mem_singleton] at hr
    rw [hr]
  | cons t rest ihts =>
    rw [outcomesAll, List.mem_flatMap] at hr
    obtain ⟨x, hx, hr⟩ := hr
    rw [ihts (fun t ht => ih t (by simp [ht])) hr, ih t (by simp) o x hx]

theorem length_captures_any {ts : List Regex}
    (ih : ∀ t ∈ ts, ∀ o, ∀ r ∈ outcomes subject t o, r.captures.length = o.captures.length)
    {o r : Outcome} (hr : r ∈ outcomesAny subject ts o) :
    r.captures.length = o.captures.length := by
  induction ts with
  | nil => cases hr
  | cons t rest ihts =>
    rw [outcomesAny, List.mem_append] at hr
    rcases hr with hr | hr
    · exact ih t (by simp) o r hr
    · exact ihts (fun t ht => ih t (by simp [ht])) hr

/-- An outcome has as many groups as there were before. -/
theorem length_captures_of_mem_outcomes (t : Regex) :
    ∀ o, ∀ r ∈ outcomes subject t o, r.captures.length = o.captures.length := by
  induction t with
  | atom a =>
    intro o r hr
    rw [outcomes, List.mem_map] at hr
    obtain ⟨i, -, rfl⟩ := hr
    rfl
  | seq items ih =>
    intro o r hr
    rw [outcomes] at hr
    exact length_captures_all ih hr
  | alt branches ih =>
    intro o r hr
    rw [outcomes] at hr
    exact length_captures_any ih hr
  | charClass members ih =>
    intro o r hr
    rw [outcomes] at hr
    exact length_captures_any ih hr
  | negation body ih =>
    intro o r hr
    rw [outcomes] at hr
    split at hr
    · obtain ⟨i, -, rfl⟩ := List.mem_map.1 hr
      rfl
    · cases hr
  | group slot body ih =>
    intro o r hr
    rw [outcomes, List.mem_map] at hr
    obtain ⟨x, hx, rfl⟩ := hr
    rw [List.length_set, ih o x hx]
  | repeated body count ih =>
    intro o r hr
    rw [outcomes] at hr
    exact Quantifier.forall_mem_repeats (P := fun x => x.captures.length = o.captures.length)
      count (fun x hx y hy => (ih x y hy).trans hx) rfl r hr

/-! ## Among other groups -/

theorem set_among {captures : List (Option Span)} {slot : Nat} (h : slot < captures.length)
    (x : Option Span) :
    (before ++ captures ++ after).set (slot + before.length) x =
      before ++ captures.set slot x ++ after := by
  rw [List.set_append_left _ _ (by simp; omega), List.set_append_right _ _ (by omega),
    Nat.add_sub_cancel]

theorem outcomesAll_raise {ts : List Regex}
    (ih : ∀ t ∈ ts, ∀ o : Outcome, (∀ i ∈ t.slots, i < o.captures.length) →
      outcomes subject (t.raise before.length) (o.among before after) =
        (outcomes subject t o).map (.among before after))
    {o : Outcome} (hslots : ∀ i ∈ slotsOf ts, i < o.captures.length) :
    outcomesAll subject (raiseAll before.length ts) (o.among before after) =
      (outcomesAll subject ts o).map (.among before after) := by
  induction ts generalizing o with
  | nil => rfl
  | cons t rest ihts =>
    simp only [slotsOf, List.mem_append] at hslots
    rw [raiseAll, outcomesAll, outcomesAll, ih t (by simp) o fun i hi => hslots i (.inl hi)]
    symm
    refine Quantifier.map_flatMap_of_forall fun r hr => ?_
    refine (ihts (fun t ht => ih t (by simp [ht])) fun i hi => ?_).symm
    rw [length_captures_of_mem_outcomes t o r hr]
    exact hslots i (.inr hi)

theorem outcomesAny_raise {ts : List Regex}
    (ih : ∀ t ∈ ts, ∀ o : Outcome, (∀ i ∈ t.slots, i < o.captures.length) →
      outcomes subject (t.raise before.length) (o.among before after) =
        (outcomes subject t o).map (.among before after))
    {o : Outcome} (hslots : ∀ i ∈ slotsOf ts, i < o.captures.length) :
    outcomesAny subject (raiseAll before.length ts) (o.among before after) =
      (outcomesAny subject ts o).map (.among before after) := by
  induction ts with
  | nil => rfl
  | cons t rest ihts =>
    simp only [slotsOf, List.mem_append] at hslots
    rw [raiseAll, outcomesAny, outcomesAny, List.map_append,
      ih t (by simp) o fun i hi => hslots i (.inl hi),
      ihts (fun t ht => ih t (by simp [ht])) fun i hi => hslots i (.inr hi)]

/-- A tree among other groups has the same outcomes, and they leave the other groups alone. -/
theorem outcomes_raise (before after : List (Option Span)) (t : Regex) {o : Outcome}
    (hslots : ∀ i ∈ t.slots, i < o.captures.length) :
    outcomes subject (t.raise before.length) (o.among before after) =
      (outcomes subject t o).map (.among before after) := by
  induction t generalizing o with
  | atom a =>
    rw [raise, outcomes, outcomes, List.map_map]
    rfl
  | seq items ih =>
    rw [raise, outcomes, outcomes]
    exact outcomesAll_raise (fun t ht o => ih t ht) hslots
  | alt branches ih =>
    rw [raise, outcomes, outcomes]
    exact outcomesAny_raise (fun t ht o => ih t ht) hslots
  | charClass members ih =>
    rw [raise, outcomes, outcomes]
    exact outcomesAny_raise (fun t ht o => ih t ht) hslots
  | negation body ih =>
    rw [raise, outcomes, outcomes, ih hslots, List.isEmpty_map]
    split
    · rw [List.map_map]
      rfl
    · rfl
  | group slot body ih =>
    rw [slots, List.forall_mem_cons] at hslots
    rw [raise, outcomes, outcomes, ih hslots.2, List.map_map, List.map_map]
    refine List.map_congr_left fun r hr => ?_
    have hslot : slot < r.captures.length := by
      rw [length_captures_of_mem_outcomes body o r hr]
      exact hslots.1
    exact congrArg (Outcome.mk r.offset) (set_among hslot _)
  | repeated body count ih =>
    rw [raise, outcomes, outcomes]
    symm
    -- every round leaves the number of groups as it is, so that `ih` applies to the next one
    refine Quantifier.map_repeats (P := fun x => x.captures.length = o.captures.length) count
      (fun x hx y hy => (length_captures_of_mem_outcomes body x y hy).trans hx) ?_ ?_ rfl
    · intro x hx
      refine (ih fun i hi => ?_).symm
      rw [hx]
      exact hslots i hi
    · intro x _
      rfl

/-! ## Side by side -/

theorem outcomesAny_append (ts us : List Regex) (o : Outcome) :
    outcomesAny subject (ts ++ us) o = outcomesAny subject ts o ++ outcomesAny subject us o := by
  induction ts with
  | nil => rfl
  | cons t rest ih => rw [List.cons_append, outcomesAny, outcomesAny, ih, List.append_assoc]

theorem outcomesAny_branchList (t : Regex) (o : Outcome) :
    outcomesAny subject (branchList t) o = outcomes subject t o := by
  cases t with
  | alt branches => rw [outcomes, branchList]
  | _ => exact List.append_nil _

/-- Of two trees side by side, the outcomes of the first come before those of the second, and
the groups of the other tree take no part in any of them. -/
theorem outcomes_bar {s t : Regex} {m n : Nat} (hs : ∀ i ∈ s.slots, i < m)
    (ht : ∀ i ∈ t.slots, i < n) (b : Nat) :
    outcomes subject (.alt (branchList s ++ branchList (t.raise m)))
        ⟨b, List.replicate (m + n) none⟩ =
      (outcomes subject s ⟨b, List.replicate m none⟩).map
          (.among [] (List.replicate n none)) ++
        (outcomes subject t ⟨b, List.replicate n none⟩).map
          (.among (List.replicate m none) []) := by
  have hleft : outcomes subject (s.raise 0) _ = _ :=
    outcomes_raise [] (List.replicate n none) s (o := ⟨b, List.replicate m none⟩)
      (by simpa using hs)
  have hright : outcomes subject (t.raise _) _ = _ :=
    outcomes_raise (List.replicate m none) [] t (o := ⟨b, List.replicate n none⟩)
      (by simpa using ht)
  rw [outcomes, outcomesAny_append, outcomesAny_branchList, outcomesAny_branchList, ← hleft,
    ← hright]
  simp [Outcome.among, raise_zero, List.replicate_append_replicate]

end Regex

/-! ## Searching -/

/-- The result that stands first, the left one of two that stand at one place. -/
def leftmost {α : Type} (place : α → Nat) : Option α → Option α → Option α
  | some x, some y => if place x ≤ place y then some x else some y
  | some x, none => some x
  | none, y => y

theorem leftmost_of_le {α : Type} {place : α → Nat} {x : α} {r : Option α}
    (h : ∀ y, r = some y → place x ≤ place y) : leftmost place (some x) r = some x := by
  cases r with
  | none => rfl
  | some y => exact if_pos (h y rfl)

theorem leftmost_of_lt {α : Type} {place : α → Nat} {y : α} {r : Option α}
    (h : ∀ x, r = some x → place y < place x) : leftmost place r (some y) = some y := by
  cases r with
  | none => rfl
  | some x => exact if_neg (Nat.not_le.2 (h x rfl))

theorem leftmost_eq_none_iff {α : Type} {place : α → Nat} {r r' : Option α} :
    leftmost place r r' = none ↔ r = none ∧ r' = none := by
  cases r with
  | none => simp [leftmost]
  | some x =>
    cases r' with
    | none => simp [leftmost]
    | some y => by_cases h : place x ≤ place y <;> simp [leftmost, h]

/-- Looking for one of two things at each place, in order, is looking for both and taking what
stands first. -/
theorem findSome?_or {α : Type} {place : α → Nat} {l : List Nat} (hl : l.Pairwise (· < ·))
    {f g : Nat → Option α} (hf : ∀ b x, f b = some x → place x = b)
    (hg : ∀ b x, g b = some x → place x = b) :
    (l.findSome? fun b => (f b).or (g b)) = leftmost place (l.findSome? f) (l.findSome? g) := by
  induction l with
  | nil => rfl
  | cons a l ih =>
    obtain ⟨ha, hl⟩ := List.pairwise_cons.1 hl
    -- what is found in the rest of the list stands after `a`
    have hlater : ∀ h : Nat → Option α, (∀ b x, h b = some x → place x = b) →
        ∀ x, l.findSome? h = some x → a < place x := by
      intro h hh x hx
      obtain ⟨b, hb, hbx⟩ := List.exists_of_findSome?_eq_some hx
      rw [hh b x hbx]
      exact ha b hb
    rw [List.findSome?_cons, List.findSome?_cons, List.findSome?_cons]
    cases hfa : f a with
    | some x =>
      refine (leftmost_of_le fun y hy => ?_).symm
      rw [hf a x hfa]
      cases hga : g a with
      | some z =>
        rw [hga] at hy
        cases hy
        exact Nat.le_of_eq (hg a y hga).symm
      | none =>
        rw [hga] at hy
        exact Nat.le_of_lt (hlater g hg y hy)
    | none =>
      cases hga : g a with
      | some y =>
        refine (leftmost_of_lt fun x hx => ?_).symm
        rw [hg a y hga]
        exact hlater f hf x hx
      | none => exact ih hl

namespace Pattern

variable {text left right : String} {p q r : Pattern}

theorem lt_of_mem_slots (h : ofString text = .ok p) : ∀ i ∈ p.root.slots, i < p.captures.length := by
  intro i hi
  rw [(Regex.wellFormed_of_parse (parse_eq_ok h)).slots] at hi
  exact List.mem_range.1 hi

/-- A match has as many groups as its pattern. -/
theorem length_groups (h : ofString text = .ok p) {subject : String} {start : Nat} {m : Match}
    (hm : p.findFrom subject start = some m) : m.groups.length = p.captures.length := by
  have hgroups := map_findFrom h (fun _ groups => groups) subject start
  rw [hm, Option.map_some] at hgroups
  obtain ⟨b, -, hb⟩ := List.exists_of_findSome?_eq_some hgroups.symm
  obtain ⟨o, ho, hom⟩ := Option.map_eq_some_iff.1 hb
  rw [← hom, Regex.length_captures_of_mem_outcomes _ _ o (List.mem_of_head? ho)]
  exact List.length_replicate

/-- A text that can be read is refused only if it is too large. -/
theorem exists_ofString_of_parse {parsed : Parsed} (h : Regex.parse text = .ok parsed)
    (hsize : ofString text ≠ .error (.tooLarge maxVertices)) : ∃ p, ofString text = .ok p := by
  by_cases hestimate : saturatingAdd parsed.root.estimate 3 ≤ maxVertices
  · obtain ⟨p, hp, -⟩ := exists_ofString_eq_ok h hestimate
    exact ⟨p, hp⟩
  · refine absurd ?_ hsize
    unfold ofString build
    rw [h]
    simp only [Program.compile, if_pos (Nat.lt_of_not_le hestimate)]

/-! ## A bar between two patterns -/

theorem parse_bar (hp : ofString left = .ok p) (hq : ofString right = .ok q) :
    Regex.parse (left ++ "|" ++ right) =
      .ok ⟨.alt (p.root.branchList ++ (q.root.raise p.captures.length).branchList),
        q.captures.length + p.captures.length⟩ := by
  rw [Regex.parse_bar (parse_eq_ok hp), parse_eq_ok hq]
  rfl

/-- What is found with a bar between two patterns: of what is found of the two, what stands
first.  The groups of the other pattern take no part. -/
theorem map_findFrom_bar (hp : ofString left = .ok p) (hq : ofString right = .ok q)
    (hr : ofString (left ++ "|" ++ right) = .ok r) (subject : String) (start : Nat) :
    ((r.findFrom subject start).map fun m => (m.span, m.groups)) =
      leftmost (fun x => x.1.start)
        ((p.findFrom subject start).map fun m =>
          (m.span, m.groups ++ List.replicate q.captures.length none))
        ((q.findFrom subject start).map fun m =>
          (m.span, List.replicate p.captures.length none ++ m.groups)) := by
  have hparse := parse_bar hp hq
  rw [parse_eq_ok hr, Except.ok.injEq, Parsed.mk.injEq, Nat.add_comm q.captures.length] at hparse
  obtain ⟨hroot, hlength⟩ := hparse
  have hplace : ∀ (t : Regex) (groups : Nat) (f : List (Option Span) → List (Option Span)) b x,
      ((t.outcomes subject ⟨b, List.replicate groups none⟩).head?.map fun o =>
        (⟨b, o.offset⟩, f o.captures)) = some x → (x : Span × List (Option Span)).1.start = b := by
    intro t groups f b x hx
    obtain ⟨o, -, rfl⟩ := Option.map_eq_some_iff.1 hx
    rfl
  rw [map_findFrom hr (fun s gs => (s, gs)),
    map_findFrom hp (fun s gs => (s, gs ++ List.replicate q.captures.length none)),
    map_findFrom hq (fun s gs => (s, List.replicate p.captures.length none ++ gs)),
    ← findSome?_or (Text.boundariesFrom_pairwise subject start)
      (hplace p.root _ (· ++ List.replicate q.captures.length none))
      (hplace q.root _ (List.replicate p.captures.length none ++ ·)),
    hroot, hlength]
  congr
  funext b
  rw [Regex.outcomes_bar (lt_of_mem_slots hp) (lt_of_mem_slots hq), List.head?_append,
    Option.map_or, List.head?_map, List.head?_map]
  simp [Outcome.among, Function.comp_def]

/-- **Leftmost, and left before right.**  With a bar between two patterns there is a match if
there is one of either.  It is that of the left pattern if that begins no later than the other,
and else that of the right one; the groups of the other pattern are unset. -/
theorem findFrom_bar (hp : ofString left = .ok p) (hq : ofString right = .ok q)
    (hsize : ofString (left ++ "|" ++ right) ≠ .error (.tooLarge maxVertices)) :
    ∃ r, ofString (left ++ "|" ++ right) = .ok r ∧
      r.captures.length = p.captures.length + q.captures.length ∧ ∀ subject start,
      (r.findFrom subject start = none ↔
        p.findFrom subject start = none ∧ q.findFrom subject start = none) ∧
      (∀ m, p.findFrom subject start = some m →
        (∀ m', q.findFrom subject start = some m' → m.span.start ≤ m'.span.start) →
        m.groups.length = p.captures.length ∧
          ∃ mr, r.findFrom subject start = some mr ∧ mr.span = m.span ∧
            mr.groups = m.groups ++ List.replicate q.captures.length none) ∧
      (∀ m', q.findFrom subject start = some m' →
        (∀ m, p.findFrom subject start = some m → m'.span.start < m.span.start) →
        m'.groups.length = q.captures.length ∧
          ∃ mr, r.findFrom subject start = some mr ∧ mr.span = m'.span ∧
            mr.groups = List.replicate p.captures.length none ++ m'.groups) := by
  have hparse := parse_bar hp hq
  obtain ⟨r, hr⟩ := exists_ofString_of_parse hparse hsize
  have hlength : r.captures.length = p.captures.length + q.captures.length := by
    rw [parse_eq_ok hr, Except.ok.injEq, Parsed.mk.injEq] at hparse
    rw [hparse.2, Nat.add_comm]
  refine ⟨r, hr, hlength, fun subject start => ?_⟩
  have hfound := map_findFrom_bar hp hq hr subject start
  refine ⟨?_, ?_, ?_⟩
  · rw [← Option.map_eq_none_iff, hfound, leftmost_eq_none_iff,
      Option.map_eq_none_iff, Option.map_eq_none_iff]
  · intro m hm hle
    refine ⟨length_groups hp hm, ?_⟩
    rw [hm, Option.map_some, leftmost_of_le] at hfound
    · obtain ⟨mr, hmr, hpair⟩ := Option.map_eq_some_iff.1 hfound
      exact ⟨mr, hmr, congrArg Prod.fst hpair, congrArg Prod.snd hpair⟩
    · intro y hy
      obtain ⟨m', hm', rfl⟩ := Option.map_eq_some_iff.1 hy
      exact hle m' hm'
  · intro m' hm' hlt
    refine ⟨length_groups hq hm', ?_⟩
    rw [hm', Option.map_some, leftmost_of_lt] at hfound
    · obtain ⟨mr, hmr, hpair⟩ := Option.map_eq_some_iff.1 hfound
      exact ⟨mr, hmr, congrArg Prod.fst hpair, congrArg Prod.snd hpair⟩
    · intro y hy
      obtain ⟨m, hm, rfl⟩ := Option.map_eq_some_iff.1 hy
      exact hlt m hm

/-- A loop and a group that are passed over for the second pattern, which begins further left, and
that are taken where both begin at one place. -/
theorem findFrom_bar_passed_over :
    ∃ p q r, ofString "(a|b)*c|(d)" = .ok p ∧ ofString "(b)(c)?" = .ok q ∧
      ofString "(a|b)*c|(d)|(b)(c)?" = .ok r ∧
      ((r.findFrom "ébdabbcd" 0).map fun m => (m.span, m.groups)) =
        some (⟨2, 3⟩, [none, none, some ⟨2, 3⟩, none]) ∧
      ((r.findFrom "ébdabbcd" 5).map fun m => (m.span, m.groups)) =
        some (⟨5, 8⟩, [some ⟨6, 7⟩, none, none, none]) := by
  let s : Regex := .alt [
    .seq [.repeated (.group 0 (.alt [.seq [.char 'a'], .seq [.char 'b']])) ⟨0, none, false⟩,
      .char 'c'],
    .seq [.group 1 (.seq [.char 'd'])]]
  let t : Regex := .seq [.group 0 (.seq [.char 'b']),
    .repeated (.group 1 (.seq [.char 'c'])) ⟨0, some 1, false⟩]
  have hs : Regex.parse "(a|b)*c|(d)" = .ok ⟨s, 2⟩ := rfl
  have ht : Regex.parse "(b)(c)?" = .ok ⟨t, 2⟩ := rfl
  have hbar : Regex.parse "(a|b)*c|(d)|(b)(c)?" =
    .ok ⟨.alt (s.branchList ++ (t.raise 2).branchList), 4⟩ := rfl
  obtain ⟨p, hp, hproot, hpcaptures⟩ := exists_ofString_eq_ok hs (by decide)
  obtain ⟨q, hq, hqroot, hqcaptures⟩ := exists_ofString_eq_ok ht (by decide)
  have hsize : ofString "(a|b)*c|(d)|(b)(c)?" ≠ .error (.tooLarge maxVertices) := by
    obtain ⟨r, hr, -⟩ := exists_ofString_eq_ok hbar (by decide)
    rw [hr]
    exact nofun
  obtain ⟨r, hr, -, hfind⟩ := findFrom_bar hp hq hsize
  refine ⟨p, q, r, hp, hq, hr, ?_, ?_⟩
  · have hfirst : ((p.findFrom "ébdabbcd" 0).map fun m => m.span.start) = some 3 := by
      rw [map_findFrom hp fun s _ => s.start, hproot, hpcaptures]
      decide +kernel
    have hsecond : ((q.findFrom "ébdabbcd" 0).map fun m => (m.span, m.groups)) =
        some (⟨2, 3⟩, [some ⟨2, 3⟩, none]) := by
      rw [map_findFrom hq fun s gs => (s, gs), hqroot, hqcaptures]
      decide +kernel
    obtain ⟨m', hm', hfound⟩ := Option.map_eq_some_iff.1 hsecond
    obtain ⟨hspan, hgroups⟩ := Prod.mk.inj hfound
    obtain ⟨-, mr, hmr, hmrspan, hmrgroups⟩ := (hfind "ébdabbcd" 0).2.2 m' hm' fun m hm => by
      rw [hm, Option.map_some, Option.some.injEq] at hfirst
      have hstart : m'.span.start = 2 := congrArg Span.start hspan
      omega
    rw [hmr, Option.map_some, hmrspan, hmrgroups, hspan, hgroups, hpcaptures]
    rfl
  · have hfirst : ((p.findFrom "ébdabbcd" 5).map fun m => (m.span, m.groups)) =
        some (⟨5, 8⟩, [some ⟨6, 7⟩, none]) := by
      rw [map_findFrom hp fun s gs => (s, gs), hproot, hpcaptures]
      decide +kernel
    have hsecond : ((q.findFrom "ébdabbcd" 5).map fun m => m.span.start) = some 5 := by
      rw [map_findFrom hq fun s _ => s.start, hqroot, hqcaptures]
      decide +kernel
    obtain ⟨m, hm, hfound⟩ := Option.map_eq_some_iff.1 hfirst
    obtain ⟨hspan, hgroups⟩ := Prod.mk.inj hfound
    obtain ⟨-, mr, hmr, hmrspan, hmrgroups⟩ := (hfind "ébdabbcd" 5).2.1 m hm fun m' hm' => by
      rw [hm', Option.map_some, Option.some.injEq] at hsecond
      have hstart : m.span.start = 5 := congrArg Span.start hspan
      omega
    rw [hmr, Option.map_some, hmrspan, hmrgroups, hspan, hgroups, hqcaptures]
    rfl

end Pattern

end Backtrack
