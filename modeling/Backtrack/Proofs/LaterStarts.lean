import Backtrack.Proofs.Outcomes

/-!
# Searching from further on

A search makes an attempt at one boundary after the other, and what an attempt comes to
depends on nothing but the boundary (`Pattern.findFrom_eq`).  So a search that begins further
on makes the same attempts, less those that come before its start.

Main statement: `Pattern.findFrom_of_le`, searches of one subject agree as far as both look:

    nothing from `k` on             nothing from any later offset on
    a match `m` from `k` on         the same `m` from every offset between `k` and where `m` begins
-/

namespace Backtrack

/-! ## The first boundary at which there is something -/

namespace Text

variable {α : Type} {s : String} {i j : Nat} {f : Nat → Option α} {r : α}

/-- What is found is what there is at the first boundary where there is something. -/
theorem findSome?_boundariesFrom_eq_some_iff :
    (boundariesFrom s i).findSome? f = some r ↔
      ∃ b, i ≤ b ∧ isBoundary s b = true ∧ f b = some r ∧
        ∀ c, i ≤ c → c < b → isBoundary s c = true → f c = none := by
  constructor
  · exact exists_of_findSome?_boundariesFrom
  · rintro ⟨b, hib, hb, hfb, hfirst⟩
    cases hfound : (boundariesFrom s i).findSome? f with
    | none =>
      rw [findSome?_boundariesFrom_eq_none] at hfound
      rw [hfound b hib hb] at hfb
      cases hfb
    | some x =>
      obtain ⟨c, hic, hc, hfc, hfirst'⟩ := exists_of_findSome?_boundariesFrom hfound
      have hbc : c = b := by
        rcases Nat.lt_trichotomy c b with hlt | heq | hgt
        · rw [hfirst c hic hlt hc] at hfc
          cases hfc
        · exact heq
        · rw [hfirst' b hib hgt hb] at hfb
          cases hfb
      rw [← hfc, hbc, hfb]

/-- Where nothing is found, nothing is found from further on. -/
theorem findSome?_boundariesFrom_eq_none_of_le (hij : i ≤ j)
    (h : (boundariesFrom s i).findSome? f = none) : (boundariesFrom s j).findSome? f = none := by
  rw [findSome?_boundariesFrom_eq_none] at h ⊢
  intro b hjb hb
  exact h b (Nat.le_trans hij hjb) hb

/-- What is found is found from further on as well, if it is not passed over: `place` tells at
which boundary each thing is. -/
theorem findSome?_boundariesFrom_of_le (place : α → Nat)
    (hplace : ∀ b x, f b = some x → place x = b) (hij : i ≤ j)
    (h : (boundariesFrom s i).findSome? f = some r) :
    i ≤ place r ∧ (j ≤ place r → (boundariesFrom s j).findSome? f = some r) := by
  obtain ⟨b, hib, hb, hfb, hfirst⟩ := exists_of_findSome?_boundariesFrom h
  have hr : place r = b := hplace b r hfb
  rw [hr]
  refine ⟨hib, fun hjb => ?_⟩
  apply findSome?_boundariesFrom_eq_some_iff.2
  exact ⟨b, hjb, hb, hfb, fun c hjc => hfirst c (Nat.le_trans hij hjc)⟩

end Text

/-! ## Searching -/

namespace Pattern

variable {text : String} {p : Pattern}

/-- What the attempt at boundary `b` comes to. -/
def matchAt (p : Pattern) (subject : String) (b : Nat) : Option Match :=
  (p.root.completions false (.fresh subject b p.captures.length 0)).head?.map
    (.ofState p.source p.captures)

/-- A match begins where its attempt does. -/
theorem start_of_matchAt {subject : String} {b : Nat} {m : Match}
    (h : p.matchAt subject b = some m) : m.span.start = b := by
  obtain ⟨σ, hσ, rfl⟩ := Option.map_eq_some_iff.1 h
  exact (Regex.follows_of_mem_completions (List.mem_of_head? hσ)).start

/-- A search tells what the first attempt comes to that comes to anything. -/
theorem findFrom_eq (h : ofString text = .ok p) (subject : String) (start : Nat) :
    p.findFrom subject start =
      (Text.boundariesFrom subject start).findSome? (p.matchAt subject) := by
  obtain ⟨groups, hparse, hcompile, -, -⟩ := ofString_eq_ok_iff.1 h
  obtain rfl : p.captures.length = groups :=
    congrArg Parsed.groups (Except.ok.inj ((parse_eq_ok h).symm.trans hparse))
  -- a match shows nothing of the marks of loops
  have hmarks : (p.program.run subject start).map (Match.ofState p.source p.captures) =
      ((p.program.run subject start).map State.unmarked).map (.ofState p.source p.captures) := by
    rw [Option.map_map]
    rfl
  unfold findFrom
  rw [hmarks, Program.run_of_compile hcompile, List.map_findSome?]
  rfl

/-- **Searches agree.**  From further on there is no match if there is none from `k` on; and a
match from `k` on, which begins at `k` or later, is also the match from each offset up to the one
at which it begins. -/
theorem findFrom_of_le (h : ofString text = .ok p) (subject : String) {k k' : Nat} (hle : k ≤ k') :
    (p.findFrom subject k = none → p.findFrom subject k' = none) ∧
      ∀ m, p.findFrom subject k = some m →
        k ≤ m.span.start ∧ (k' ≤ m.span.start → p.findFrom subject k' = some m) := by
  rw [findFrom_eq h, findFrom_eq h]
  constructor
  · exact Text.findSome?_boundariesFrom_eq_none_of_le hle
  · intro m hm
    exact Text.findSome?_boundariesFrom_of_le (fun m : Match => m.span.start)
      (fun b m => start_of_matchAt) hle hm

/-- The second line of a subject, looked for from inside a character of the first line; nothing
from inside that match on, and so nothing from past the end on. -/
theorem findFrom_of_le_second_line :
    ∃ p m, ofString "^(a|é)*b" = .ok p ∧ p.findFrom "xé\néab" 0 = some m ∧
      m.span = ⟨4, 8⟩ ∧ m.groups = [some ⟨6, 7⟩] ∧ p.findFrom "xé\néab" 2 = some m ∧
      p.findFrom "xé\néab" 5 = none ∧ p.findFrom "xé\néab" 9 = none := by
  let t : Regex := .seq [.atom .lineStart,
    .repeated (.group 0 (.alt [.seq [.char 'a'], .seq [.char 'é']])) ⟨0, none, false⟩, .char 'b']
  have hparse : Regex.parse "^(a|é)*b" = .ok ⟨t, 1⟩ := rfl
  obtain ⟨p, hp, hroot, hcaptures⟩ := exists_ofString_eq_ok hparse (by decide)
  have hfound : ((p.findFrom "xé\néab" 0).map fun m => (m.span, m.groups)) =
      some (⟨4, 8⟩, [some ⟨6, 7⟩]) := by
    rw [map_findFrom hp fun s gs => (s, gs), hroot, hcaptures]
    decide +kernel
  have hnone : ((p.findFrom "xé\néab" 5).map fun m => m.span) = none := by
    rw [map_findFrom hp fun s _ => s, hroot, hcaptures]
    decide +kernel
  obtain ⟨m, hm, hseen⟩ := Option.map_eq_some_iff.1 hfound
  obtain ⟨hspan, hgroups⟩ := Prod.mk.inj hseen
  rw [Option.map_eq_none_iff] at hnone
  have hagain := ((findFrom_of_le hp "xé\néab" (show 0 ≤ 2 by decide)).2 m hm).2
  rw [hspan] at hagain
  exact ⟨p, m, hp, hm, hspan, hgroups, hagain (by decide), hnone,
    (findFrom_of_le hp "xé\néab" (show 5 ≤ 9 by decide)).1 hnone⟩

end Pattern

end Backtrack
