import Backtrack.Pattern
import Backtrack.Proofs.Reading
import Backtrack.Proofs.SizeLimit

/-!
# The size limit is not far off

The estimate of a tree counts two vertices more than its items for each sequence and six for each
repetition, though a block often needs none or two, and repetitions multiply what is counted too
much.  Nesting does not make it worse (`Regex.weight_le_four_mul_size`):

    a whole tree, or the body of a group     t.weight ≤ 4 * size false t
    an item                                  t.weight + 2 ≤ 4 * size false t

An item has two to spare, which pay for the sequence around it, and each copy of it brings two
more.

Main statement: `Pattern.accepted_of_size_le`, a pattern whose graph has at most a quarter of the
vertices that the limit allows is never refused for its size.
-/

namespace Backtrack

namespace Regex

/-! ## Lists of trees -/

/-- The two vertices counted for trees in a row are paid by any one of them, or by the vertex that
stands for none. -/
theorem weightOf_le_sizeChain {negated : Bool} {ts : List Regex}
    (h : ∀ t ∈ ts, t.weight + 2 ≤ 4 * size negated t) :
    2 + weightOf ts ≤ 4 * sizeChain negated ts := by
  induction ts with
  | nil => exact Nat.le_add_right 2 2
  | cons t rest ih =>
    have hfirst := h t (by simp)
    cases rest with
    | nil =>
      rw [weightOf, weightOf, sizeChain]
      omega
    | cons u rest =>
      have hrest := ih fun t ht => h t (by simp [ht])
      rw [weightOf, sizeChain]
      omega

/-- Trees side by side have the two vertices around them to spare. -/
theorem weightOf_le_sizeSplit {negated : Bool} {ts : List Regex}
    (h : ∀ t ∈ ts, t.weight ≤ 4 * size negated t) :
    8 + weightOf ts ≤ 4 * sizeSplit negated ts := by
  induction ts with
  | nil => exact Nat.le_refl 8
  | cons t rest ih =>
    have hfirst := h t (by simp)
    have hrest := ih fun t ht => h t (by simp [ht])
    rw [weightOf, sizeSplit]
    omega

/-! ## Trees of patterns -/

/-- A class has more than two to spare, also if it is negated. -/
theorem weightOf_class_le {members : List Regex} (h : isClass members = true) :
    6 + weightOf members ≤ 4 * sizeSplit false members ∧
      2 + weightOf members ≤ 4 * sizeChain true members := by
  obtain ⟨-, atoms, rfl, -⟩ := isClass_iff.1 h
  have hatom : ∀ negated, ∀ t ∈ atoms.map Regex.atom, t.weight + 2 ≤ 4 * size negated t := by
    intro negated t ht
    obtain ⟨a, -, rfl⟩ := List.mem_map.1 ht
    exact Nat.le_succ 3
  have hsplit := weightOf_le_sizeSplit fun t ht => Nat.le_of_add_right_le (hatom false t ht)
  exact ⟨by omega, weightOf_le_sizeChain (hatom true)⟩

/-- Copies of an item have two to spare for each of them. -/
theorem copies_mul_weight_le {copies rounds weight size : Nat} (hcopies : copies ≤ rounds)
    (hbody : weight + 2 ≤ 4 * size) : copies * weight ≤ 4 * (rounds * size) := by
  calc
    copies * weight ≤ rounds * weight := Nat.mul_le_mul_right weight hcopies
    _ ≤ rounds * (4 * size) := Nat.mul_le_mul_left rounds (by omega)
    _ = 4 * (rounds * size) := Nat.mul_left_comm rounds 4 size

/-- The tree of a pattern weighs at most four times what its block needs, and an item two less than
that. -/
theorem weight_le_four_mul_size (t : Regex) :
    (isItem t = true → t.weight + 2 ≤ 4 * size false t) ∧
      (isBody t = true → t.weight ≤ 4 * size false t) := by
  induction t with
  | atom a => exact ⟨fun _ => Nat.le_succ 3, fun h => absurd h Bool.false_ne_true⟩
  | seq items ih =>
    refine ⟨fun h => absurd h Bool.false_ne_true, fun h => ?_⟩
    exact weightOf_le_sizeChain fun t ht => (ih t ht).1 (areItems_iff.1 h t ht)
  | alt branches ih =>
    refine ⟨fun h => absurd h Bool.false_ne_true, fun h => ?_⟩
    rw [isBody, Bool.and_eq_true] at h
    have hbranch : ∀ t ∈ branches, t.weight ≤ 4 * size false t := by
      intro t ht
      obtain ⟨items, rfl, hitems⟩ := areBranches_iff.1 h.2 t ht
      exact (ih _ ht).2 hitems
    have hsplit := weightOf_le_sizeSplit hbranch
    rw [weight, size, if_neg Bool.false_ne_true]
    omega
  | charClass members =>
    refine ⟨fun h => ?_, fun h => absurd h Bool.false_ne_true⟩
    obtain ⟨hsplit, -⟩ := weightOf_class_le h
    rw [weight, size, if_neg Bool.false_ne_true]
    omega
  | negation body =>
    refine ⟨fun h => ?_, fun h => absurd h Bool.false_ne_true⟩
    cases body with
    | charClass members =>
      obtain ⟨-, hchain⟩ := weightOf_class_le h
      rw [weight, weight, size, if_neg Bool.false_ne_true, size, if_pos rfl]
      omega
    | _ => cases h
  | group slot body ih =>
    refine ⟨fun h => ?_, fun h => absurd h Bool.false_ne_true⟩
    have hbody := ih.2 h
    rw [weight, size]
    omega
  | repeated body count ih =>
    refine ⟨fun h => ?_, fun h => absurd h Bool.false_ne_true⟩
    rw [isItem, Bool.and_eq_true] at h
    have hbody := ih.1 h.1
    obtain ⟨lo, most, isLazy⟩ := count
    rw [weight]
    cases most with
    | some hi =>
      have hcopies := copies_mul_weight_le
        (show (Quantifier.mk lo (some hi) isLazy).copies ≤ max lo hi from
          Nat.le_of_eq (Nat.max_comm hi lo)) hbody
      rw [size]
      omega
    | none =>
      have hcopies := copies_mul_weight_le
        (show (Quantifier.mk lo none isLazy).copies ≤ lo + 1 from Nat.min_le_left _ _) hbody
      rw [size]
      omega

end Regex

/-- **The limit is not far off.**  The estimate of the tree of a pattern is at most four times the
number of vertices of its block, wherever the block stands.  So a pattern is accepted if its graph,
with the three vertices around the block, has at most 62500 vertices. -/
theorem Pattern.accepted_of_size_le {text : String} {s : Parsed} (h : Regex.parse text = .ok s) :
    (∀ base loop next, s.root.estimate ≤ 4 * (s.root.block false base loop next).length) ∧
      ((s.root.graph s.groups).size ≤ 62500 → ∃ p, ofString text = .ok p ∧ p.root = s.root) := by
  have hweight : s.root.weight ≤ 4 * s.root.size false :=
    s.root.weight_le_four_mul_size.2 (Regex.wellFormed_of_parse h).body
  have hestimate : s.root.estimate ≤ 4 * s.root.size false := by
    rw [s.root.estimate_eq_min_weight]
    exact Nat.le_trans (Nat.min_le_left _ _) hweight
  refine ⟨fun base loop next => ?_, fun hsize => ?_⟩
  · rw [Regex.length_block]
    exact hestimate
  · rw [Regex.size_graph] at hsize
    have hlimit : saturatingAdd s.root.estimate 3 ≤ maxVertices := by
      simp only [saturatingAdd, maxVertices]
      omega
    obtain ⟨p, hp, hroot, -⟩ := exists_ofString_eq_ok h hlimit
    exact ⟨p, hp, hroot⟩

/-- Repetitions in a repetition, one of which makes no copies: the estimate is more than twice as
large as the graph, and the pattern is accepted. -/
theorem Pattern.accepted_of_size_le_copies :
    ∃ s, Regex.parse "(a{0}b??){8900}" = .ok s ∧ (s.root.graph s.groups).size = 62305 ∧
      s.root.estimate = 151308 ∧ ∃ p, ofString "(a{0}b??){8900}" = .ok p := by
  let t : Regex := .seq [.repeated (.group 0 (.seq [
    .repeated (.char 'a') ⟨0, some 0, false⟩,
    .repeated (.char 'b') ⟨0, some 1, true⟩])) ⟨8900, some 8900, false⟩]
  have hparse : Regex.parse "(a{0}b??){8900}" = .ok ⟨t, 1⟩ := rfl
  have hsize : (t.graph 1).size = 62305 := by
    rw [Regex.size_graph]
    decide
  obtain ⟨p, hp, -⟩ := (accepted_of_size_le hparse).2 (by rw [hsize]; decide)
  exact ⟨_, hparse, hsize, by decide, p, hp⟩

end Backtrack
