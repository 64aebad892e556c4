import Backtrack.Graph.Block
import Backtrack.Program

/-!
# The size limit is sound

A tree is refused or accepted by its estimate alone, before anything is built.  Main
statement: `Program.size_le_estimate`, a tree that is accepted has a graph within its
estimate, and the estimate is within the limit:

    p.graph.size ≤ t.estimate + 3 ≤ maxVertices

`Regex.weight` is the estimate in numbers without a greatest one.  The two agree up to the
greatest word (`estimate_eq_min_weight`): stopping there in between makes no difference,
also where a body that is too large is copied no times.  And a block never has more
vertices than its tree weighs (`size_le_weight`), unless the tree weighs so much that the
number of copies has been cut.
-/

namespace Backtrack

namespace Regex

mutual

/-- The estimate of a tree, with nothing cut off but the number of copies. -/
def weight : Regex → Nat
  | .atom _ => 1
  | .seq items => 2 + weightOf items
  | .alt branches => 2 + weightOf branches
  | .charClass members => 2 + weightOf members
  | .negation body => weight body + 1
  | .group _ body => weight body + 2
  | .repeated body count => count.copies * weight body + 6

/-- The weight of several trees. -/
def weightOf : List Regex → Nat
  | [] => 0
  | t :: rest => weight t + weightOf rest

end

/-! ## Words that stop at the greatest one -/

/-- Cutting off an operand changes nothing. -/
theorem saturatingAdd_min (m n : Nat) : saturatingAdd (min m maxWord) n = min (m + n) maxWord := by
  unfold saturatingAdd
  omega

/-- Cutting off a factor changes nothing: no copies of it are none, and one copy is as much
as any number of them. -/
theorem saturatingMul_min (k m : Nat) : saturatingMul k (min m maxWord) = min (k * m) maxWord := by
  unfold saturatingMul
  rcases Nat.eq_zero_or_pos k with rfl | hpos
  · rw [Nat.zero_mul, Nat.zero_mul]
  · rcases Nat.le_total m maxWord with hle | hle
    · rw [Nat.min_eq_left hle]
    · have hword : maxWord ≤ k * maxWord := Nat.le_mul_of_pos_left maxWord hpos
      have hproduct : maxWord ≤ k * m := Nat.le_trans hle (Nat.le_mul_of_pos_left m hpos)
      rw [Nat.min_eq_right hle, Nat.min_eq_right hword, Nat.min_eq_right hproduct]

theorem estimateAll_eq_min {ts : List Regex} (h : ∀ t ∈ ts, t.estimate = min t.weight maxWord)
    {sum total : Nat} (hsum : sum = min total maxWord) :
    estimateAll ts sum = min (total + weightOf ts) maxWord := by
  induction ts generalizing sum total with
  | nil => simpa [estimateAll, weightOf] using hsum
  | cons t rest ih =>
    have hnext : saturatingAdd sum t.estimate = min (total + t.weight) maxWord := by
      rw [hsum, h t (by simp), saturatingAdd_min]
      omega
    rw [estimateAll, ih (fun t ht => h t (by simp [ht])) hnext, weightOf, Nat.add_assoc]

/-- The estimate is the weight, or the greatest word if the tree weighs more. -/
theorem estimate_eq_min_weight (t : Regex) : t.estimate = min t.weight maxWord := by
  have htwo : 2 = min 2 maxWord := rfl
  induction t with
  | atom a => rfl
  | seq items ih => exact estimateAll_eq_min ih htwo
  | alt branches ih => exact estimateAll_eq_min ih htwo
  | charClass members ih => exact estimateAll_eq_min ih htwo
  | negation body ih => rw [estimate, weight, ih, saturatingAdd_min]
  | group slot body ih => rw [estimate, weight, ih, saturatingAdd_min]
  | repeated body count ih => rw [estimate, weight, ih, saturatingMul_min, saturatingAdd_min]

/-! ## Weights and sizes -/

theorem one_le_weight (t : Regex) : 1 ≤ t.weight := by
  cases t <;> rw [weight] <;> omega

theorem weight_le_weightOf {t : Regex} {ts : List Regex} (h : t ∈ ts) :
    t.weight ≤ weightOf ts := by
  induction ts with
  | nil => cases h
  | cons u rest ih =>
    rw [weightOf]
    rcases List.mem_cons.1 h with rfl | h
    · omega
    · have := ih h
      omega

theorem sizeSplit_le_weightOf {negated : Bool} {ts : List Regex}
    (h : ∀ t ∈ ts, size negated t ≤ t.weight) : sizeSplit negated ts ≤ 2 + weightOf ts := by
  induction ts with
  | nil => exact Nat.le_refl 2
  | cons t rest ih =>
    have hfirst := h t (by simp)
    have hrest := ih fun t ht => h t (by simp [ht])
    rw [sizeSplit, weightOf]
    omega

/-- Trees in a row need even less than trees side by side. -/
theorem sizeChain_le_sizeSplit (negated : Bool) (ts : List Regex) :
    sizeChain negated ts ≤ sizeSplit negated ts := by
  induction ts with
  | nil => exact Nat.le_succ 1
  | cons t rest ih =>
    cases rest with
    | nil =>
      rw [sizeChain, sizeSplit]
      omega
    | cons u rest =>
      rw [sizeChain, sizeSplit]
      omega

/-- The vertices of a list of trees, in a row or side by side. -/
theorem size_list_le (negated : Bool) {ts : List Regex}
    (ih : ∀ t ∈ ts, t.weight < maxBound → size negated t ≤ t.weight)
    (h : 2 + weightOf ts < maxBound) :
    sizeChain negated ts ≤ 2 + weightOf ts ∧ sizeSplit negated ts ≤ 2 + weightOf ts := by
  have hsplit : sizeSplit negated ts ≤ 2 + weightOf ts := by
    refine sizeSplit_le_weightOf fun t ht => ih t ht ?_
    have := weight_le_weightOf ht
    omega
  exact ⟨Nat.le_trans (sizeChain_le_sizeSplit negated ts) hsplit, hsplit⟩

/-- Copies of a body need no more than they weigh, if there are as many as are counted. -/
theorem copies_le {copies k weight size : Nat} (hcopies : copies = k ∨ maxBound ≤ copies)
    (hpos : 1 ≤ weight) (hbody : weight < maxBound → size ≤ weight)
    (h : copies * weight < maxBound) : k * size ≤ copies * weight := by
  have hfew : copies ≤ copies * weight := Nat.le_mul_of_pos_right copies hpos
  obtain rfl : copies = k := hcopies.resolve_right (by omega)
  rcases Nat.eq_zero_or_pos copies with rfl | hsome
  · rw [Nat.zero_mul]
    exact Nat.zero_le _
  · have hweight : weight ≤ copies * weight := Nat.le_mul_of_pos_left weight hsome
    exact Nat.mul_le_mul_left copies (hbody (by omega))

/-- A block has at most as many vertices as its tree weighs, in either mode. -/
theorem size_le_weight {t : Regex} (negated : Bool) (h : t.weight < maxBound) :
    size negated t ≤ t.weight := by
  induction t generalizing negated with
  | atom a => exact Nat.le_refl 1
  | seq items ih =>
    have hlist := size_list_le negated (fun t ht => ih t ht negated) h
    rw [size]
    split
    · exact hlist.2
    · exact hlist.1
  | alt branches ih =>
    have hlist := size_list_le negated (fun t ht => ih t ht negated) h
    rw [size]
    split
    · exact hlist.1
    · exact hlist.2
  | charClass members ih =>
    have hlist := size_list_le negated (fun t ht => ih t ht negated) h
    rw [size]
    split
    · exact hlist.1
    · exact hlist.2
  | negation body ih =>
    rw [weight] at h ⊢
    rw [size]
    split
    · have := ih false (by omega)
      omega
    · have := ih true (by omega)
      omega
  | group slot body ih =>
    rw [weight] at h ⊢
    have := ih negated (by omega)
    rw [size]
    omega
  | repeated body count ih =>
    obtain ⟨lo, most, isLazy⟩ := count
    rw [weight] at h ⊢
    have hrounds := fun k hk =>
      copies_le (k := k) hk (one_le_weight body) (ih negated) (Nat.lt_of_add_right_lt h)
    cases most with
    | some hi =>
      have := hrounds (max lo hi) (.inl (Nat.max_comm hi lo))
      rw [size]
      omega
    | none =>
      have := hrounds (lo + 1) (by simp only [Quantifier.copies]; omega)
      rw [size]
      omega

/-- The graph of a tree has three vertices besides the block of the tree. -/
theorem size_graph (t : Regex) (captures : Nat) :
    (t.graph captures).size = size false t + 3 := by
  simp [Graph.size, graph, length_block]

end Regex

/-- What weighs no more than a tree that is compiled can be compiled too, whatever number of groups
is remembered. -/
theorem Program.exists_compile_of_weight_le {t u : Regex} {captures : Nat} {p : Program}
    (h : compile t captures = .ok p) (hweight : u.weight ≤ t.weight) (m : Nat) :
    ∃ q, compile u m = .ok q := by
  have hlimit : ¬ maxVertices < saturatingAdd t.estimate 3 := by
    intro hlarge
    rw [compile, if_pos hlarge] at h
    cases h
  refine ⟨_, if_neg fun hlarge => hlimit ?_⟩
  rw [Regex.estimate_eq_min_weight] at hlarge ⊢
  simp only [saturatingAdd, maxVertices, maxWord] at hlarge ⊢
  omega

/-- **The limit is sound.**  A tree that is compiled has a graph within its estimate, and the
estimate is within the limit.  It does not matter in which mode the tree is read. -/
theorem Program.size_le_estimate {t : Regex} {captures : Nat} {p : Program}
    (h : compile t captures = .ok p) :
    p.graph.size ≤ t.estimate + 3 ∧ t.estimate + 3 ≤ maxVertices ∧
      ∀ negated base loop next, (t.block negated base loop next).length ≤ t.estimate := by
  have hlimit : t.estimate + 3 ≤ maxVertices := by
    unfold compile at h
    split at h
    · cases h
    · next hle =>
      simp only [saturatingAdd, maxVertices, maxWord] at hle ⊢
      omega
  have hweight : t.estimate = t.weight := by
    have hmin := t.estimate_eq_min_weight
    simp only [maxVertices, maxWord] at hlimit hmin
    omega
  have hsize : ∀ negated, t.size negated ≤ t.estimate := by
    intro negated
    rw [hweight] at hlimit ⊢
    refine Regex.size_le_weight negated ?_
    simp only [maxVertices, maxBound] at hlimit ⊢
    omega
  refine ⟨?_, hlimit, fun negated base loop next => ?_⟩
  · rw [graph_of_compile h, Regex.size_graph]
    exact Nat.add_le_add_right (hsize false) 3
  · rw [Regex.length_block]
    exact hsize negated

/-- Bounds out of order around an empty alternation, and a body far too large that is copied
no times, all in a negation. -/
theorem Program.size_le_estimate_no_copies :
    let t : Regex := .negation (.seq [.repeated (.alt []) ⟨3, some 1, false⟩,
      .repeated (.repeated (.char 'a') ⟨4294967295, none, true⟩) ⟨0, some 0, false⟩])
    ∃ p, compile t 0 = .ok p ∧ p.graph.size ≤ t.estimate + 3 ∧ t.estimate = 21 := by
  intro t
  have hp : compile t 0 = .ok ⟨t.graph 0, t.graph_halts 0⟩ := if_neg (by decide)
  exact ⟨_, hp, (size_le_estimate hp).1, by decide⟩

end Backtrack
