import Backtrack.State

/-!
# The boundaries from an offset on

`Text.boundariesFrom s i` lists the boundaries of `s` at or after byte offset `i`, in
order.  They are the places where a search makes its attempts: the first one is
`boundaryFrom? s i`, and after a boundary at which character `c` begins comes the one
`c.utf8Size` bytes later (`boundariesFrom_of_charAt?`).
-/

namespace Backtrack.Text

/-- The boundaries of `s` at or after byte offset `i`, in order. -/
def boundariesFrom (s : String) (i : Nat) : List Nat :=
  (List.range' i (s.utf8ByteSize + 1 - i)).filter fun b => isBoundary s b

theorem le_utf8ByteSize_of_isBoundary {s : String} {i : Nat} (h : isBoundary s i = true) :
    i ≤ s.utf8ByteSize := by
  obtain ⟨u, v, rfl, rfl⟩ := isBoundary_iff.1 h
  rw [String.utf8ByteSize_append]
  omega

theorem isBoundary_zero (s : String) : isBoundary s 0 = true :=
  isBoundary_iff.2 ⟨"", s, (String.empty_append).symm, rfl⟩

theorem isBoundary_utf8ByteSize (s : String) : isBoundary s s.utf8ByteSize = true :=
  isBoundary_iff.2 ⟨s, "", (String.append_empty).symm, rfl⟩

theorem mem_boundariesFrom {s : String} {i b : Nat} :
    b ∈ boundariesFrom s i ↔ i ≤ b ∧ isBoundary s b = true := by
  unfold boundariesFrom
  rw [List.mem_filter, List.mem_range'_1]
  constructor
  · rintro ⟨⟨h, -⟩, hb⟩
    exact ⟨h, hb⟩
  · rintro ⟨h, hb⟩
    have := le_utf8ByteSize_of_isBoundary hb
    exact ⟨⟨h, by omega⟩, hb⟩

theorem boundariesFrom_pairwise (s : String) (i : Nat) : (boundariesFrom s i).Pairwise (· < ·) :=
  List.Pairwise.filter _ List.pairwise_lt_range'

/-! ## Looking through them -/

theorem findSome?_boundariesFrom_eq_none {α : Type} {s : String} {i : Nat} {f : Nat → Option α} :
    (boundariesFrom s i).findSome? f = none ↔
      ∀ b, i ≤ b → isBoundary s b = true → f b = none := by
  rw [List.findSome?_eq_none_iff]
  constructor
  · intro h b hib hb
    exact h b (mem_boundariesFrom.2 ⟨hib, hb⟩)
  · intro h b hb
    obtain ⟨hib, hb⟩ := mem_boundariesFrom.1 hb
    exact h b hib hb

/-- What is found is found at the first boundary where there is something. -/
theorem exists_of_findSome?_boundariesFrom {α : Type} {s : String} {i : Nat}
    {f : Nat → Option α} {r : α} (h : (boundariesFrom s i).findSome? f = some r) :
    ∃ b, i ≤ b ∧ isBoundary s b = true ∧ f b = some r ∧
      ∀ c, i ≤ c → c < b → isBoundary s c = true → f c = none := by
  obtain ⟨before, b, after, hsplit, hb, hbefore⟩ := List.findSome?_eq_some_iff.1 h
  have hmem : b ∈ boundariesFrom s i := by simp [hsplit]
  obtain ⟨hib, hbound⟩ := mem_boundariesFrom.1 hmem
  refine ⟨b, hib, hbound, hb, fun c hic hcb hc => hbefore c ?_⟩
  have hpairwise := boundariesFrom_pairwise s i
  have hcmem := mem_boundariesFrom.2 ⟨hic, hc⟩
  rw [hsplit] at hpairwise hcmem
  rcases List.mem_append.1 hcmem with hcmem | hcmem
  · exact hcmem
  · have hafter := (List.pairwise_cons.1 (List.pairwise_append.1 hpairwise).2.1).1
    rcases List.mem_cons.1 hcmem with rfl | hcmem
    · omega
    · have := hafter c hcmem
      omega

/-! ## One after the other -/

/-- A boundary is the first one from itself on. -/
theorem boundariesFrom_of_isBoundary {s : String} {i : Nat} (h : isBoundary s i = true) :
    boundariesFrom s i = i :: boundariesFrom s (i + 1) := by
  have := le_utf8ByteSize_of_isBoundary h
  unfold boundariesFrom
  rw [show s.utf8ByteSize + 1 - i = s.utf8ByteSize + 1 - (i + 1) + 1 by omega, List.range'_succ,
    List.filter_cons_of_pos h]

/-- What is no boundary can be left out. -/
theorem boundariesFrom_of_not_isBoundary {s : String} {i : Nat} (h : isBoundary s i = false) :
    boundariesFrom s i = boundariesFrom s (i + 1) := by
  unfold boundariesFrom
  by_cases hi : i ≤ s.utf8ByteSize
  · rw [show s.utf8ByteSize + 1 - i = s.utf8ByteSize + 1 - (i + 1) + 1 by omega,
      List.range'_succ, List.filter_cons_of_neg (by simp [h])]
  · rw [show s.utf8ByteSize + 1 - i = 0 by omega, show s.utf8ByteSize + 1 - (i + 1) = 0 by omega]
    rfl

theorem boundariesFrom_eq_nil {s : String} {i : Nat} (h : s.utf8ByteSize < i) :
    boundariesFrom s i = [] := by
  unfold boundariesFrom
  rw [show s.utf8ByteSize + 1 - i = 0 by omega]
  rfl

/-- The boundaries from `i` on are those from the first of them on. -/
theorem boundariesFrom_of_boundaryFrom? {s : String} {i b : Nat} (h : boundaryFrom? s i = some b) :
    isBoundary s b = true ∧ boundariesFrom s i = boundariesFrom s b := by
  induction i using boundaryFrom?.induct s with
  | case1 i hi =>
    rw [boundaryFrom?, if_pos hi, Option.some.injEq] at h
    subst h
    exact ⟨hi, rfl⟩
  | case2 i hi hlt ih =>
    rw [boundaryFrom?, if_neg hi, if_pos hlt] at h
    rw [boundariesFrom_of_not_isBoundary (by simpa using hi)]
    exact ih h
  | case3 i hi hlt => rw [boundaryFrom?, if_neg hi, if_neg hlt] at h; cases h

theorem boundariesFrom_of_boundaryFrom?_eq_none {s : String} {i : Nat}
    (h : boundaryFrom? s i = none) : boundariesFrom s i = [] := by
  induction i using boundaryFrom?.induct s with
  | case1 i hi => rw [boundaryFrom?, if_pos hi] at h; cases h
  | case2 i hi hlt ih =>
    rw [boundaryFrom?, if_neg hi, if_pos hlt] at h
    rw [boundariesFrom_of_not_isBoundary (by simpa using hi)]
    exact ih h
  | case3 i hi hlt =>
    rw [boundariesFrom_of_not_isBoundary (by simpa using hi)]
    exact boundariesFrom_eq_nil (by omega)

/-! ## Across one character -/

/-- Where a character begins there is a boundary. -/
theorem isBoundary_of_charAt? {s : String} {i : Nat} {c : Char} (h : charAt? s i = some c) :
    isBoundary s i = true := by
  obtain ⟨u, v, rfl, hu⟩ := charAt?_eq_some_iff.1 h
  exact isBoundary_iff.2 ⟨u, _, rfl, hu⟩

/-- Where a character ends there is a boundary. -/
theorem isBoundary_add_utf8Size {s : String} {i : Nat} {c : Char} (h : charAt? s i = some c) :
    isBoundary s (i + c.utf8Size) = true := by
  obtain ⟨u, v, rfl, rfl⟩ := charAt?_eq_some_iff.1 h
  refine isBoundary_iff.2 ⟨u ++ String.singleton c, v, (String.append_assoc ..).symm, ?_⟩
  rw [String.utf8ByteSize_append, String.utf8ByteSize_singleton]

/-- Of two ways to split a text, the shorter first part is a beginning of the other. -/
theorem exists_append_of_le {u v x y : String} (h : u ++ v = x ++ y)
    (hle : u.utf8ByteSize ≤ x.utf8ByteSize) : ∃ w, x = u ++ w := by
  have hl : u.toList ++ v.toList = x.toList ++ y.toList := by
    rw [← String.toList_append, h, String.toList_append]
  rcases List.append_eq_append_iff.1 hl with ⟨l, hx, -⟩ | ⟨l, hu, -⟩
  · exact ⟨String.ofList l, by rw [← String.toList_inj, hx]; simp⟩
  · have hux : u = x ++ String.ofList l := by
      rw [← String.toList_inj, hu]
      simp
    have hsize : (String.ofList l).utf8ByteSize = 0 := by
      rw [hux, String.utf8ByteSize_append] at hle
      omega
    rw [String.utf8ByteSize_eq_zero_iff] at hsize
    exact ⟨"", by rw [hux, hsize, String.append_empty, String.append_empty]⟩

/-- The longer first part goes on with a character where the shorter one ends. -/
theorem exists_append_of_append_eq {u v x y : String} (h : u ++ v = x ++ y)
    (hlt : u.utf8ByteSize < x.utf8ByteSize) : ∃ c w, x = u ++ (String.singleton c ++ w) := by
  obtain ⟨w, rfl⟩ := exists_append_of_le h (Nat.le_of_lt hlt)
  cases hw : w.toList with
  | nil =>
    rw [String.toList_eq_nil_iff] at hw
    rw [hw, String.append_empty] at hlt
    omega
  | cons c l =>
    refine ⟨c, String.ofList l, ?_⟩
    rw [← String.toList_inj]
    simp [hw]

/-- Inside a character there is no boundary. -/
theorem isBoundary_inside {s : String} {i j : Nat} {c : Char} (h : charAt? s i = some c)
    (hij : i < j) (hj : j < i + c.utf8Size) : isBoundary s j = false := by
  obtain ⟨u, v, rfl, rfl⟩ := charAt?_eq_some_iff.1 h
  rw [← Bool.not_eq_true]
  intro hb
  obtain ⟨x, y, hxy, rfl⟩ := isBoundary_iff.1 hb
  obtain ⟨d, w, rfl⟩ := exists_append_of_append_eq hxy hij
  have hcd := congrArg (fun t => charAt? t u.utf8ByteSize) hxy
  simp only [String.append_assoc, charAt?_append] at hcd
  have hcd : c = d := by simpa using hcd
  subst hcd
  simp only [String.utf8ByteSize_append, String.utf8ByteSize_singleton] at hj
  omega

/-- After the boundary at which `c` begins comes the one at which `c` ends. -/
theorem boundariesFrom_of_charAt? {s : String} {i : Nat} {c : Char} (h : charAt? s i = some c) :
    boundariesFrom s i = i :: boundariesFrom s (i + c.utf8Size) := by
  have skip : ∀ n, 1 ≤ n → n ≤ c.utf8Size →
      boundariesFrom s (i + 1) = boundariesFrom s (i + n) := by
    intro n
    induction n with
    | zero => intro h0; omega
    | succ n ih =>
      intro _ hn
      by_cases h1 : n = 0
      · rw [h1]
      · rw [ih (by omega) (by omega),
          boundariesFrom_of_not_isBoundary (isBoundary_inside h (by omega) (by omega))]
        rfl
  rw [boundariesFrom_of_isBoundary (isBoundary_of_charAt? h),
    skip c.utf8Size (Char.utf8Size_pos c) (Nat.le_refl _)]

/-- At a boundary before the end a character begins. -/
theorem exists_charAt? {s : String} {i : Nat} (h : isBoundary s i = true)
    (hi : i < s.utf8ByteSize) : ∃ c, charAt? s i = some c := by
  obtain ⟨u, v, rfl, rfl⟩ := isBoundary_iff.1 h
  rw [charAt?_append]
  cases hv : v.toList with
  | nil =>
    rw [String.toList_eq_nil_iff] at hv
    subst hv
    simp at hi
  | cons c l => exact ⟨c, rfl⟩

end Backtrack.Text
