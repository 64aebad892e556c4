/-!
# Byte offsets into a text

A place in a text is given by the number of UTF-8 bytes before it.  An offset is a
*boundary* if a character begins there or the text ends there; offsets inside a
character or past the end are no boundaries, and reading there gives nothing.

Every operation is described by a split of the text: at offset `u.utf8ByteSize` of
`u ++ v`, the text before is `u` and the text after is `v` (`charAt?_append`,
`charBefore?_append`, `suffixFrom_append`, `slice_append`).
-/

namespace Backtrack.Text

/-- The position of `s` at byte offset `i`, if `i` is a boundary. -/
def posAt? (s : String) (i : Nat) : Option s.Pos :=
  if h : (⟨i⟩ : String.Pos.Raw).IsValid s then some (s.pos ⟨i⟩ h) else none

/-- Whether a character of `s` begins at byte offset `i`, or `s` ends there. -/
def isBoundary (s : String) (i : Nat) : Bool :=
  decide ((⟨i⟩ : String.Pos.Raw).IsValid s)

def charAt? (s : String) (i : Nat) : Option Char :=
  (posAt? s i).bind fun p => if h : p = s.endPos then none else some (p.get h)

def charBefore? (s : String) (i : Nat) : Option Char :=
  (posAt? s i).bind fun p =>
    if h : p = s.startPos then none else some ((p.prev h).get (String.Pos.prev_ne_endPos))

/-- The part of `s` from byte offset `i` on; empty if `i` is no boundary. -/
def suffixFrom (s : String) (i : Nat) : String :=
  match posAt? s i with
  | some p => (s.sliceFrom p).copy
  | none => ""

/-- The part of `s` between byte offsets `i` and `j`; empty unless both are boundaries, in
this order. -/
def slice (s : String) (i j : Nat) : String :=
  match posAt? s i, posAt? s j with
  | some p, some q => if h : p ≤ q then (s.slice p q h).copy else ""
  | _, _ => ""

/-- The first boundary of `s` at or after byte offset `i`. -/
def boundaryFrom? (s : String) (i : Nat) : Option Nat :=
  if isBoundary s i then some i
  else if i < s.utf8ByteSize then boundaryFrom? s (i + 1)
  else none
termination_by s.utf8ByteSize - i

/-! ## Splits -/

/-- A boundary is a place where the text splits in two. -/
theorem isBoundary_iff {s : String} {i : Nat} :
    isBoundary s i = true ↔ ∃ u v, s = u ++ v ∧ u.utf8ByteSize = i := by
  simp only [isBoundary, decide_eq_true_eq, String.Pos.Raw.isValid_iff_exists_append]
  constructor
  · rintro ⟨u, v, rfl, h⟩
    exact ⟨u, v, rfl, (congrArg String.Pos.Raw.byteIdx h).symm⟩
  · rintro ⟨u, v, rfl, rfl⟩
    exact ⟨u, v, rfl, rfl⟩

theorem posAt?_of_not_isBoundary {s : String} {i : Nat} (h : isBoundary s i = false) :
    posAt? s i = none := by
  rw [isBoundary, decide_eq_false_iff_not] at h
  exact dif_neg h

/-- At the seam of `u ++ v` there is a position, and it splits the text there. -/
theorem posAt?_append (u v : String) :
    ∃ p : (u ++ v).Pos, posAt? (u ++ v) u.utf8ByteSize = some p ∧ p.Splits u v := by
  have h : (⟨u.utf8ByteSize⟩ : String.Pos.Raw).IsValid (u ++ v) :=
    String.Pos.Raw.isValid_iff_exists_append.2 ⟨u, v, rfl, rfl⟩
  exact ⟨(u ++ v).pos _ h, by simp [posAt?, h], rfl, by simp; rfl⟩

/-- The character at the seam of `u ++ v` is the first one of `v`. -/
theorem charAt?_append (u v : String) :
    charAt? (u ++ v) u.utf8ByteSize = v.toList.head? := by
  obtain ⟨p, hp, hs⟩ := posAt?_append u v
  simp only [charAt?, hp, Option.bind_some]
  split
  case isTrue h => simp [hs.eq_endPos_iff.1 h]
  case isFalse h =>
    obtain ⟨t, ht⟩ := hs.exists_eq_singleton_append h
    generalize p.get h = c at ht
    simp [ht]

/-- The character before the seam of `u ++ v` is the last one of `u`. -/
theorem charBefore?_append (u v : String) :
    charBefore? (u ++ v) u.utf8ByteSize = u.toList.getLast? := by
  obtain ⟨p, hp, hs⟩ := posAt?_append u v
  simp only [charBefore?, hp, Option.bind_some]
  split
  case isTrue h => simp [hs.eq_startPos_iff.1 h]
  case isFalse h =>
    obtain ⟨t, ht⟩ := hs.exists_eq_append_singleton_of_ne_startPos h
    generalize (p.prev h).get _ = c at ht
    simp [ht]

/-- The text from the seam of `u ++ v` on is `v`. -/
theorem suffixFrom_append (u v : String) : suffixFrom (u ++ v) u.utf8ByteSize = v := by
  obtain ⟨p, hp, hs⟩ := posAt?_append u v
  simp only [suffixFrom, hp]
  exact hs.copy_sliceFrom_eq

/-- The text between the two seams of `u ++ v ++ w` is `v`. -/
theorem slice_append (u v w : String) :
    slice (u ++ v ++ w) u.utf8ByteSize (u.utf8ByteSize + v.utf8ByteSize) = v := by
  obtain ⟨q, hq, ht⟩ := posAt?_append (u ++ v) w
  have huv : (u ++ v ++ w) = u ++ (v ++ w) := String.append_assoc ..
  have hp : ∃ p, posAt? (u ++ v ++ w) u.utf8ByteSize = some p ∧ p.Splits u (v ++ w) := by
    rw [huv]
    exact posAt?_append u (v ++ w)
  obtain ⟨p, hp, hs⟩ := hp
  rw [String.utf8ByteSize_append] at hq
  have hle : p ≤ q := (hs.le_iff_exists_eq_append ht).2 ⟨v, rfl, rfl⟩
  simp only [slice, hp, hq, hle, dite_true]
  obtain ⟨_, h⟩ := String.copy_slice_eq_iff_splits.2 ⟨u, w, hs, ht⟩
  exact h

/-! ## Reading -/

/-- A character can be read only where a split puts it first. -/
theorem charAt?_eq_some_iff {s : String} {i : Nat} {c : Char} :
    charAt? s i = some c ↔
      ∃ u v, s = u ++ (String.singleton c ++ v) ∧ u.utf8ByteSize = i := by
  constructor
  · intro h
    have hb : isBoundary s i = true := by
      simp only [charAt?, posAt?, Option.bind_eq_some_iff] at h
      obtain ⟨p, hp, -⟩ := h
      split at hp
      case isTrue hv => simpa [isBoundary] using hv
      case isFalse => cases hp
    obtain ⟨u, v, rfl, rfl⟩ := isBoundary_iff.1 hb
    rw [charAt?_append] at h
    obtain ⟨l, hl⟩ := List.head?_eq_some_iff.1 h
    exact ⟨u, String.ofList l, by rw [← String.toList_inj]; simp [hl], rfl⟩
  · rintro ⟨u, v, rfl, rfl⟩
    rw [charAt?_append]
    simp

/-- A character that can be read ends within the text. -/
theorem add_utf8Size_le {s : String} {i : Nat} {c : Char} (h : charAt? s i = some c) :
    i + c.utf8Size ≤ s.utf8ByteSize := by
  obtain ⟨u, v, rfl, rfl⟩ := charAt?_eq_some_iff.1 h
  simp only [String.utf8ByteSize_append, String.utf8ByteSize_singleton]
  omega

end Backtrack.Text
