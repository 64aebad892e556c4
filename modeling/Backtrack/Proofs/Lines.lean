import Backtrack.Proofs.Bounds
import Backtrack.Proofs.ClassSets
import Backtrack.Proofs.Matches
import Backtrack.Proofs.Outline
import Backtrack.Proofs.RoundTrip
import Backtrack.Proofs.SizeLimit

/-!
# Whole lines

The lines of a text are the pieces between its newlines, each with the offset at which it begins
(`Text.lines`).  A text that ends with a newline has an empty last line, and a text without
newlines is one line.

Main statement: `Pattern.findFrom_wholeLine`, the pattern that has a text between the two line
anchors finds the first line that is this text.  It is put together from:

    a line lies between two newlines, or an end of the text     (Text.mem_lines_iff)
    a later line begins further on                              (Text.pairwise_lines)
    the tree of the pattern matches lines only                  (matches_wholeLine_iff)
    the pattern is read as that tree                            (toPattern_wholeLine)
-/

namespace Backtrack

/-! ## The lines of a text -/

namespace Text

/-- A piece of a text and the offset where it begins. -/
structure Line where
  offset : Nat
  text : String
deriving DecidableEq, Repr

/-- Pieces one after the other from offset `i` on, with one byte between them. -/
def place (i : Nat) : List String → List Line
  | [] => []
  | w :: rest => ⟨i, w⟩ :: place (i + w.utf8ByteSize + 1) rest

/-- The pieces between the newlines of a text. -/
def lines (s : String) : List Line := place 0 ((s.toList.splitOn '\n').map String.ofList)

example : lines "é\n\nab\n" = [⟨0, "é"⟩, ⟨3, ""⟩, ⟨4, "ab"⟩, ⟨7, ""⟩] := by decide +kernel

/-- A line can begin after `before`: it is empty or ends with a newline. -/
def BreakBefore (before : List Char) : Prop := ∀ c ∈ before.getLast?, c = '\n'

/-- A line can end before `after`: it is empty or begins with a newline. -/
def BreakAfter (after : List Char) : Prop := ∀ c ∈ after.head?, c = '\n'

theorem breakAfter_iff {after : List Char} :
    BreakAfter after ↔ after = [] ∨ ∃ rest, after = '\n' :: rest := by
  cases after with
  | nil => simp [BreakAfter]
  | cons c rest => simp [BreakAfter]

theorem breakBefore_iff {before : List Char} :
    BreakBefore before ↔ before = [] ∨ ∃ rest, before = rest ++ ['\n'] := by
  rcases List.eq_nil_or_concat before with rfl | ⟨rest, c, rfl⟩
  · simp [BreakBefore]
  · simp [BreakBefore, List.concat_eq_append]

/-- Before a newline nothing counts. -/
theorem breakBefore_append_newline {x u : List Char} :
    BreakBefore (x ++ '\n' :: u) ↔ BreakBefore u := by
  unfold BreakBefore
  rw [List.append_cons, List.getLast?_append]
  cases u.getLast? <;> simp

/-- There is one first newline. -/
theorem eq_of_first_newline {x x' y y' : List Char} (h : x ++ '\n' :: y = x' ++ '\n' :: y')
    (hx : '\n' ∉ x) (hx' : '\n' ∉ x') : x = x' ∧ y = y' :=
  Outline.eq_of_append_cons (P := fun u => '\n' ∉ u) (fun u v _ => by simp) h hx hx'

theorem utf8ByteSize_append_newline (x u : List Char) :
    (String.ofList (x ++ '\n' :: u)).utf8ByteSize =
      (String.ofList x).utf8ByteSize + 1 + (String.ofList u).utf8ByteSize := by
  rw [List.append_cons, String.ofList_append, String.ofList_append, String.utf8ByteSize_append,
    String.utf8ByteSize_append]
  rfl

theorem splitOn_of_not_mem {cs : List Char} (h : '\n' ∉ cs) : cs.splitOn '\n' = [cs] := by
  rw [List.splitOn_eq_splitOnP]
  apply List.splitOnP_eq_singleton
  intro c hc
  rw [beq_eq_false_iff_ne]
  rintro rfl
  exact h hc

theorem splitOn_append_newline {x : List Char} (h : '\n' ∉ x) (y : List Char) :
    (x ++ '\n' :: y).splitOn '\n' = x :: y.splitOn '\n' := by
  rw [List.splitOn_eq_splitOnP, List.splitOn_eq_splitOnP]
  apply List.splitOnP_append_cons_of_forall_mem
  · intro c hc
    rw [beq_eq_false_iff_ne]
    rintro rfl
    exact h hc
  · rfl

/-- The lines of what is left of a text at offset `i`. -/
def linesFrom (i : Nat) (cs : List Char) : List Line :=
  place i ((cs.splitOn '\n').map String.ofList)

/-- The text has one line left. -/
theorem linesFrom_of_not_mem {cs : List Char} (h : '\n' ∉ cs) (i : Nat) :
    linesFrom i cs = [⟨i, String.ofList cs⟩] := by
  rw [linesFrom, splitOn_of_not_mem h]
  rfl

/-- The next line ends at the first newline. -/
theorem linesFrom_append_newline {x : List Char} (h : '\n' ∉ x) (y : List Char) (i : Nat) :
    linesFrom i (x ++ '\n' :: y) =
      ⟨i, String.ofList x⟩ :: linesFrom (i + (String.ofList x).utf8ByteSize + 1) y := by
  rw [linesFrom, splitOn_append_newline h]
  rfl

/-- Induction on the lines of a text. -/
theorem lines_induction {motive : List Char → Prop}
    (last : ∀ cs, '\n' ∉ cs → motive cs)
    (newline : ∀ x y, '\n' ∉ x → motive y → motive (x ++ '\n' :: y)) (cs : List Char) :
    motive cs := by
  induction hn : cs.length using Nat.strongRecOn generalizing cs with
  | ind n ih =>
    by_cases h : '\n' ∈ cs
    · obtain ⟨x, y, rfl, hx⟩ := List.eq_append_cons_of_mem h
      refine newline x y hx (ih y.length ?_ y rfl)
      rw [← hn, List.length_append, List.length_cons]
      omega
    · exact last cs h

/-- The lines that are left lie between two newlines, or ends of what is left. -/
theorem mem_linesFrom_iff {cs : List Char} {i : Nat} {l : Line} :
    l ∈ linesFrom i cs ↔ '\n' ∉ l.text.toList ∧ ∃ u v, cs = u ++ l.text.toList ++ v ∧
      l.offset = i + (String.ofList u).utf8ByteSize ∧ BreakBefore u ∧ BreakAfter v := by
  induction cs using lines_induction generalizing i with
  | last cs hcs =>
    rw [linesFrom_of_not_mem hcs, List.mem_singleton]
    constructor
    · rintro rfl
      refine ⟨by simpa using hcs, [], [], by simp, rfl, ?_, ?_⟩
      · exact breakBefore_iff.2 (.inl rfl)
      · exact breakAfter_iff.2 (.inl rfl)
    · rintro ⟨-, u, v, hsplit, hoffset, hu, hv⟩
      -- a break before or after would be a newline
      obtain rfl : u = [] := by
        rcases breakBefore_iff.1 hu with rfl | ⟨u, rfl⟩
        · rfl
        · exact absurd (by simp [hsplit]) hcs
      obtain rfl : v = [] := by
        rcases breakAfter_iff.1 hv with rfl | ⟨v, rfl⟩
        · rfl
        · exact absurd (by simp [hsplit]) hcs
      cases l
      simp_all
  | newline x y hx ih =>
    rw [linesFrom_append_newline hx, List.mem_cons, ih]
    constructor
    · rintro (rfl | ⟨hl, u, v, rfl, hoffset, hu, hv⟩)
      · refine ⟨by simpa using hx, [], '\n' :: y, by simp, rfl, ?_, ?_⟩
        · exact breakBefore_iff.2 (.inl rfl)
        · exact breakAfter_iff.2 (.inr ⟨y, rfl⟩)
      · refine ⟨hl, x ++ '\n' :: u, v, by simp, ?_, breakBefore_append_newline.2 hu, hv⟩
        rw [hoffset, utf8ByteSize_append_newline]
        omega
    · rintro ⟨hl, u, v, hsplit, hoffset, hu, hv⟩
      by_cases hmem : '\n' ∈ u
      · -- the line begins after the first newline
        right
        obtain ⟨x', u', rfl, hx'⟩ := List.eq_append_cons_of_mem hmem
        have hrest : x ++ '\n' :: y = x' ++ '\n' :: (u' ++ l.text.toList ++ v) := by
          rw [hsplit]
          simp
        obtain ⟨rfl, rfl⟩ := eq_of_first_newline hrest hx hx'
        refine ⟨hl, u', v, rfl, ?_, breakBefore_append_newline.1 hu, hv⟩
        rw [hoffset, utf8ByteSize_append_newline]
        omega
      · -- nothing comes before the line, so that it ends at the first newline
        left
        obtain rfl : u = [] := by
          rcases breakBefore_iff.1 hu with rfl | ⟨u, rfl⟩
          · rfl
          · exact absurd (by simp) hmem
        have htext : l.text.toList = x := by
          rcases breakAfter_iff.1 hv with rfl | ⟨v, rfl⟩
          · refine absurd ?_ hl
            rw [← List.append_nil l.text.toList, ← List.nil_append l.text.toList, ← hsplit]
            simp
          · exact (eq_of_first_newline hsplit hx hl).1.symm
        obtain ⟨offset, text⟩ := l
        rw [← htext, String.ofList_toList]
        exact congrArg (Line.mk · text) hoffset

/-- No line is on the way to an offset that is passed. -/
theorem le_of_mem_linesFrom {cs : List Char} {i : Nat} {l : Line} (h : l ∈ linesFrom i cs) :
    i ≤ l.offset := by
  obtain ⟨-, u, v, -, hoffset, -⟩ := mem_linesFrom_iff.1 h
  omega

theorem pairwise_linesFrom (cs : List Char) (i : Nat) :
    (linesFrom i cs).Pairwise fun l l' => l.offset < l'.offset := by
  induction cs using lines_induction generalizing i with
  | last cs hcs =>
    rw [linesFrom_of_not_mem hcs]
    exact List.pairwise_singleton _ _
  | newline x y hx ih =>
    rw [linesFrom_append_newline hx, List.pairwise_cons]
    refine ⟨fun l hl => ?_, ih _⟩
    have hle := le_of_mem_linesFrom hl
    show i < l.offset
    omega

/-- A text is split in one way at each offset. -/
theorem append_inj {u v x y : String} (h : u ++ v = x ++ y)
    (hsize : u.utf8ByteSize = x.utf8ByteSize) : u = x ∧ v = y := by
  have hv : v = y := by
    rw [← suffixFrom_append u v, h, hsize, suffixFrom_append]
  refine ⟨?_, hv⟩
  rw [hv, ← String.toList_inj, String.toList_append, String.toList_append,
    List.append_cancel_right_eq, String.toList_inj] at h
  exact h

/-- A line of a text: `w` stands at offset `i` between two newlines, or ends of the text. -/
def IsLine (s : String) (i : Nat) (w : String) : Prop :=
  ∃ before after, s = before ++ w ++ after ∧ before.utf8ByteSize = i ∧
    BreakBefore before.toList ∧ BreakAfter after.toList

theorem IsLine.isBoundary {s w : String} {i : Nat} (h : IsLine s i w) : isBoundary s i = true := by
  obtain ⟨before, after, rfl, hsize, -, -⟩ := h
  exact isBoundary_iff.2 ⟨before, w ++ after, String.append_assoc, hsize⟩

/-- Lines lie between two newlines, or ends of the text, and have none inside. -/
theorem mem_lines_iff {s : String} {l : Line} :
    l ∈ lines s ↔ '\n' ∉ l.text.toList ∧ IsLine s l.offset l.text := by
  rw [lines, ← linesFrom, mem_linesFrom_iff]
  refine and_congr_right fun _ => ?_
  constructor
  · rintro ⟨u, v, hs, hoffset, hu, hv⟩
    refine ⟨String.ofList u, String.ofList v, ?_, by omega, ?_, ?_⟩
    · rw [← String.toList_inj, hs]
      simp
    · rwa [String.toList_ofList]
    · rwa [String.toList_ofList]
  · rintro ⟨before, after, rfl, hoffset, hbefore, hafter⟩
    refine ⟨before.toList, after.toList, by simp, ?_, hbefore, hafter⟩
    rw [String.ofList_toList]
    omega

/-- A later line begins further on. -/
theorem pairwise_lines (s : String) :
    (lines s).Pairwise fun l l' => l.offset < l'.offset :=
  pairwise_linesFrom s.toList 0

/-- The first of the lines with a property is the one that is found. -/
theorem find?_lines_eq_some {s : String} {l : Line} {P : Line → Bool} (hl : l ∈ lines s)
    (hP : P l = true) (hfirst : ∀ l' ∈ lines s, P l' = true → l.offset ≤ l'.offset) :
    (lines s).find? P = some l := by
  cases hfound : (lines s).find? P with
  | none =>
    rw [List.find?_eq_none] at hfound
    exact absurd hP (hfound l hl)
  | some l' =>
    obtain ⟨hP', before, after, hsplit, hbefore⟩ := List.find?_eq_some_iff_append.1 hfound
    have hle := hfirst l' (List.mem_of_find?_eq_some hfound) hP'
    have hpairwise := pairwise_lines s
    rw [hsplit] at hl hpairwise
    rcases List.mem_append.1 hl with hmem | hmem
    · have := hbefore l hmem
      simp [hP] at this
    · rcases List.mem_cons.1 hmem with rfl | hmem
      · rfl
      · have hlt := (List.pairwise_cons.1 (List.pairwise_append.1 hpairwise).2.1).1 l hmem
        omega

end Text

/-! ## The pattern of a line -/

/-- The pattern of a whole line: its text between the line anchors. -/
def Pattern.wholeLine (w : String) : String :=
  "^" ++ (Regex.seq (w.toList.map .char)).toPattern ++ "$"

namespace Regex

/-- The tree of a whole line. -/
def wholeLine (w : String) : Regex :=
  .seq (.atom .lineStart :: (w.toList.map .char ++ [.atom .lineEnd]))

theorem renderSeq_append (ts us : List Regex) :
    renderSeq (ts ++ us) = renderSeq ts ++ renderSeq us := by
  induction ts with
  | nil => rfl
  | cons t ts ih => rw [List.cons_append, renderSeq, renderSeq, ih, List.append_assoc]

theorem weightOf_append (ts us : List Regex) :
    weightOf (ts ++ us) = weightOf ts + weightOf us := by
  induction ts with
  | nil => rw [weightOf, Nat.zero_add, List.nil_append]
  | cons t ts ih => rw [List.cons_append, weightOf, weightOf, ih, Nat.add_assoc]

theorem weightOf_map_char (cs : List Char) : weightOf (cs.map .char) = cs.length := by
  induction cs with
  | nil => rfl
  | cons c cs ih =>
    rw [List.map_cons, weightOf, weight, ih, List.length_cons, Nat.add_comm]

theorem toPattern_wholeLine (w : String) : (wholeLine w).toPattern = Pattern.wholeLine w := by
  rw [Pattern.wholeLine, ← String.toList_inj]
  simp [wholeLine, toPattern, render, renderSeq, renderSeq_append, Atom.render]

theorem wellFormed_wholeLine (w : String) : (wholeLine w).WellFormed 0 := by
  constructor
  · rw [wholeLine, isBody, areItems_iff]
    intro t ht
    rcases List.mem_cons.1 ht with rfl | ht
    · rfl
    · rcases List.mem_append.1 ht with ht | ht
      · obtain ⟨c, -, rfl⟩ := List.mem_map.1 ht
        rfl
      · rw [List.mem_singleton.1 ht]
        rfl
  · show slotsOf _ = []
    have h : .atom .lineStart :: (w.toList.map char ++ [.atom .lineEnd]) =
        (Atom.lineStart :: (w.toList.map Atom.char ++ [.lineEnd])).map Regex.atom := by
      simp
    rw [h, slotsOf_atoms]

theorem weight_wholeLine (w : String) : (wholeLine w).weight = w.length + 4 := by
  rw [wholeLine, weight, weightOf, weightOf_append, weightOf_map_char, String.length_toList]
  simp only [weight, weightOf]
  omega

/-! ## What the tree matches -/

variable {j : Nat}

/-- An atom that looks at a place leads nowhere else. -/
theorem step?_eq_some_iff_holds {a : Atom} (ha : a.charSet? = none) {s : String} {i : Nat} :
    a.step? s i = some j ↔ a.holds (.fresh s i 0 0) = true ∧ j = i := by
  unfold Atom.step? Atom.run
  rw [ha]
  cases a.holds (.fresh s i 0 0) with
  | false => simp
  | true =>
    simp only [if_true, Option.map_some, Option.some.injEq, true_and]
    exact eq_comm

/-- At the seam of two texts a line begins if one can begin after the first. -/
theorem step?_lineStart (u v : String) :
    Atom.lineStart.step? (u ++ v) u.utf8ByteSize = some j ↔
      Text.BreakBefore u.toList ∧ j = u.utf8ByteSize := by
  rw [step?_eq_some_iff_holds rfl]
  refine and_congr_left fun _ => ?_
  show (u.utf8ByteSize == 0 || Text.charBefore? (u ++ v) u.utf8ByteSize == some '\n') = true ↔ _
  rw [Text.charBefore?_append]
  by_cases hu : u = ""
  · simp [hu, Text.BreakBefore]
  · have hsize : u.utf8ByteSize ≠ 0 := fun h => hu (String.utf8ByteSize_eq_zero_iff.1 h)
    have hne : u.toList ≠ [] := fun h => hu (String.toList_eq_nil_iff.1 h)
    rw [List.getLast?_eq_some_getLast hne]
    simp [hsize, Text.BreakBefore, List.getLast?_eq_some_getLast hne]

/-- At the seam of two texts a line ends if one can end before the second. -/
theorem step?_lineEnd (u v : String) :
    Atom.lineEnd.step? (u ++ v) u.utf8ByteSize = some j ↔
      Text.BreakAfter v.toList ∧ j = u.utf8ByteSize := by
  rw [step?_eq_some_iff_holds rfl]
  refine and_congr_left fun _ => ?_
  show (decide ((u ++ v).utf8ByteSize ≤ u.utf8ByteSize) ||
    Text.charAt? (u ++ v) u.utf8ByteSize == some '\n') = true ↔ _
  rw [Text.charAt?_append, String.utf8ByteSize_append]
  by_cases hv : v = ""
  · simp [hv, Text.BreakAfter]
  · have hsize : v.utf8ByteSize ≠ 0 := fun h => hv (String.utf8ByteSize_eq_zero_iff.1 h)
    have hne : v.toList ≠ [] := fun h => hv (String.toList_eq_nil_iff.1 h)
    have hlt : ¬ u.utf8ByteSize + v.utf8ByteSize ≤ u.utf8ByteSize := by omega
    rw [List.head?_eq_some_head hne]
    simp [hlt, Text.BreakAfter, List.head?_eq_some_head hne]

/-- At the seam of two texts a character is read if the second begins with it. -/
theorem step?_char (u v : String) (c : Char) :
    (Atom.char c).step? (u ++ v) u.utf8ByteSize = some j ↔
      ∃ rest, v = String.singleton c ++ rest ∧ j = (u ++ String.singleton c).utf8ByteSize := by
  unfold Atom.step?
  rw [Option.map_eq_some_iff, String.utf8ByteSize_append, String.utf8ByteSize_singleton]
  show (∃ τ, State.consume (.fresh (u ++ v) u.utf8ByteSize 0 0) (· == c) = some τ ∧ _) ↔ _
  simp only [State.consume_eq_some_iff, State.peek, State.fresh, Text.charAt?_append]
  constructor
  · rintro ⟨τ, ⟨d, hd, hdc, rfl⟩, rfl⟩
    obtain rfl : d = c := by simpa using hdc
    obtain ⟨cs, hcs⟩ := List.head?_eq_some_iff.1 hd
    refine ⟨String.ofList cs, ?_, rfl⟩
    rw [← String.toList_inj, hcs]
    simp
  · rintro ⟨rest, rfl, rfl⟩
    exact ⟨_, ⟨c, by simp, by simp, rfl⟩, rfl⟩

/-- Characters in a row match what begins with them, if the trees behind match the rest. -/
theorem matchesAll_chars (cs : List Char) (ts : List Regex) (u v : String) :
    MatchesAll (u ++ v) (cs.map .char ++ ts) u.utf8ByteSize j ↔
      ∃ rest, v = String.ofList cs ++ rest ∧
        MatchesAll (u ++ v) ts (u ++ String.ofList cs).utf8ByteSize j := by
  induction cs generalizing u v with
  | nil => simp
  | cons c cs ih =>
    have hfirst : ∀ rest, u ++ (String.singleton c ++ rest) = u ++ String.singleton c ++ rest :=
      fun rest => (String.append_assoc ..).symm
    have hlater : ∀ rest, String.singleton c ++ String.ofList cs ++ rest =
        String.singleton c ++ (String.ofList cs ++ rest) := fun rest => String.append_assoc
    have hcons : String.ofList (c :: cs) = String.singleton c ++ String.ofList cs := by
      rw [← String.toList_inj]
      simp
    rw [List.map_cons, List.cons_append, MatchesAll, hcons]
    constructor
    · rintro ⟨k, hmatch, hrest⟩
      rw [char, Matches, step?_char] at hmatch
      obtain ⟨rest, rfl, rfl⟩ := hmatch
      rw [hfirst, ih] at hrest
      obtain ⟨rest, rfl, hrest⟩ := hrest
      refine ⟨rest, (String.append_assoc ..).symm, ?_⟩
      rwa [hfirst, hfirst]
    · rintro ⟨rest, rfl, hrest⟩
      rw [hlater, hfirst, hfirst] at hrest
      refine ⟨(u ++ String.singleton c).utf8ByteSize, ?_, ?_⟩
      · rw [char, Matches, step?_char]
        exact ⟨_, String.append_assoc .., rfl⟩
      · rw [hlater, hfirst, ih]
        exact ⟨rest, rfl, hrest⟩

/-- The tree of a whole line matches exactly where the line is. -/
theorem matches_wholeLine_iff {w subject : String} {i : Nat}
    (hi : Text.isBoundary subject i = true) :
    (wholeLine w).Matches subject i j ↔
      Text.IsLine subject i w ∧ j = i + w.utf8ByteSize := by
  obtain ⟨u, v, rfl, rfl⟩ := Text.isBoundary_iff.1 hi
  rw [wholeLine, Matches, MatchesAll]
  constructor
  · rintro ⟨k, hstart, hrest⟩
    rw [Matches, step?_lineStart] at hstart
    obtain ⟨hbefore, rfl⟩ := hstart
    rw [matchesAll_chars, String.ofList_toList] at hrest
    obtain ⟨after, rfl, hend⟩ := hrest
    obtain ⟨k, hend, rfl⟩ := hend
    rw [Matches, ← String.append_assoc, step?_lineEnd] at hend
    obtain ⟨hafter, rfl⟩ := hend
    exact ⟨⟨u, after, (String.append_assoc ..).symm, rfl, hbefore, hafter⟩,
      String.utf8ByteSize_append⟩
  · rintro ⟨⟨before, after, hsplit, hsize, hbefore, hafter⟩, rfl⟩
    rw [String.append_assoc] at hsplit
    obtain ⟨rfl, rfl⟩ := Text.append_inj hsplit hsize.symm
    refine ⟨_, (step?_lineStart ..).2 ⟨hbefore, rfl⟩, ?_⟩
    rw [matchesAll_chars, String.ofList_toList]
    refine ⟨after, rfl, _, ?_, rfl⟩
    rw [Matches, ← String.append_assoc, ← String.utf8ByteSize_append]
    exact (step?_lineEnd ..).2 ⟨hafter, rfl⟩

end Regex

namespace Pattern

/-- The pattern of a whole line is read as the tree of the line. -/
theorem parse_wholeLine (w : String) :
    Regex.parse (wholeLine w) = .ok ⟨Regex.wholeLine w, 0⟩ := by
  rw [← Regex.toPattern_wholeLine]
  exact Regex.parse_toPattern (Regex.wellFormed_wholeLine w)

/-- The pattern of a whole line is accepted if it is not too long, and refused otherwise. -/
theorem ofString_wholeLine (w : String) :
    (w.length + 7 ≤ maxVertices → ∃ p, ofString (wholeLine w) = .ok p) ∧
      (maxVertices < w.length + 7 →
        ofString (wholeLine w) = .error (.tooLarge maxVertices)) := by
  have hestimate : (Regex.wholeLine w).estimate = min (w.length + 4) maxWord := by
    rw [Regex.estimate_eq_min_weight, Regex.weight_wholeLine]
  have hlimit : maxVertices < saturatingAdd (Regex.wholeLine w).estimate 3 ↔
      maxVertices < w.length + 7 := by
    rw [hestimate]
    simp only [saturatingAdd, maxVertices, maxWord]
    omega
  constructor
  · intro hle
    obtain ⟨p, hp, -⟩ := exists_ofString_eq_ok (parse_wholeLine w)
      (Nat.le_of_not_lt fun hlt => absurd (hlimit.1 hlt) (Nat.not_lt.2 hle))
    exact ⟨p, hp⟩
  · intro hlt
    unfold ofString build Program.compile
    rw [parse_wholeLine]
    simp only [if_pos (hlimit.2 hlt)]

/-- A match of a pattern without groups tells a stretch of the subject and nothing else. -/
theorem eq_of_findFrom {text : String} {p : Pattern} (h : ofString text = .ok p)
    (hcaptures : p.captures = []) {subject : String} {start : Nat} {m : Match}
    (hm : p.findFrom subject start = some m) : m = ⟨subject, p.source, [], m.span, []⟩ := by
  obtain ⟨σ, hσ, rfl⟩ := Option.map_eq_some_iff.1 hm
  have hvalid := Program.valid_of_run hσ
  obtain ⟨groups, -, hcompile, -, hgroups⟩ := ofString_eq_ok_iff.1 h
  obtain rfl : groups = 0 := by
    rw [hcaptures, Parsed.captures] at hgroups
    simpa using hgroups.symm
  have hsize : σ.slots.size = 0 := by
    rw [hvalid.captures, Program.graph_of_compile hcompile]
    rfl
  have hslots : σ.captures = [] := by
    rw [State.captures, Array.eq_empty_of_size_eq_zero hsize]
    rfl
  rw [Match.ofState, hvalid.subject, hcaptures, hslots]

/-- **Whole lines.**  A text without newlines, between the two line anchors, is a pattern as long
as the limit allows; and a search for it finds the first line that begins at its start or later
and is this text, and nothing if there is no such line. -/
theorem findFrom_wholeLine {w : String} (hw : '\n' ∉ w.toList) :
    (w.length + 7 ≤ maxVertices → ∃ p, ofString (wholeLine w) = .ok p) ∧
    (maxVertices < w.length + 7 → ofString (wholeLine w) = .error (.tooLarge maxVertices)) ∧
    ∀ p, ofString (wholeLine w) = .ok p → ∀ subject start,
      p.findFrom subject start =
        ((Text.lines subject).find? fun l => decide (start ≤ l.offset ∧ l.text = w)).map fun l =>
          ⟨subject, wholeLine w, [], ⟨l.offset, l.offset + w.utf8ByteSize⟩, []⟩ := by
  refine ⟨(ofString_wholeLine w).1, (ofString_wholeLine w).2, fun p hp subject start => ?_⟩
  obtain ⟨groups, hparse, -, hsource, hcaptures⟩ := ofString_eq_ok_iff.1 hp
  rw [parse_wholeLine] at hparse
  obtain ⟨hroot, rfl⟩ : Regex.wholeLine w = p.root ∧ 0 = groups := by simpa using hparse
  rw [← hroot, Regex.toPattern_wholeLine] at hsource
  obtain ⟨hsome, hfound⟩ := findFrom_matches hp subject start
  rw [← hroot] at hsome hfound
  cases hm : p.findFrom subject start with
  | none =>
    have hnone : (Text.lines subject).find?
        (fun l => decide (start ≤ l.offset ∧ l.text = w)) = none := by
      rw [List.find?_eq_none]
      intro l hl hP
      obtain ⟨hle, rfl⟩ := of_decide_eq_true hP
      have hline := (Text.mem_lines_iff.1 hl).2
      have hmatches := (Regex.matches_wholeLine_iff hline.isBoundary).2 ⟨hline, rfl⟩
      have := hsome.2 ⟨_, _, hle, hline.isBoundary, hmatches⟩
      simp [hm] at this
    rw [hnone, Option.map_none]
  | some m =>
    obtain ⟨hle, hstart, -, hmatches, hleast⟩ := hfound m hm
    rw [Regex.matches_wholeLine_iff hstart] at hmatches
    obtain ⟨hline, hstop⟩ := hmatches
    have hmem : ⟨m.span.start, w⟩ ∈ Text.lines subject := Text.mem_lines_iff.2 ⟨hw, hline⟩
    rw [Text.find?_lines_eq_some hmem, Option.map_some, eq_of_findFrom hp hcaptures hm, hsource,
      ← hstop]
    · exact decide_eq_true ⟨hle, rfl⟩
    · intro l hl hP
      obtain ⟨hle', rfl⟩ := of_decide_eq_true hP
      have hline' := (Text.mem_lines_iff.1 hl).2
      exact hleast _ _ hle' hline'.isBoundary
        ((Regex.matches_wholeLine_iff hline'.isBoundary).2 ⟨hline', rfl⟩)

/-- The line is part of other lines, and a search may begin inside it; and an empty line, which is
found after the newline that ends the subject. -/
theorem findFrom_wholeLine_among_longer :
    (∃ p, ofString "^a\\.é$" = .ok p ∧
      (p.findFrom "a.éb\na.é\n\nxa.é\na.é" 0).map Match.span = some ⟨6, 10⟩ ∧
      (p.findFrom "a.éb\na.é\n\nxa.é\na.é" 7).map Match.span = some ⟨18, 22⟩ ∧
      p.findFrom "a.éb\na.é\n\nxa.é\na.é" 19 = none) ∧
    ∃ p, ofString "^$" = .ok p ∧ (p.findFrom "é\n" 0).map Match.span = some ⟨3, 3⟩ := by
  obtain ⟨haccepted, -, hfind⟩ := findFrom_wholeLine (show '\n' ∉ "a.é".toList by decide)
  obtain ⟨haccepted', -, hfind'⟩ := findFrom_wholeLine (show '\n' ∉ "".toList by decide)
  obtain ⟨p, hp⟩ := haccepted (by decide)
  obtain ⟨q, hq⟩ := haccepted' (by decide)
  refine ⟨⟨p, hp, ?_, ?_, ?_⟩, q, hq, ?_⟩
  · rw [hfind p hp, Option.map_map]
    decide +kernel
  · rw [hfind p hp, Option.map_map]
    decide +kernel
  · rw [hfind p hp, Option.map_eq_none_iff]
    decide +kernel
  · rw [hfind' q hq, Option.map_map]
    decide +kernel

end Pattern

end Backtrack
