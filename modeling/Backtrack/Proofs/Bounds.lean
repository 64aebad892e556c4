import Backtrack.Pattern
import Backtrack.Proofs.Boundaries
import Backtrack.Proofs.Outcomes
import Backtrack.Proofs.Termination

/-!
# Whatever is known of a match is within bounds

Every offset that a state knows is a boundary of the subject, and they are in order: the
start of the attempt, the offset where a group was opened or a round of a loop began, the
offset that has been reached (`State.Valid`).  The beginning of an attempt is such a state,
every test keeps it one (`State.Valid.of_run`), and so does every step of a walk
(`Graph.valid_of_step`).

Main statement: `Program.every_range_valid`.  All states of all walks are valid, and so
every text that a match can tell is the text that stands in the subject between the two
offsets (`Text.Covers`).
-/

namespace Backtrack

/-! ## Offsets in order -/

namespace Text

/-- Byte offset `i` is a boundary of `s` that lies between two others. -/
structure Between (s : String) (lo hi i : Nat) : Prop where
  lower : lo ≤ i
  upper : i ≤ hi
  boundary : isBoundary s i = true

theorem Between.mono {s : String} {lo hi hi' i : Nat} (h : Between s lo hi i) (hle : hi ≤ hi') :
    Between s lo hi' i :=
  ⟨h.lower, Nat.le_trans h.upper hle, h.boundary⟩

/-- The stretch `r` of `s` reads `part`: it begins and ends within `s`, in this order and at
boundaries. -/
def Covers (s : String) (r : Span) (part : String) : Prop :=
  ∃ u v, s = u ++ part ++ v ∧ u.utf8ByteSize = r.start ∧ (u ++ part).utf8ByteSize = r.stop

/-- Two boundaries in order are where the text between them begins and ends. -/
theorem covers_slice {s : String} {i j : Nat} (hi : isBoundary s i = true)
    (hj : isBoundary s j = true) (hle : i ≤ j) : Covers s ⟨i, j⟩ (slice s i j) := by
  obtain ⟨u, v, hu, rfl⟩ := isBoundary_iff.1 hi
  obtain ⟨x, y, rfl, rfl⟩ := isBoundary_iff.1 hj
  obtain ⟨w, rfl⟩ := exists_append_of_le hu.symm hle
  have hslice : slice (u ++ w ++ y) u.utf8ByteSize (u ++ w).utf8ByteSize = w := by
    rw [String.utf8ByteSize_append, slice_append]
  exact ⟨u, y, by rw [hslice], rfl, by rw [hslice]⟩

theorem Covers.bounds {s : String} {r : Span} {part : String} (h : Covers s r part) :
    r.start ≤ r.stop ∧ r.stop ≤ s.utf8ByteSize := by
  obtain ⟨u, v, rfl, hstart, hstop⟩ := h
  simp only [String.utf8ByteSize_append] at hstop ⊢
  omega

/-- A text is made of the part before a stretch, the stretch and the part after it. -/
theorem slices_append {s : String} {i j : Nat} (hi : isBoundary s i = true)
    (hj : isBoundary s j = true) (hle : i ≤ j) :
    slice s 0 i ++ slice s i j ++ slice s j s.utf8ByteSize = s := by
  obtain ⟨u, v, hs, rfl, hstop⟩ := covers_slice hi hj hle
  generalize slice s u.utf8ByteSize j = w at hs hstop
  subst hs
  subst hstop
  have hbefore := slice_append "" u (w ++ v)
  have hafter := slice_append (u ++ w) v ""
  simp only [String.empty_append, String.append_empty, String.utf8ByteSize_empty, Nat.zero_add,
    ← String.append_assoc, ← String.utf8ByteSize_append] at hbefore hafter
  rw [hbefore, hafter]

end Text

/-! ## States -/

/-- What a slot knows lies between the start of the attempt and the offset reached. -/
structure Slot.Valid (text : String) (start offset : Nat) (s : Slot) : Prop where
  opened : ∀ o, s.opened = some o → Text.Between text start offset o
  span : ∀ r, s.span = some r →
    Text.Between text start r.stop r.start ∧ Text.Between text start offset r.stop

/-- State `σ` belongs to a search through `text` with so many groups and loops, and all that
it knows is within bounds. -/
structure State.Valid (text : String) (captures loops : Nat) (σ : State) : Prop where
  subject : σ.subject = text
  start : Text.isBoundary text σ.start = true
  offset : Text.Between text σ.start text.utf8ByteSize σ.offset
  slots : ∀ s ∈ σ.slots, s.Valid text σ.start σ.offset
  marks : ∀ m ∈ σ.marks, Text.Between text σ.start σ.offset m
  captures : σ.slots.size = captures
  loops : σ.marks.size = loops

namespace Slot

variable {text : String} {start offset : Nat} {s : Slot}

theorem valid_unset (text : String) (start offset : Nat) : unset.Valid text start offset :=
  ⟨nofun, nofun⟩

theorem Valid.mono {offset' : Nat} (h : s.Valid text start offset) (hle : offset ≤ offset') :
    s.Valid text start offset' :=
  ⟨fun o ho => (h.opened o ho).mono hle, fun r hr => ⟨(h.span r hr).1, (h.span r hr).2.mono hle⟩⟩

theorem Valid.reopen (h : s.Valid text start offset) (hoffset : Text.Between text start offset offset) :
    Valid text start offset { s with opened := some offset } where
  opened o ho := by
    cases ho
    exact hoffset
  span := h.span

/-- A group that is completed ends where the attempt stands, and it began before. -/
theorem Valid.close (h : s.Valid text start offset)
    (hoffset : Text.Between text start offset offset) : (s.close offset).Valid text start offset := by
  unfold Slot.close
  split
  · next o ho =>
    refine ⟨h.opened, fun r hr => ?_⟩
    cases hr
    exact ⟨h.opened o ho, hoffset⟩
  · exact h

end Slot

namespace State

variable {text : String} {captures loops : Nat} {σ τ : State}

theorem valid_fresh {b : Nat} (hb : Text.isBoundary text b = true) (captures loops : Nat) :
    (fresh text b captures loops).Valid text captures loops where
  subject := rfl
  start := hb
  offset := ⟨Nat.le_refl b, Text.le_utf8ByteSize_of_isBoundary hb, hb⟩
  slots s hs := by
    rw [(Array.mem_replicate.1 hs).2]
    exact Slot.valid_unset text b b
  marks m hm := by
    rw [(Array.mem_replicate.1 hm).2]
    exact ⟨Nat.le_refl b, Nat.le_refl b, hb⟩
  captures := Array.size_replicate
  loops := Array.size_replicate

theorem Valid.here (h : σ.Valid text captures loops) :
    Text.Between text σ.start σ.offset σ.offset :=
  ⟨h.offset.lower, Nat.le_refl _, h.offset.boundary⟩

/-- Whatever is done to one slot, if it leaves that one valid. -/
theorem Valid.modify (h : σ.Valid text captures loops) (i : Nat) {f : Slot → Slot}
    (hf : ∀ s, s.Valid text σ.start σ.offset → (f s).Valid text σ.start σ.offset) :
    Valid text captures loops { σ with slots := σ.slots.modify i f } where
  subject := h.subject
  start := h.start
  offset := h.offset
  slots s hs := by
    obtain ⟨j, hj, rfl⟩ := Array.mem_iff_getElem.1 hs
    rw [Array.getElem_modify]
    split
    · exact hf _ (h.slots _ (Array.getElem_mem _))
    · exact h.slots _ (Array.getElem_mem _)
  marks := h.marks
  captures := by
    rw [Array.size_modify]
    exact h.captures
  loops := h.loops

theorem Valid.mark (h : σ.Valid text captures loops) (k : Nat) :
    (σ.mark k).Valid text captures loops where
  subject := h.subject
  start := h.start
  offset := h.offset
  slots := h.slots
  marks m hm := by
    rcases Array.mem_or_eq_of_mem_setIfInBounds hm with hm | rfl
    · exact h.marks m hm
    · exact h.here
  captures := h.captures
  loops := by
    show (σ.marks.setIfInBounds k σ.offset).size = loops
    rw [Array.size_setIfInBounds]
    exact h.loops

/-- Consuming a character leads to the boundary at which that very character ends. -/
theorem Valid.consume (h : σ.Valid text captures loops) {accepts : Char → Bool}
    (hτ : σ.consume accepts = some τ) : τ.Valid text captures loops := by
  unfold State.consume at hτ
  split at hτ
  case h_2 => cases hτ
  case h_1 c hc =>
    split at hτ
    case isFalse => cases hτ
    case isTrue =>
      cases hτ
      rw [peek, h.subject] at hc
      have hle : σ.offset ≤ σ.offset + c.utf8Size := Nat.le_add_right ..
      exact {
        subject := h.subject
        start := h.start
        offset := ⟨Nat.le_trans h.offset.lower hle, Text.add_utf8Size_le hc,
          Text.isBoundary_add_utf8Size hc⟩
        slots := fun s hs => (h.slots s hs).mono hle
        marks := fun m hm => (h.marks m hm).mono hle
        captures := h.captures
        loops := h.loops }

/-- Every test keeps a state valid. -/
theorem Valid.of_test (h : σ.Valid text captures loops) {test : Test}
    (hτ : test.run σ = some τ) : τ.Valid text captures loops := by
  cases test with
  | atom a =>
    rw [Test.run, Atom.run] at hτ
    split at hτ
    · exact h.consume hτ
    · split at hτ
      · cases hτ
        exact h
      · cases hτ
  | anyChar => exact h.consume hτ
  | openSlot i =>
    cases hτ
    exact h.modify i fun s hs => hs.reopen h.here
  | closeSlot i =>
    cases hτ
    exact h.modify i fun s hs => hs.close h.here
  | enterLoop k =>
    cases hτ
    exact h.mark k
  | progressed k =>
    rw [Test.run] at hτ
    split at hτ
    · cases hτ
      exact h
    · cases hτ
  | stalled k =>
    rw [Test.run] at hτ
    split at hτ
    · cases hτ
    · cases hτ
      exact h
  | join =>
    cases hτ
    exact h
  | never => cases hτ

/-- Every automaton keeps a state valid. -/
theorem Valid.of_run (h : σ.Valid text captures loops) {a : Automaton}
    (hτ : a.run σ = some τ) : τ.Valid text captures loops := by
  unfold Automaton.run at hτ
  split at hτ
  · split at hτ
    · cases hτ
    · cases hτ
      exact h
  · exact h.of_test hτ

/-- The next attempt begins at a boundary, with as many groups and loops. -/
theorem Valid.nextAttempt (h : σ.Valid text captures loops) (hτ : σ.nextAttempt = some τ) :
    τ.Valid text captures loops := by
  unfold State.nextAttempt at hτ
  split at hτ
  · cases hτ
  · next hlast =>
    cases hτ
    rw [isLastAttempt, decide_eq_true_eq, h.subject] at hlast
    obtain ⟨c, hc⟩ := Text.exists_charAt? h.start (Nat.lt_of_not_le hlast)
    rw [h.subject, h.captures, h.loops, hc]
    exact valid_fresh (Text.isBoundary_add_utf8Size hc) captures loops

end State

/-! ## Walks -/

/-- All states of a walk are valid. -/
structure Walk.Valid (text : String) (captures loops : Nat) (w : Walk) : Prop where
  attempt : w.attempt.Valid text captures loops
  stack : ∀ t ∈ w.stack, t.state.Valid text captures loops

namespace Graph

variable {g : Graph} {text : String} {captures loops : Nat} {v w : Walk}

theorem valid_attempt {σ : State} (h : σ.Valid text captures loops) :
    (g.attempt σ).Valid text captures loops := by
  refine ⟨h, fun t ht => ?_⟩
  rw [List.mem_singleton.1 ht]
  exact h

/-- The tasks that replace a task have valid states if it has one. -/
theorem valid_of_mem_follow {t u : Task} (h : t.state.Valid text captures loops)
    (hu : u ∈ g.follow t) : u.state.Valid text captures loops := by
  unfold follow at hu
  split at hu
  · split at hu
    · next hτ =>
      obtain ⟨n, -, rfl⟩ := List.mem_map.1 hu
      exact h.of_run hτ
    · cases hu
  · cases hu

theorem valid_of_run {n : Nat} {σ τ : State} (h : σ.Valid text captures loops)
    (hτ : g.run n σ = some τ) : τ.Valid text captures loops := by
  unfold run at hτ
  split at hτ
  · exact h.of_run hτ
  · cases hτ

/-- **One step** keeps a walk valid, and what it finds is valid. -/
theorem valid_of_step (h : w.Valid text captures loops) :
    (∀ v, (g.step w).next? = some v → v.Valid text captures loops) ∧
      ∀ σ, (g.step w).final? = some σ → σ.Valid text captures loops := by
  obtain ⟨attempt, stack⟩ := w
  cases stack with
  | nil =>
    unfold step
    cases hτ : attempt.nextAttempt with
    | none =>
      constructor
      · intro v hv
        cases hv
      · intro σ hσ
        cases hσ
    | some τ =>
      constructor
      · intro v hv
        cases hv
        exact valid_attempt (h.attempt.nextAttempt hτ)
      · intro σ hσ
        cases hσ
  | cons t stack =>
    have ht := h.stack t List.mem_cons_self
    have hstack := fun u hu => h.stack u (List.mem_cons_of_mem t hu)
    by_cases hterminal : t.vertex = g.terminal
    · cases hτ : g.run t.vertex t.state with
      | none =>
        simp only [step, if_pos hterminal, hτ]
        constructor
        · intro v hv
          cases hv
          exact ⟨h.attempt, hstack⟩
        · intro σ hσ
          cases hσ
      | some τ =>
        simp only [step, if_pos hterminal, hτ]
        constructor
        · intro v hv
          cases hv
        · intro σ hσ
          cases hσ
          exact valid_of_run ht hτ
    · simp only [step, if_neg hterminal]
      constructor
      · intro v hv
        cases hv
        refine ⟨h.attempt, fun u hu => ?_⟩
        rcases List.mem_append.1 hu with hu | hu
        · exact valid_of_mem_follow ht hu
        · exact hstack u hu
      · intro σ hσ
        cases hσ

/-- Any number of steps keeps a walk valid. -/
theorem valid_of_walkAfter {n : Nat} (h : w.Valid text captures loops)
    (hn : g.walkAfter n w = some v) : v.Valid text captures loops := by
  induction n generalizing w with
  | zero =>
    cases hn
    exact h
  | succ n ih =>
    rw [walkAfter, Option.bind_eq_some_iff] at hn
    obtain ⟨u, hu, hn⟩ := hn
    exact ih ((valid_of_step h).1 u hu) hn

/-- A walk that ends has a last step. -/
theorem exists_last_step (h : Acc g.Steps w) :
    ∃ n v, g.walkAfter n w = some v ∧ (g.step v).next? = none := by
  induction h with
  | intro w _ ih =>
    cases hs : (g.step w).next? with
    | none => exact ⟨0, w, rfl, hs⟩
    | some u =>
      obtain ⟨n, v, hn, hv⟩ := ih u hs
      exact ⟨n + 1, v, by rw [walkAfter, hs, Option.bind_some, hn], hv⟩

end Graph

namespace Program

variable {p : Program} {text : String}

/-- All walks of a search are valid. -/
theorem valid_of_walkAfter {start n : Nat} {w : Walk} (h : p.walkAfter text start n = some w) :
    w.Valid text p.graph.captures p.graph.loops := by
  obtain ⟨b, hb, h⟩ := Option.bind_eq_some_iff.1 h
  have hbound := (Text.boundariesFrom_of_boundaryFrom? hb).1
  exact Graph.valid_of_walkAfter (Graph.valid_attempt (State.valid_fresh hbound ..)) h

/-- What a search comes to is valid. -/
theorem valid_of_run {start : Nat} {σ : State} (h : p.run text start = some σ) :
    σ.Valid text p.graph.captures p.graph.loops := by
  unfold run search at h
  split at h
  · next b hb =>
    have hbound := (Text.boundariesFrom_of_boundaryFrom? hb).1
    have hwalk := Graph.valid_attempt (g := p.graph)
      (State.valid_fresh hbound p.graph.captures p.graph.loops)
    obtain ⟨n, v, hn, hv⟩ := Graph.exists_last_step (p.halts.acc _)
    rw [Graph.walk_final_of_last hn hv] at h
    exact (Graph.valid_of_step (Graph.valid_of_walkAfter hwalk hn)).2 σ h
  · cases h

end Program

/-! ## Matches -/

namespace Match

/-- The stretches of the subject whose texts a match tells: the whole subject, what matched,
what comes before and after it, and what the groups matched. -/
def slices (m : Match) : List Span :=
  [⟨0, m.subject.utf8ByteSize⟩, m.span, ⟨0, m.span.start⟩,
    ⟨m.span.stop, m.subject.utf8ByteSize⟩] ++ m.groups.filterMap id

variable {text pattern : String} {names : List Capture} {captures loops : Nat} {σ : State} {s : Span}

/-- What a group matched lies inside what the whole pattern matched. -/
theorem between_of_mem_groups (h : σ.Valid text captures loops)
    (hs : some s ∈ (ofState pattern names σ).groups) :
    Text.Between text σ.start s.stop s.start ∧ Text.Between text σ.start σ.offset s.stop := by
  obtain ⟨slot, hslot, hspan⟩ := List.mem_map.1 (show some s ∈ σ.captures from hs)
  exact (h.slots slot (Array.mem_toList_iff.1 hslot)).span s hspan

/-- Whatever text a match tells stands in the subject. -/
theorem covers_of_mem_slices (h : σ.Valid text captures loops)
    (hs : s ∈ (ofState pattern names σ).slices) :
    Text.Covers text s ((ofState pattern names σ).textOf s) := by
  have hsubject := h.subject
  subst hsubject
  have hstop := h.offset.boundary
  have hzero := Text.isBoundary_zero σ.subject
  have hsize := Text.isBoundary_utf8ByteSize σ.subject
  rcases List.mem_append.1 hs with hs | hs
  · simp only [List.mem_cons, List.not_mem_nil, or_false] at hs
    rcases hs with rfl | rfl | rfl | rfl
    · exact Text.covers_slice hzero hsize (Nat.zero_le _)
    · exact Text.covers_slice h.start hstop h.offset.lower
    · exact Text.covers_slice hzero h.start (Nat.zero_le _)
    · exact Text.covers_slice hstop hsize h.offset.upper
  · obtain ⟨group, hgroup, rfl⟩ := List.mem_filterMap.1 hs
    obtain ⟨hfirst, hlast⟩ := between_of_mem_groups h hgroup
    exact Text.covers_slice hfirst.boundary hlast.boundary hfirst.upper

end Match

/-- **Every range is valid.**  In every walk through the graph of any tree, whatever number of
groups is remembered, all states are valid, and they have as many slots and marks as at the
start.  So the groups of a match lie inside the match, all texts that it tells can be cut out
of the subject, and the texts before, in and after it make up the subject. -/
theorem Program.every_range_valid :
    (∀ t captures p, compile t captures = .ok p → ∀ text start n w,
      p.walkAfter text start n = some w →
        w.attempt.Valid text captures t.loops ∧
          ∀ task ∈ w.stack, task.state.Valid text captures t.loops) ∧
    ∀ source p, Pattern.ofString source = .ok p → ∀ text start m,
      p.findFrom text start = some m →
        m.subject = text ∧
        (∀ s, some s ∈ m.groups →
          m.span.start ≤ s.start ∧ s.start ≤ s.stop ∧ s.stop ≤ m.span.stop) ∧
        (∀ s ∈ m.slices, s.start ≤ s.stop ∧ s.stop ≤ m.subject.utf8ByteSize ∧
          Text.Covers m.subject s (m.textOf s)) ∧
        m.before ++ m.text ++ m.after = m.subject := by
  refine ⟨fun t captures p hp text start n w hw => ?_, fun source p _ text start m hm => ?_⟩
  · have hvalid := valid_of_walkAfter hw
    rw [graph_of_compile hp] at hvalid
    exact ⟨hvalid.attempt, hvalid.stack⟩
  · obtain ⟨σ, hσ, rfl⟩ := Option.map_eq_some_iff.1 hm
    have hvalid := valid_of_run hσ
    refine ⟨hvalid.subject, fun s hs => ?_, fun s hs => ?_, ?_⟩
    · obtain ⟨hfirst, hlast⟩ := Match.between_of_mem_groups hvalid hs
      exact ⟨hfirst.lower, hfirst.upper, hlast.upper⟩
    · have hcovers := Match.covers_of_mem_slices hvalid hs
      rw [← hvalid.subject] at hcovers
      obtain ⟨hle, hsize⟩ := hcovers.bounds
      exact ⟨hle, hsize, hcovers⟩
    · have hstart := hvalid.start
      have hstop := hvalid.offset.boundary
      rw [← hvalid.subject] at hstart hstop
      exact Text.slices_append hstart hstop hvalid.offset.lower

/-- A walk that begins inside a character and remembers more groups than there are, after a
round of a loop; and a match whose group has been opened anew in each round. -/
theorem Program.every_range_valid_in_rounds :
    (∃ p w task, compile (.repeated (.group 0 (.atom .dot)) ⟨0, none, false⟩) 2 = .ok p ∧
      p.walkAfter "aéé" 2 7 = some w ∧ task ∈ w.stack ∧
      task.state.captures = [some ⟨3, 5⟩, none] ∧ task.state.Valid "aéé" 2 1) ∧
    ∃ p m, Pattern.ofString "(é|b)+" = .ok p ∧ p.findFrom "aébé-" 2 = some m ∧
      m.groups = [some ⟨4, 6⟩] ∧ Text.Covers m.subject ⟨4, 6⟩ (m.textOf ⟨4, 6⟩) ∧
      m.before ++ m.text ++ m.after = m.subject := by
  constructor
  · let t : Regex := .repeated (.group 0 (.atom .dot)) ⟨0, none, false⟩
    let p : Program := ⟨t.graph 2, t.graph_halts 2⟩
    have hp : compile t 2 = .ok p := if_neg (by decide)
    have hstack : (p.walkAfter "aéé" 2 7).map (·.stack.head?.map (·.state.captures)) =
        some (some [some ⟨3, 5⟩, none]) := by
      decide +kernel
    obtain ⟨w, hw, hhead⟩ := Option.map_eq_some_iff.1 hstack
    obtain ⟨task, htask, hcaptures⟩ := Option.map_eq_some_iff.1 hhead
    have hmem := List.mem_of_head? htask
    exact ⟨p, w, task, hp, hw, hmem, hcaptures,
      (every_range_valid.1 t 2 p hp "aéé" 2 7 w hw).2 task hmem⟩
  · let t : Regex := .seq [
      .repeated (.group 0 (.alt [.seq [.char 'é'], .seq [.char 'b']])) ⟨1, none, false⟩]
    let p : Pattern := ⟨t.toPattern, t, [⟨0⟩], ⟨t.graph 1, t.graph_halts 1⟩⟩
    have hp : Pattern.ofString "(é|b)+" = .ok p :=
      Pattern.ofString_eq_ok_iff.2 ⟨1, rfl, if_neg (by decide), rfl, rfl⟩
    have hrun : (p.findFrom "aébé-" 2).map Match.groups = some [some ⟨4, 6⟩] := by
      rw [Pattern.map_findFrom hp fun _ groups => groups]
      decide +kernel
    obtain ⟨m, hm, hgroups⟩ := Option.map_eq_some_iff.1 hrun
    obtain ⟨-, -, hslices, happend⟩ := every_range_valid.2 _ p hp "aébé-" 2 m hm
    have hmem : ⟨4, 6⟩ ∈ m.slices := by simp [Match.slices, hgroups]
    exact ⟨p, m, hp, hm, hgroups, (hslices _ hmem).2.2, happend⟩

end Backtrack
