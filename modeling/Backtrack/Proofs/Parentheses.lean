import Backtrack.Proofs.Outline

/-!
# What parentheses enclose

The groups of a tree are listed with their bodies (`Regex.groups`), and this is compared with the
outline of the text.

Main statements: `Regex.ofText_of_parse`, an accepted pattern has as many parentheses as groups and
all of them are closed, and `Regex.encloses_of_parse`, what two parentheses enclose is a pattern by
itself, whose tree is the body of their group.

    a group that is complete stays as it is              (complete_of_readAll)
    what is open around makes no difference              (read_within)
    a group is closed where its body may end             (exists_closing)
    after its opening parenthesis it is read by itself   (read_open, exists_of_readAll_after)
-/

namespace Backtrack

/-! ## Groups and their bodies -/

namespace Regex

mutual

/-- The slots and the bodies of the groups of a tree, in the order in which the groups open. -/
def groups : Regex → List (Nat × Regex)
  | .atom _ => []
  | .seq items => groupsOf items
  | .alt branches => groupsOf branches
  | .charClass members => groupsOf members
  | .negation body => groups body
  | .group slot body => (slot, body) :: groups body
  | .repeated body _ => groups body

/-- The slots and the bodies of the groups of several trees. -/
def groupsOf : List Regex → List (Nat × Regex)
  | [] => []
  | t :: rest => groups t ++ groupsOf rest

end

theorem groupsOf_append (ts us : List Regex) :
    groupsOf (ts ++ us) = groupsOf ts ++ groupsOf us := by
  induction ts with
  | nil => rfl
  | cons t rest ih => rw [List.cons_append, groupsOf, groupsOf, ih, List.append_assoc]

theorem map_fst_groupsOf {ts : List Regex} (ih : ∀ t ∈ ts, t.groups.map Prod.fst = t.slots) :
    (groupsOf ts).map Prod.fst = slotsOf ts := by
  induction ts with
  | nil => rfl
  | cons t rest ihts =>
    rw [groupsOf, slotsOf, List.map_append, ih t (by simp), ihts fun t ht => ih t (by simp [ht])]

theorem map_fst_groups (t : Regex) : t.groups.map Prod.fst = t.slots := by
  induction t with
  | atom a => rfl
  | seq items ih => exact map_fst_groupsOf ih
  | alt branches ih => exact map_fst_groupsOf ih
  | charClass members ih => exact map_fst_groupsOf ih
  | negation body ih => exact ih
  | group slot body ih => rw [groups, slots, List.map_cons, ih]
  | repeated body count ih => exact ih

end Regex

open Regex (groupsOf groupsOf_append)

namespace Level

/-- The complete groups of a level. -/
def groups (l : Level) : List (Nat × Regex) :=
  groupsOf l.branches.reverse ++ groupsOf l.items.reverse

theorem groups_push (l : Level) (t : Regex) : (l.push t).groups = l.groups ++ t.groups := by
  simp [groups, push, groupsOf_append, groupsOf]

theorem groups_nextBranch (l : Level) : l.nextBranch.groups = l.groups := by
  simp [groups, nextBranch, groupsOf_append, groupsOf, Regex.groups]

theorem groups_repeatLast (l : Level) (count : Quantifier) :
    (l.repeatLast count).groups = l.groups := by
  unfold repeatLast
  split
  · rfl
  · next item items h => simp [groups, h, groupsOf_append, groupsOf, Regex.groups]

theorem groups_close (l : Level) : l.close.groups = l.groups := by
  unfold close
  split
  · next h => simp [groups, h, Regex.groups, groupsOf]
  · simp [groups, Regex.groups, groupsOf_append, groupsOf]

end Level

namespace Parser

variable {p q P : Parser} {c : Char} {cs : List Char}

/-! ## What is complete stays -/

/-- The groups that are complete. -/
def complete (p : Parser) : List (Nat × Regex) :=
  (p.enclosing.flatMap fun g => g.outer.groups) ++ p.level.groups

theorem complete_push (p : Parser) (t : Regex) : (p.push t).complete = p.complete ++ t.groups := by
  simp [complete, push, Level.groups_push]

theorem complete_repeatLast (p : Parser) (count : Quantifier) :
    (p.repeatLast count).complete = p.complete := by
  simp [complete, repeatLast, Level.groups_repeatLast]

theorem complete_subset_push (p : Parser) (t : Regex) : p.complete ⊆ (p.push t).complete := by
  rw [complete_push]
  exact List.subset_append_left _ _

theorem complete_subset_settle (p : Parser) : p.complete ⊆ p.settle.complete := by
  have hpush : ∀ cs : List Char,
      p.complete ⊆ (cs.foldl (fun p c => p.push (.char c)) p).complete := fun cs =>
    List.foldlRecOn (motive := fun q : Parser => p.complete ⊆ q.complete) cs _
      (List.Subset.refl _) fun q hq c _ => List.Subset.trans hq (q.complete_subset_push _)
  unfold settle
  split
  · rw [complete_repeatLast]
    exact List.Subset.refl _
  · exact hpush _
  · exact List.Subset.refl _

theorem complete_of_quantify {least : Nat} {most : Option Nat} (h : p.quantify least most = .ok q) :
    p.complete ⊆ q.complete := by
  unfold quantify at h
  split at h
  · cases h
  · cases h
    exact List.Subset.refl _

/-- A group that is closed is one more of those that are complete. -/
theorem complete_of_closeGroup (h : p.closeGroup = .ok q) : p.complete ⊆ q.complete := by
  unfold closeGroup at h
  split at h
  · cases h
  · next g enclosing henclosing =>
    cases h
    intro x hx
    simp only [complete, henclosing, List.flatMap_cons, Level.groups_push, Regex.groups,
      Level.groups_close, List.mem_append, List.mem_cons] at hx ⊢
    rcases hx with (hx | hx) | hx
    · exact .inr (.inl hx)
    · exact .inl hx
    · exact .inr (.inr (.inr hx))

theorem complete_of_readItem (h : p.readItem c = .ok q) : p.complete ⊆ q.complete := by
  unfold readItem at h
  split at h
  · -- a bar
    cases h
    simp [complete, Level.groups_nextBranch]
  · -- an opening parenthesis
    cases h
    intro x hx
    simp only [complete, List.mem_append] at hx
    simp only [complete, List.flatMap_cons, List.mem_append]
    exact .inl hx.symm
  · exact complete_of_closeGroup h
  · exact complete_of_quantify h
  · exact complete_of_quantify h
  · exact complete_of_quantify h
  · cases h
    split
    · exact complete_subset_push p _
    · exact List.Subset.refl _
  · cases h
    exact List.Subset.refl _
  · cases h
    exact List.Subset.refl _
  all_goals
    cases h
    exact complete_subset_push p _

theorem complete_of_settle_readItem (h : p.settle.readItem c = .ok q) : p.complete ⊆ q.complete :=
  List.Subset.trans p.complete_subset_settle (complete_of_readItem h)

theorem complete_of_closeBraces {b : Braces} (h : p.closeBraces b = .ok q) :
    p.complete ⊆ q.complete := by
  unfold closeBraces at h
  split at h
  · exact complete_of_settle_readItem h
  · cases h
    exact List.Subset.refl _
  · split at h
    · cases h
    · cases h
      exact List.Subset.refl _

theorem complete_of_readInPlace (h : p.readInPlace c = .ok q) : p.complete ⊆ q.complete := by
  unfold readInPlace at h
  split at h
  · exact complete_of_readItem h
  · cases h
    exact complete_subset_push p _
  · split at h
    · cases h
      rw [complete_repeatLast]
      exact List.Subset.refl _
    · exact complete_of_settle_readItem h
  · split at h
    · cases h
      exact List.Subset.refl _
    · split at h
      · exact complete_of_closeBraces h
      · exact complete_of_settle_readItem h
  · next k _ =>
    obtain ⟨s, -, rfl⟩ := map_eq_ok_iff.1 h
    cases s with
    | reading k' => exact List.Subset.refl _
    | complete t => exact complete_subset_push p t

theorem complete_of_read (h : p.read c = .ok q) : p.complete ⊆ q.complete := by
  obtain ⟨r, hread, rfl⟩ := map_eq_ok_iff.1 h
  have hcomplete : p.complete ⊆ r.complete := complete_of_readInPlace hread
  exact hcomplete

/-- Groups that are complete stay as they are, whatever comes next. -/
theorem complete_of_readAll (h : p.readAll cs = .ok q) : p.complete ⊆ q.complete := by
  induction cs generalizing p with
  | nil =>
    cases h
    exact List.Subset.refl _
  | cons c cs ih =>
    obtain ⟨r, hread, h⟩ := readAll_cons_eq_ok.1 h
    exact List.Subset.trans (complete_of_read hread) (ih h)

/-! ## Inside a group -/

/-- The parser with the groups `gs` open around all that it has read. -/
def within (gs : List OpenGroup) (p : Parser) : Parser := { p with enclosing := p.enclosing ++ gs }

variable {gs : List OpenGroup} {g : OpenGroup}

theorem settle_within (p : Parser) : (p.within gs).settle = p.settle.within gs := by
  unfold settle
  rw [show (p.within gs).mode = p.mode from rfl]
  cases p.mode with
  | braces b => exact List.foldl_hom (within gs) fun _ _ => rfl
  | _ => rfl

theorem quantify_within (p : Parser) (least : Nat) (most : Option Nat) :
    (p.within gs).quantify least most = (p.quantify least most).map (within gs) := by
  unfold quantify
  rw [apply_ite (Except.map (within gs))]
  rfl

theorem readItem_within (hc : c = ')' → p.enclosing ≠ []) :
    (p.within gs).readItem c = (p.readItem c).map (within gs) := by
  unfold readItem
  split
  · rfl
  · rfl
  · -- a closing parenthesis, which closes a group that is open inside
    obtain ⟨g, enclosing, henclosing⟩ := List.exists_cons_of_ne_nil (hc rfl)
    simp only [closeGroup, within, henclosing]
    rfl
  · exact quantify_within p _ _
  · exact quantify_within p _ _
  · exact quantify_within p _ _
  · show Except.ok _ = Except.ok _
    rw [apply_ite (within gs)]
    rfl
  all_goals rfl

theorem settle_readItem_within (hc : c = ')' → p.enclosing ≠ []) :
    (p.within gs).settle.readItem c = (p.settle.readItem c).map (within gs) := by
  rw [settle_within, readItem_within]
  rwa [p.settle_unchanged.1]

theorem closeBraces_within (p : Parser) (b : Braces) :
    (p.within gs).closeBraces b = (p.closeBraces b).map (within gs) := by
  unfold closeBraces
  cases b.bounds? with
  | none => exact settle_readItem_within fun h => absurd h (by decide)
  | some bounds =>
    obtain ⟨least, most⟩ := bounds
    cases most with
    | none => rfl
    | some most =>
      show _ = Except.map _ (ite _ _ _)
      rw [apply_ite (Except.map (within gs))]
      rfl

/-- What is open around makes no difference, unless a parenthesis comes that would close it. -/
theorem read_within (hc : ¬ (c = ')' ∧ p.mode.isSettleable = true ∧ p.enclosing = [])) :
    (p.within gs).read c = (p.read c).map (within gs) := by
  have hclose : p.mode.isSettleable = true → c = ')' → p.enclosing ≠ [] :=
    fun hm hc' h => hc ⟨hc', hm, h⟩
  have hplace : (p.within gs).readInPlace c = (p.readInPlace c).map (within gs) := by
    unfold readInPlace
    rw [show (p.within gs).mode = p.mode from rfl]
    cases hm : p.mode with
    | item => exact readItem_within (hclose (by rw [hm]; rfl))
    | escape offset => rfl
    | quantifier least most =>
      simp only []
      rw [apply_ite (Except.map (within gs)), settle_readItem_within (hclose (by rw [hm]; rfl))]
      rfl
    | braces b =>
      simp only []
      cases b.push? c with
      | some b => rfl
      | none =>
        simp only []
        rw [apply_ite (Except.map (within gs)), settle_readItem_within (hclose (by rw [hm]; rfl)),
          closeBraces_within]
    | charClass k =>
      simp only []
      rw [show (p.within gs).offset = p.offset from rfl]
      cases k.read p.offset c with
      | error e => rfl
      | ok s => cases s <;> rfl
  unfold read
  rw [hplace]
  cases p.readInPlace c <;> rfl

/-- The innermost group has been closed where its body may end. -/
def closed (p : Parser) (g : OpenGroup) (gs : List OpenGroup) : Parser where
  offset := p.offset + 1
  groups := p.groups
  enclosing := gs
  level := g.outer.push (.group g.slot p.settle.level.close)
  mode := .item

theorem read_close (hm : p.mode.isSettleable = true) (henclosing : p.enclosing = []) :
    (p.within (g :: gs)).read ')' = .ok (p.closed g gs) := by
  obtain ⟨hsame, hgroups, hoffset⟩ := p.settle_unchanged
  have hplace := readInPlace_of_isSettleable (p := p.within (g :: gs)) (c := ')') hm (by decide)
    (by decide) (by decide) (by decide)
  unfold read
  rw [hplace, settle_within]
  simp only [readItem, closeGroup, within, hsame, henclosing, List.nil_append]
  show Except.ok _ = Except.ok _
  simp only [closed, hgroups]
  rfl

/-- A group that is open and is closed later on is closed by the first parenthesis that closes
none inside it. -/
theorem exists_closing {v : List Char} (h : (p.within (g :: gs)).readAll v = .ok P)
    (hP : P.enclosing = []) :
    ∃ body w b, v = body ++ ')' :: w ∧ p.readAll body = .ok b ∧ b.mode.isSettleable = true ∧
      b.enclosing = [] ∧ (b.closed g gs).readAll w = .ok P := by
  induction v generalizing p with
  | nil =>
    cases h
    exact absurd hP (by simp [within])
  | cons c v ih =>
    obtain ⟨r, hread, h⟩ := readAll_cons_eq_ok.1 h
    by_cases hc : c = ')' ∧ p.mode.isSettleable = true ∧ p.enclosing = []
    · obtain ⟨rfl, hm, henclosing⟩ := hc
      rw [read_close hm henclosing] at hread
      cases hread
      exact ⟨[], v, p, rfl, rfl, hm, henclosing, h⟩
    · rw [read_within hc] at hread
      obtain ⟨r, hinside, rfl⟩ := map_eq_ok_iff.1 hread
      obtain ⟨body, w, b, rfl, hb, hrest⟩ := ih h
      exact ⟨c :: body, w, b, rfl, readAll_cons_eq_ok.2 ⟨r, hinside, hb⟩, hrest⟩

/-- What has been read of a group right after its opening parenthesis: nothing, but what comes
before the group counts. -/
theorem read_open (hm : p.mode.isSettleable = true) :
    p.read '(' = .ok (((start 0).after ⟨p.offset + 1, p.groups + 1, []⟩).within
      (⟨p.offset, p.groups, p.settle.level⟩ :: p.enclosing)) := by
  obtain ⟨henclosing, hgroups, hoffset⟩ := p.settle_unchanged
  unfold read
  rw [readInPlace_of_isSettleable hm (by decide) (by decide) (by decide) (by decide)]
  show Except.ok _ = Except.ok _
  simp [within, after, start, Prior.enclosing, Prior.level, Mode.later, Level.empty, Regex.raiseAll,
    henclosing, hgroups, hoffset, mode_settle_of_isSettleable hm, show '('.utf8Size = 1 from rfl]

theorem isSettleable_later (m : Mode) (n : Nat) : (m.later n).isSettleable = m.isSettleable := by
  cases m <;> rfl

/-- What has been read after something else has been read in the same way by itself. -/
theorem exists_of_readAll_after {r : Prior} (h : (p.after r).readAll cs = .ok q) :
    ∃ q₀, p.readAll cs = .ok q₀ ∧ q = q₀.after r := by
  rw [readAll_after] at h
  cases hread : p.readAll cs with
  | error e => rw [hread] at h; cases h
  | ok q₀ =>
    rw [hread] at h
    exact ⟨q₀, rfl, (Except.ok.inj h).symm⟩

/-- The group of an opening parenthesis is complete in the end, and what stands in it has been read
as it is read by itself. -/
theorem exists_group {u v : List Char} {i depth : Nat}
    (h : (start 0).readAll (u ++ '(' :: v) = .ok P) (hP : P.enclosing = [])
    (hu : Outline.start.after u = some ⟨.plain, i, depth⟩) :
    ∃ body w b, v = body ++ ')' :: w ∧ (start 0).readAll body = .ok b ∧
      b.mode.isSettleable = true ∧ b.enclosing = [] ∧
      (i, b.settle.level.close.raise (i + 1)) ∈ P.complete := by
  obtain ⟨p, hread, h⟩ := readAll_append_eq_ok.1 h
  have houtline : p.outline = ⟨.plain, i, depth⟩ :=
    Option.some.inj ((after_outline begun_start hread).symm.trans hu)
  have hm : p.mode.isSettleable = true :=
    isSettleable_iff_place.2 (congrArg Outline.place houtline)
  obtain rfl : p.groups = i := congrArg Outline.opened houtline
  rw [readAll_cons, read_open hm] at h
  obtain ⟨body, w, b, rfl, hb, hbm, hbenclosing, hrest⟩ := exists_closing h hP
  obtain ⟨b₀, hself, rfl⟩ := exists_of_readAll_after hb
  rw [mode_after, isSettleable_later] at hbm
  have hb₀ : b₀.enclosing = [] := by
    cases henclosing : b₀.enclosing with
    | nil => rfl
    | cons g gs => rw [after, henclosing] at hbenclosing; cases hbenclosing
  refine ⟨body, w, b₀, rfl, hself, hbm, hb₀, complete_of_readAll hrest ?_⟩
  have hclose : (b₀.after ⟨p.offset + 1, p.groups + 1, []⟩).settle.level.close =
      b₀.settle.level.close.raise (p.groups + 1) := by
    rw [settle_after]
    exact Prior.close_level_of_branches _ _ _ rfl
  rw [closed, hclose]
  exact List.mem_append_right _ (by simp [Level.groups_push, Regex.groups])

end Parser

/-! ## What the parentheses of a text enclose -/

namespace Regex

/-- What can be read up to a place where it may end is accepted. -/
theorem parse_of_readAll {cs : List Char} {p : Parser} (h : (Parser.start 0).readAll cs = .ok p)
    (hm : p.mode.isSettleable = true) (henclosing : p.enclosing = []) :
    parse (String.ofList cs) = .ok ⟨p.settle.level.close, p.groups⟩ := by
  rw [parse, parseAt, String.toList_ofList, h]
  exact Parser.finish_eq_ok_iff.2 ⟨hm, henclosing, rfl⟩

/-- All parentheses of a pattern that is accepted are closed, and there are as many as groups. -/
theorem ofText_of_parse {text : String} {s : Parsed} (h : parse text = .ok s) :
    Outline.ofText text = some ⟨.plain, s.groups, 0⟩ := by
  obtain ⟨p, hread, hm, henclosing, rfl⟩ := exists_readAll_of_parse h
  have houtline : p.outline = ⟨.plain, p.groups, 0⟩ := by
    rw [Parser.outline, Parser.isSettleable_iff_place.1 hm, henclosing]
    rfl
  rw [← houtline]
  exact Parser.after_outline Parser.begun_start hread

/-- **Groups are what parentheses enclose.**  The text that the parentheses of a group enclose is a
pattern by itself, and up to the numbers of its own groups its tree is the body of the group. -/
theorem encloses_of_parse {text : String} {s : Parsed} (h : parse text = .ok s) {i : Nat}
    (hi : i < s.groups) :
    ∃ body t, Outline.Encloses text i body ∧ parse body = .ok t ∧
      (i, t.root.raise (i + 1)) ∈ s.root.groups := by
  have houtline := ofText_of_parse h
  obtain ⟨p, hread, hm, henclosing, rfl⟩ := exists_readAll_of_parse h
  obtain ⟨u, v, depth, htext, hu⟩ := Outline.exists_opening houtline (Nat.zero_le i) hi
  rw [htext] at hread
  obtain ⟨body, w, b, rfl, hb, hbm, hbenclosing, hgroup⟩ := Parser.exists_group hread henclosing hu
  have hbody := parse_of_readAll hb hbm hbenclosing
  refine ⟨String.ofList body, _, ?_, hbody, ?_⟩
  · refine ⟨String.ofList u, String.ofList w, depth, b.groups, ?_, ?_, ofText_of_parse hbody⟩
    · rw [← String.toList_inj, htext]
      simp
    · rw [Outline.ofText, String.toList_ofList, hu]
  · have hcomplete := p.complete_subset_settle hgroup
    rw [Parser.complete, p.settle_unchanged.1, henclosing] at hcomplete
    rwa [Level.groups_close]

end Regex

end Backtrack
