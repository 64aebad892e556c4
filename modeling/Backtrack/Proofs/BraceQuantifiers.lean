import Backtrack.Proofs.Operands

/-!
# Quantifiers in braces

After an item or a quantifier an opening brace begins a quantifier if, and only if, the text from
the brace on begins with one.  If it does not, the brace stands for itself, and the characters after
it are read as if it had been a literal all along.

    what braces with bounds look like                 (Braces.forms_of_bounds?)
    after an item there is something to repeat        (Parser.items_ne_nil_of_itemEnds)
    braces that do not become a quantifier are text   (Parser.readAll_finish_of_not_isForm)

Main statement: `Regex.parse_braces`.
-/

namespace Backtrack

/-! ## What the text says -/

/-- Whether the text ends with an item or a quantifier: its end is neither escaped nor in a class,
and no branch begins there. -/
def Outline.ItemEnds (text : String) : Prop :=
  EndsAt text .plain ∧ ¬ BranchBegins text

/-- Where a branch begins, the text ends with an opening parenthesis or a bar. -/
theorem Outline.BranchBegins.getLast? {text : String} (h : BranchBegins text) :
    text.toList.getLast? ∈ [none, some '(', some '|'] := by
  rcases h with rfl | ⟨before, c, o, rfl, hc, -, -⟩
  · decide
  · rw [String.toList_append, String.toList_singleton, List.getLast?_concat]
    rcases hc with rfl | rfl <;> decide

namespace Braces

/-- Two bounds in braces, the greater one first. -/
inductive Misordered : List Char → Nat → Nat → Prop
  | intro {lower upper : List Char} {m n : Nat} (hlower : Writes lower m) (hupper : Writes upper n)
      (hlt : n < m) : Misordered ('{' :: (lower ++ ',' :: upper) ++ ['}']) m n

/-- Whether the text has the form of a quantifier in braces, whatever the order of its bounds. -/
def IsForm (text : List Char) : Prop :=
  (∃ least most, Spells text least most) ∨ ∃ m n, Misordered text m n

/-- Whether nothing but digits has been read for the bounds. -/
def Digits (b : Braces) : Prop :=
  (∀ c ∈ b.lower, c.isDigit = true) ∧ ∀ upper ∈ b.upper, ∀ c ∈ upper, c.isDigit = true

variable {b b' : Braces} {c : Char} {text : List Char} {least : Nat} {most : Option Nat}

theorem digits_start (opened : Nat) : (start opened).Digits :=
  ⟨List.forall_mem_nil _, nofun⟩

/-- A character that is taken is a digit or a comma, and it comes after what has been read. -/
theorem of_push? (h : b.push? c = some b') :
    b'.text = b.text ++ [c] ∧ b'.opened = b.opened ∧ (c.isDigit = true ∨ c = ',') ∧
      (b.Digits → b'.Digits) := by
  obtain ⟨opened, lower, upper⟩ := b
  unfold push? at h
  cases upper with
  | none =>
    simp only at h
    split at h
    · next hdigit =>
      cases h
      refine ⟨by simp [Braces.text], rfl, .inl hdigit, fun hb => ⟨fun d hd => ?_, nofun⟩⟩
      rcases List.mem_append.1 hd with hd | hd
      · exact hb.1 d hd
      · rwa [List.mem_singleton.1 hd]
    · split at h
      · next hcomma =>
        cases h
        refine ⟨by simp [Braces.text, hcomma], rfl, .inr hcomma, fun hb => ⟨hb.1, ?_⟩⟩
        rintro _ ⟨⟩
        exact List.forall_mem_nil _
      · cases h
  | some upper =>
    simp only at h
    split at h
    · next hdigit =>
      cases h
      refine ⟨by simp [Braces.text], rfl, .inl hdigit, fun hb => ⟨hb.1, ?_⟩⟩
      rintro _ ⟨⟩ d hd
      rcases List.mem_append.1 hd with hd | hd
      · exact hb.2 upper rfl d hd
      · rwa [List.mem_singleton.1 hd]
    · cases h

/-- **Braces with bounds** are spelled as a quantifier, or their bounds are in the wrong order. -/
theorem forms_of_bounds? (hb : b.Digits) (h : b.bounds? = some (least, most)) :
    Spells (b.text ++ ['}']) least most ∨
      ∃ n, most = some n ∧ Misordered (b.text ++ ['}']) least n := by
  obtain ⟨opened, lower, upper⟩ := b
  obtain ⟨hlower, hupper⟩ := hb
  cases upper with
  | none =>
    by_cases hne : lower = []
    · rw [hne] at h
      cases h
    · rw [Parser.bounds?_lower hne] at h
      obtain ⟨m, hm, heq⟩ := Option.map_eq_some_iff.1 h
      cases heq
      rw [Braces.text, List.append_nil]
      exact .inl (.exactly ⟨hne, hlower, hm⟩)
  | some upper =>
    have hupper : ∀ c ∈ upper, c.isDigit = true := hupper upper rfl
    by_cases hne : lower = [] <;> by_cases hne' : upper = []
    · rw [hne, hne'] at h
      cases h
    · rw [hne, Parser.bounds?_comma_upper hne'] at h
      obtain ⟨n, hn, heq⟩ := Option.map_eq_some_iff.1 h
      cases heq
      rw [hne]
      exact .inl (.atMost ⟨hne', hupper, hn⟩)
    · rw [hne', Parser.bounds?_lower_comma hne] at h
      obtain ⟨m, hm, heq⟩ := Option.map_eq_some_iff.1 h
      cases heq
      rw [hne']
      exact .inl (.atLeast ⟨hne, hlower, hm⟩)
    · rw [Parser.bounds?_lower_comma_upper hne hne'] at h
      obtain ⟨m, hm, h⟩ := Option.bind_eq_some_iff.1 h
      obtain ⟨n, hn, heq⟩ := Option.map_eq_some_iff.1 h
      cases heq
      have hlower : Writes lower least := ⟨hne, hlower, hm⟩
      have hupper : Writes upper n := ⟨hne', hupper, hn⟩
      rcases Nat.lt_or_ge n least with hlt | hle
      · exact .inr ⟨n, rfl, .intro hlower hupper hlt⟩
      · exact .inl (.between hlower hupper hle)

theorem Spells.le {n : Nat} (h : Spells text least (some n)) : least ≤ n := by
  cases h with
  | exactly h => exact Nat.le_refl _
  | atMost h => exact Nat.zero_le _
  | between hlower hupper hle => exact hle

theorem IsForm.exists_inside (h : IsForm text) :
    ∃ inside, text = '{' :: inside ++ ['}'] ∧ ∀ c ∈ inside, c.isDigit = true ∨ c = ',' := by
  obtain ⟨least, most, hspells⟩ | ⟨m, n, hwrong⟩ := h
  · exact hspells.exists_inside
  · cases hwrong with
    | intro hlower hupper hlt => exact ⟨_, rfl, hlower.inside hupper⟩

end Braces

open Braces (Writes Spells Misordered IsForm)

namespace Parser

variable {p q : Parser} {b : Braces} {c : Char} {cs text : List Char} {least : Nat}
  {most : Option Nat}

/-! ## After an item -/

/-- Where nothing comes before the next item, a branch begins. -/
theorem branchBegins_of_readAll (h : (start 0).readAll cs = .ok p)
    (hm : p.mode.isSettleable = true) (hitems : p.settle.level.items = []) :
    Outline.BranchBegins (String.ofList cs) := by
  rcases exists_change_of_readAll h with ⟨rfl, -⟩ | ⟨u, c, q, rfl, hu, hchange⟩
  · exact .inl rfl
  · have hbegins : q.mode.isSettleable = true → c = '(' ∨ c = '|' →
        Outline.BranchBegins (String.ofList (u ++ [c])) := by
      intro hq hc
      obtain ⟨o, ho, hplain⟩ := endsAt_of_readAll hu
      refine .inr ⟨String.ofList u, c, o, ?_, hc, ho, hplain.trans (isSettleable_iff_place.1 hq)⟩
      rw [String.ofList_append, ← String.singleton_eq_ofList]
    have hnot : p.level.items = [] :=
      Classical.byContradiction fun hne => items_settle_ne_nil hne hitems
    have hitem : p.mode = .item := by
      have hmode := ((sound_start 0).readAll h).mode
      cases hp : p.mode with
      | item => rfl
      | quantifier least most => rw [hp] at hmode; exact absurd hnot hmode.1
      | braces b => rw [hp] at hmode; exact absurd hnot hmode
      | escape offset => rw [hp] at hm; cases hm
      | charClass k => rw [hp] at hm; cases hm
    cases hchange with
    | opens hq hc => exact hbegins hq (.inl hc)
    | closes _ _ _ hne => exact absurd hnot hne
    | inside _ hturn =>
      rw [hitem] at hturn
      cases hturn with
      | branch hq hc => exact hbegins hq (.inr hc)
      | item hne => exact absurd hnot hne

/-- After an item or a quantifier there is something that a quantifier can repeat. -/
theorem items_ne_nil_of_itemEnds {before : String} (h : (start 0).readAll before.toList = .ok p)
    (hends : Outline.ItemEnds before) :
    p.mode.isSettleable = true ∧ p.settle.level.items ≠ [] := by
  obtain ⟨⟨o, ho, hplain⟩, hnot⟩ := hends
  have houtline : some p.outline = some o := (after_outline begun_start h).symm.trans ho
  have hm : p.mode.isSettleable = true := by
    rw [isSettleable_iff_place, ← hplain, ← Option.some.inj houtline]
    rfl
  refine ⟨hm, fun hitems => hnot ?_⟩
  rw [← String.ofList_toList (s := before)]
  exact branchBegins_of_readAll h hm hitems

/-! ## Braces that do not become a quantifier -/

theorem foldl_push_chars (hcs : cs ≠ []) :
    cs.foldl (fun p c => p.push (.char c)) p = { p with
      level := { p.level with items := (cs.map Regex.char).reverse ++ p.level.items }
      mode := .item } := by
  induction cs generalizing p with
  | nil => exact absurd rfl hcs
  | cons c cs ih =>
    rw [List.foldl_cons]
    cases cs with
    | nil => rfl
    | cons d cs =>
      rw [ih (List.cons_ne_nil d cs)]
      simp [push, Level.push]

/-- The characters of braces that do not become a quantifier are so many items. -/
theorem settle_of_braces (hm : p.mode = .braces b) : p.settle = { p with
    level := { p.level with items := (b.text.map Regex.char).reverse ++ p.level.items }
    mode := .item } := by
  unfold settle
  rw [hm]
  exact foldl_push_chars (List.cons_ne_nil _ _)

/-- With one more of them there is one more item. -/
theorem settle_of_braces_concat {b' : Braces} (hm : p.mode = .braces b)
    (htext : b'.text = b.text ++ [c]) (n : Nat) :
    { p with offset := n, mode := .braces b' }.settle =
      { p.settle.push (.char c) with offset := n } := by
  rw [settle_of_braces (p := { p with offset := n, mode := .braces b' }) rfl, settle_of_braces hm,
    htext]
  simp [push, Level.push]

theorem read_of_push? {b' : Braces} (hm : p.mode = .braces b) (hb : b.push? c = some b') :
    p.read c = .ok { p with offset := p.offset + c.utf8Size, mode := .braces b' } := by
  unfold read readInPlace
  rw [hm]
  simp only [hb]
  rfl

theorem read_settle_inside (hm : p.mode.isSettleable = true)
    (hc : c.isDigit = true ∨ c = ',' ∨ c = '}') :
    p.settle.read c =
      .ok { p.settle.push (.char c) with offset := p.offset + c.utf8Size } := by
  unfold read
  rw [readInPlace_item (mode_settle_of_isSettleable hm), readItem_inside hc, p.settle_unchanged.2.2]
  rfl

/-- A character that does not go on with braces, and ends no bounds, is read as if they had been
literals. -/
theorem read_of_push?_eq_none (hm : p.mode = .braces b) (hb : b.push? c = none)
    (hbounds : c = '}' → b.bounds? = none) : p.read c = p.settle.read c := by
  have hitem : p.settle.mode = .item := mode_settle_of_isSettleable (by rw [hm]; rfl)
  have hplace : p.readInPlace c = p.settle.readItem c := by
    unfold readInPlace
    rw [hm]
    simp only [hb]
    by_cases hc : c = '}'
    · rw [if_pos hc, closeBraces, hbounds hc, hc]
    · rw [if_neg hc]
  unfold read
  rw [hplace, readInPlace_item hitem, p.settle_unchanged.2.2]

/-- **Braces that do not become a quantifier** are read as if they had been literals. -/
theorem readAll_finish_of_not_isForm (hm : p.mode = .braces b) (hb : b.Digits)
    (hnone : ∀ ds, ds <+: cs → ¬ IsForm (b.text ++ ds)) :
    (p.readAll cs).bind finish = (p.settle.readAll cs).bind finish := by
  have hsettleable : p.mode.isSettleable = true := by rw [hm]; rfl
  -- Each character either goes on with the braces, and is one more item when they are settled, or
  -- settles them.
  induction cs generalizing p b with
  | nil => exact (finish_settle hsettleable).symm
  | cons c cs ih =>
    cases hpush : b.push? c with
    | some b' =>
      obtain ⟨htext, -, hc, hdigits⟩ := Braces.of_push? hpush
      have hlater : ∀ ds, ds <+: cs → ¬ IsForm (b'.text ++ ds) := by
        intro ds hds
        rw [htext, List.append_assoc]
        exact hnone (c :: ds) (List.cons_prefix_cons.2 ⟨rfl, hds⟩)
      rw [readAll_cons, readAll_cons, read_of_push? hm hpush,
        read_settle_inside hsettleable (hc.imp_right .inl)]
      refine (ih rfl (hdigits hb) hlater rfl).trans ?_
      rw [settle_of_braces_concat hm htext]
      rfl
    | none =>
      refine readAll_finish_of_read_settle hsettleable fun d hd => ?_
      cases hd
      refine read_of_push?_eq_none hm hpush fun hc => ?_
      subst hc
      refine Option.eq_none_iff_forall_ne_some.2 fun bounds hbounds => ?_
      refine hnone ['}'] (List.cons_prefix_cons.2 ⟨rfl, List.nil_prefix⟩) ?_
      exact (Braces.forms_of_bounds? hb hbounds).imp (fun h => ⟨_, _, h⟩)
        fun ⟨n, _, h⟩ => ⟨_, n, h⟩

/-! ## Braces after an item -/

theorem read_brace (hm : p.mode.isSettleable = true) (hitems : p.settle.level.items ≠ []) :
    p.read '{' =
      .ok { p.settle with offset := p.offset + 1, mode := .braces (.start p.offset) } := by
  unfold read
  rw [readInPlace_of_isSettleable hm (by decide) (by decide) (by decide) (by decide)]
  simp only [readItem, if_neg hitems, p.settle_unchanged.2.2]
  rfl

/-- A quantifier in braces is read where it can stand. -/
theorem readAll_of_spells (hm : p.mode.isSettleable = true) (hitems : p.settle.level.items ≠ [])
    (h : Spells text least most) :
    p.readAll text = .ok { p.settle with
      offset := p.offset + (String.ofList text).utf8ByteSize, mode := .quantifier least most } := by
  have hitem := mode_settle_of_isSettleable hm
  have hoffset : p.settle.offset = p.offset := p.settle_unchanged.2.2
  have hsame : p.readAll text = p.settle.readAll text := by
    obtain ⟨inside, rfl, -⟩ := h.exists_inside
    rw [List.cons_append, readAll_cons, readAll_cons, read_brace hm hitems,
      read_brace (by rw [hitem]; rfl) (by rwa [settle_of_item hitem]), settle_of_item hitem,
      hoffset]
  obtain ⟨offset, hread⟩ := readsTo_spelled hitem hitems h
  have hsize : offset = p.settle.offset + (String.ofList text).utf8ByteSize :=
    offset_of_readAll hread
  rw [hsame, hread, hsize, hoffset]

/-- Bounds in the wrong order are refused where a quantifier can stand. -/
theorem readAll_of_misordered (hm : p.mode.isSettleable = true)
    (hitems : p.settle.level.items ≠ []) {m n : Nat} (h : Misordered text m n) :
    p.readAll text = .error (.invalidBounds m n p.offset) := by
  cases h with
  | @intro lower upper _ _ hlower hupper hlt =>
    have hpush := push_lower_upper hlower.isDigit hupper.isDigit p.offset
    obtain ⟨offset, hinside⟩ := readsTo_push
      (p := { p.settle with offset := p.offset + 1, mode := .braces (.start p.offset) }) rfl hpush
    have hbounds : (Braces.mk p.offset lower (some upper)).bounds? = some (m, some n) := by
      rw [bounds?_lower_comma_upper hlower.ne_nil hupper.ne_nil, hlower.bound, hupper.bound]
      rfl
    rw [List.cons_append, readAll_cons, read_brace hm hitems]
    show Parser.readAll _ _ = _
    rw [readAll_append, hinside]
    show (Parser.read _ '}').bind _ = _
    unfold read readInPlace
    simp only [Braces.push?, closeBraces, hbounds, if_pos hlt]
    rfl

/-! ## The rest of a pattern -/

/-- What becomes of the pattern if `text` is the rest of it. -/
def readRest (p : Parser) (text : String) : Except PatternError Parsed :=
  (p.readAll text.toList).bind finish

theorem parse_append_eq_readRest {before : String} (h : (start 0).readAll before.toList = .ok p)
    (text : String) : Regex.parse (before ++ text) = p.readRest text := by
  rw [Regex.parse, Regex.parseAt, String.toList_append, readAll_append, h]
  rfl

/-- A question mark makes the quantifier before it lazy. -/
theorem readRest_lazy (hm : p.mode = .quantifier least most) (rest : String) :
    p.readRest ("?" ++ rest) =
      { p.repeatLast ⟨least, most, true⟩ with offset := p.offset + 1 }.readRest rest := by
  have hread : p.read '?' =
      .ok { p.repeatLast ⟨least, most, true⟩ with offset := p.offset + 1 } := by
    unfold read readInPlace
    rw [hm]
    rfl
  unfold readRest
  rw [String.toList_append]
  show (p.readAll ('?' :: rest.toList)).bind finish = _
  rw [readAll_cons, hread]
  rfl

theorem readRest_greedy (hm : p.mode = .quantifier least most) {rest : String}
    (hrest : rest.toList.head? ≠ some '?') :
    p.readRest rest = (p.repeatLast ⟨least, most, false⟩).readRest rest := by
  have hsettleable : p.mode.isSettleable = true := by rw [hm]; rfl
  have hsettle : p.settle = p.repeatLast ⟨least, most, false⟩ := by
    unfold settle
    rw [hm]
  unfold readRest
  rw [← hsettle]
  refine readAll_finish_of_read_settle hsettleable fun c hc => ?_
  have hlazy : c ≠ '?' := by
    rintro rfl
    exact hrest hc
  have hplace : p.readInPlace c = p.settle.readItem c := by
    unfold readInPlace
    rw [hm]
    exact if_neg hlazy
  unfold read
  rw [hplace, readInPlace_item (mode_settle_of_isSettleable hsettleable), p.settle_unchanged.2.2]

end Parser

namespace Regex

/-- **Quantifiers in braces.**  Let `before` end with an item or a quantifier.  If a quantifier in
braces comes next it is read as one, lazy if a question mark comes after it, and the rest is read
from there.  If its bounds are in the wrong order the pattern is refused, whatever the rest.  And if
an opening brace comes next but no quantifier, then the brace is a literal, and the rest is read
from right after it. -/
theorem parse_braces {before : String} {p : Parser}
    (h : (Parser.start 0).readAll before.toList = .ok p) (hends : Outline.ItemEnds before) :
    p.settle.level.items ≠ [] ∧
    (∀ text least most rest, Spells text least most →
      parse (before ++ String.ofList text ++ "?" ++ rest) =
        { p.settle.repeatLast ⟨least, most, true⟩ with
          offset := (before ++ String.ofList text ++ "?").utf8ByteSize }.readRest rest ∧
      (rest.toList.head? ≠ some '?' →
        parse (before ++ String.ofList text ++ rest) =
          { p.settle.repeatLast ⟨least, most, false⟩ with
            offset := (before ++ String.ofList text).utf8ByteSize }.readRest rest)) ∧
    (∀ text m n rest, Misordered text m n →
      parse (before ++ String.ofList text ++ rest) =
        .error (.invalidBounds m n before.utf8ByteSize)) ∧
    ∀ rest, (∀ text, text <+: '{' :: rest.toList → ¬ IsForm text) →
      parse (before ++ "\x7b" ++ rest) =
        { p.settle.push (.char '{') with offset := before.utf8ByteSize + 1 }.readRest rest := by
  obtain ⟨hm, hitems⟩ := Parser.items_ne_nil_of_itemEnds h hends
  have hoffset : p.offset = before.utf8ByteSize := by
    rw [Parser.offset_of_start h, String.ofList_toList]
  have hafter : ∀ {text : List Char} {q : Parser}, p.readAll text = .ok q →
      (Parser.start 0).readAll (before ++ String.ofList text).toList = .ok q := by
    intro text q hq
    rw [String.toList_append, String.toList_ofList, Parser.readAll_append, h]
    exact hq
  refine ⟨hitems, fun text least most rest hspells => ?_, fun text m n rest hwrong => ?_,
    fun rest hnone => ?_⟩
  · have hread := hafter (Parser.readAll_of_spells hm hitems hspells)
    have hsize : p.offset + (String.ofList text).utf8ByteSize =
        (before ++ String.ofList text).utf8ByteSize := by
      rw [hoffset, String.utf8ByteSize_append]
    rw [hsize] at hread
    refine ⟨?_, fun hrest => ?_⟩
    · rw [String.append_assoc, Parser.parse_append_eq_readRest hread, Parser.readRest_lazy rfl,
        String.utf8ByteSize_append (t := "?")]
      rfl
    · rw [Parser.parse_append_eq_readRest hread, Parser.readRest_greedy rfl hrest]
      rfl
  · rw [parse, parseAt, String.toList_append, String.toList_append, String.toList_ofList,
      List.append_assoc, Parser.readAll_append, h]
    show (p.readAll (text ++ rest.toList)).bind Parser.finish = _
    rw [Parser.readAll_append, Parser.readAll_of_misordered hm hitems hwrong, hoffset]
    rfl
  · have hread : p.readAll ['{'] =
        .ok { p.settle with offset := p.offset + 1, mode := .braces (.start p.offset) } := by
      rw [Parser.readAll_cons, Parser.read_brace hm hitems]
      rfl
    have hsettle := Parser.settle_of_braces
      (p := { p.settle with offset := p.offset + 1, mode := .braces (.start p.offset) }) rfl
    rw [Parser.parse_append_eq_readRest (hafter hread)]
    refine (Parser.readAll_finish_of_not_isForm rfl (Braces.digits_start _) fun ds hds =>
      hnone _ (List.cons_prefix_cons.2 ⟨rfl, hds⟩)).trans ?_
    rw [hsettle, hoffset]
    rfl

/-- A brace that is a literal, a quantifier with leading zeros for the character after it, and
bounds in the wrong order there. -/
theorem parse_braces_reread :
    parse "é\x7b2\x7b003\x7d?" =
        (Parser.mk 3 0 [] ⟨[], [.char '{', .char 'é']⟩ .item).readRest "2\x7b003\x7d?" ∧
      parse "é\x7b2\x7b003\x7d?" = .ok ⟨.seq [.char 'é', .char '{',
        .repeated (.char '2') ⟨3, some 3, true⟩], 0⟩ ∧
      ∀ rest, parse ("é\x7b2" ++ "\x7b03,2\x7d" ++ rest) = .error (.invalidBounds 3 2 4) := by
  have hfirst : Outline.ItemEnds "é" :=
    ⟨⟨_, rfl, rfl⟩, fun h => absurd h.getLast? (by decide)⟩
  have hsecond : Outline.ItemEnds "é\x7b2" :=
    ⟨⟨_, rfl, rfl⟩, fun h => absurd h.getLast? (by decide)⟩
  have htwo : Writes ['2'] 2 := ⟨by decide, List.all_eq_true.1 rfl, rfl⟩
  have hthree : Writes ['0', '3'] 3 := ⟨by decide, List.all_eq_true.1 rfl, rfl⟩
  have hzeros : Writes ['0', '0', '3'] 3 := ⟨by decide, List.all_eq_true.1 rfl, rfl⟩
  have hnone : ∀ text, text <+: '{' :: "2\x7b003\x7d?".toList → ¬ IsForm text := by
    intro text htext hform
    obtain ⟨inside, rfl, hinside⟩ := hform.exists_inside
    rw [List.cons_append, List.cons_prefix_cons] at htext
    -- The closing brace comes before the second opening one, or that one is inside.
    match inside, hinside, htext.2 with
    | [], _, h => cases (List.cons_prefix_cons.1 h).1
    | [_], _, h => cases (List.cons_prefix_cons.1 (List.cons_prefix_cons.1 h).2).1
    | _ :: c :: _, hinside, h =>
      have hc : c = '{' := (List.cons_prefix_cons.1 (List.cons_prefix_cons.1 h).2).1
      exact absurd (hinside c (by simp)) (by rw [hc]; decide)
  obtain ⟨-, -, -, hliteral⟩ := parse_braces rfl hfirst
  obtain ⟨-, hquantifier, hwrong, -⟩ := parse_braces rfl hsecond
  have hread := (hquantifier _ _ _ "" (.exactly hzeros)).1
  have htext : "é\x7b2" ++ String.ofList ('{' :: ['0', '0', '3'] ++ ['}']) ++ "?" ++ "" =
      "é\x7b2\x7b003\x7d?" := rfl
  rw [htext] at hread
  refine ⟨hliteral _ hnone, hread.trans rfl, fun rest => ?_⟩
  exact hwrong _ _ _ rest (.intro hthree htwo (by decide))

end Regex

end Backtrack
