import Backtrack.Proofs.Outline
import Backtrack.Proofs.Refusals

/-!
# Quantifiers with nothing before them

Where a branch begins there is nothing that a quantifier could repeat.  A sign is refused there.  A
quantifier in braces is not: the opening brace stands for itself, and so do the characters after it.

Main statement: `Regex.parse_without_operand`.

    after an item braces are a quantifier           (Parser.readsTo_spelled)
    where a branch begins they are literals         (Parser.readAll_spelled)
    where a branch begins can be told from the text (Parser.atBranch_of_readAll)
-/

namespace Backtrack

/-! ## What the text says -/

/-- Whether the text ends where a branch begins: it is empty, or it ends with an opening parenthesis
or a bar that is neither escaped nor in a class. -/
def Outline.BranchBegins (text : String) : Prop :=
  text = "" ∨ ∃ before c o, text = before ++ String.singleton c ∧ (c = '(' ∨ c = '|') ∧
    ofText before = some o ∧ o.place = .plain

namespace Braces

/-- Digits that write the bound `n` of a quantifier. -/
structure Writes (digits : List Char) (n : Nat) : Prop where
  ne_nil : digits ≠ []
  isDigit : ∀ c ∈ digits, c.isDigit = true
  bound : boundOf? digits = some n

/-- Between two bounds there are only digits and a comma. -/
theorem Writes.inside {lower upper : List Char} {m n : Nat} (hlower : Writes lower m)
    (hupper : Writes upper n) : ∀ c ∈ lower ++ ',' :: upper, c.isDigit = true ∨ c = ',' := by
  intro c hc
  rcases List.mem_append.1 hc with hc | hc
  · exact .inl (hlower.isDigit c hc)
  · rcases List.mem_cons.1 hc with hc | hc
    · exact .inr hc
    · exact .inl (hupper.isDigit c hc)

/-- The quantifiers in braces, with the least and the greatest number of repetitions. -/
inductive Spells : List Char → Nat → Option Nat → Prop
  | exactly {digits : List Char} {n : Nat} (h : Writes digits n) :
    Spells ('{' :: digits ++ ['}']) n (some n)
  | atLeast {digits : List Char} {n : Nat} (h : Writes digits n) :
    Spells ('{' :: (digits ++ [',']) ++ ['}']) n none
  | atMost {digits : List Char} {n : Nat} (h : Writes digits n) :
    Spells ('{' :: (',' :: digits) ++ ['}']) 0 (some n)
  | between {lower upper : List Char} {m n : Nat} (hlower : Writes lower m)
      (hupper : Writes upper n) (hle : m ≤ n) :
    Spells ('{' :: (lower ++ ',' :: upper) ++ ['}']) m (some n)

variable {text : List Char} {least : Nat} {most : Option Nat}

theorem Spells.exists_inside (h : Spells text least most) :
    ∃ inside, text = '{' :: inside ++ ['}'] ∧ ∀ c ∈ inside, c.isDigit = true ∨ c = ',' := by
  cases h with
  | exactly h => exact ⟨_, rfl, fun c hc => .inl (h.isDigit c hc)⟩
  | atLeast h =>
    refine ⟨_, rfl, fun c hc => ?_⟩
    rcases List.mem_append.1 hc with hc | hc
    · exact .inl (h.isDigit c hc)
    · exact .inr (List.mem_singleton.1 hc)
  | atMost h =>
    refine ⟨_, rfl, fun c hc => ?_⟩
    rcases List.mem_cons.1 hc with hc | hc
    · exact .inr hc
    · exact .inl (h.isDigit c hc)
  | between hlower hupper hle => exact ⟨_, rfl, hlower.inside hupper⟩

end Braces

open Braces (Writes Spells)

namespace Parser

variable {p q : Parser} {c : Char} {cs text : List Char} {least : Nat} {most : Option Nat}

/-- After an item, braces are a quantifier. -/
theorem readsTo_spelled (hm : p.mode = .item) (hne : p.level.items ≠ [])
    (h : Spells text least most) : p.ReadsTo text { p with mode := .quantifier least most } := by
  cases h with
  | exactly h =>
    refine readsTo_braces hm hne (fun offset => ?_) (by rintro _ ⟨⟩; exact Nat.le_refl _)
    refine ⟨_, push_lower h.isDigit rfl, (bounds?_lower h.ne_nil offset).trans ?_⟩
    rw [h.bound]
    rfl
  | atLeast h =>
    refine readsTo_braces hm hne (fun offset => ?_) (by rintro _ ⟨⟩)
    refine ⟨_, push_lower_upper h.isDigit (List.forall_mem_nil _) offset, ?_⟩
    rw [bounds?_lower_comma h.ne_nil, h.bound]
    rfl
  | atMost h =>
    refine readsTo_braces hm hne (fun offset => ?_) (fun _ _ => Nat.zero_le _)
    refine ⟨_, push_lower_upper (List.forall_mem_nil _) h.isDigit offset, ?_⟩
    rw [bounds?_comma_upper h.ne_nil, h.bound]
    rfl
  | between hlower hupper hle =>
    refine readsTo_braces hm hne (fun offset => ?_) (by rintro _ ⟨⟩; exact hle)
    refine ⟨_, push_lower_upper hlower.isDigit hupper.isDigit offset, ?_⟩
    rw [bounds?_lower_comma_upper hlower.ne_nil hupper.ne_nil, hlower.bound, hupper.bound]
    rfl

/-! ## Where a branch begins -/

/-- Whether an item may begin, and it would be the first one of its branch. -/
def AtBranch (p : Parser) : Prop := p.mode = .item ∧ p.level.items = []

/-- A sign is refused where a branch begins. -/
theorem read_sign (h : p.AtBranch) (hc : c ∈ ['*', '+', '?']) :
    p.read c = .error (.nothingToRepeat p.offset) := by
  have hquantify : ∀ least most, p.quantify least most = .error (.nothingToRepeat p.offset) :=
    fun least most => if_pos h.2
  have hitem : p.readItem c = .error (.nothingToRepeat p.offset) := by
    simp only [List.mem_cons, List.not_mem_nil, or_false] at hc
    rcases hc with rfl | rfl | rfl <;> exact hquantify _ _
  unfold read
  rw [readInPlace_item h.1, hitem]
  rfl

/-- Digits, commas and closing braces stand for themselves where nothing is pending. -/
theorem readItem_inside (hc : c.isDigit = true ∨ c = ',' ∨ c = '}') :
    p.readItem c = .ok (p.push (.char c)) := by
  rcases hc with hdigit | rfl | rfl
  · apply readItem_of_not_special
    intro hspecial
    have hall : specials.all (fun c => !c.isDigit) = true := rfl
    have hnot := List.all_eq_true.1 hall c hspecial
    rw [hdigit] at hnot
    cases hnot
  · rfl
  · rfl

theorem readAll_inside (hm : p.mode = .item)
    (hcs : ∀ c ∈ cs, c.isDigit = true ∨ c = ',' ∨ c = '}') :
    p.readAll cs = .ok { p with
      offset := p.offset + (String.ofList cs).utf8ByteSize
      level := { p.level with items := (cs.map Regex.char).reverse ++ p.level.items } } := by
  induction cs generalizing p with
  | nil => rfl
  | cons c cs ih =>
    have hread : p.read c = .ok { p.push (.char c) with offset := p.offset + c.utf8Size } := by
      unfold read
      rw [readInPlace_item hm, readItem_inside (hcs c (by simp))]
      rfl
    rw [readAll_cons, hread]
    show Parser.readAll _ cs = _
    rw [ih rfl fun d hd => hcs d (by simp [hd]), utf8ByteSize_ofList_cons]
    simp [push, Level.push, hm, Nat.add_assoc]

/-- Where a branch begins, braces are literals. -/
theorem readAll_spelled (h : p.AtBranch) (hspells : Spells text least most) :
    p.readAll text = .ok { p with
      offset := p.offset + (String.ofList text).utf8ByteSize
      level := { p.level with items := (text.map Regex.char).reverse } } := by
  obtain ⟨inside, rfl, hinside⟩ := hspells.exists_inside
  have hopen : p.read '{' = .ok { p.push (.char '{') with offset := p.offset + 1 } := by
    unfold read
    rw [readInPlace_item h.1]
    simp only [readItem, if_pos h.2]
    rfl
  have hrest : ∀ c ∈ inside ++ ['}'], c.isDigit = true ∨ c = ',' ∨ c = '}' := by
    intro c hc
    rcases List.mem_append.1 hc with hc | hc
    · exact (hinside c hc).imp_right .inl
    · exact .inr (.inr (List.mem_singleton.1 hc))
  rw [List.cons_append, readAll_cons, hopen]
  show Parser.readAll _ (inside ++ ['}']) = _
  rw [readAll_inside rfl hrest, utf8ByteSize_ofList_cons]
  simp [push, Level.push, h.1, h.2, Nat.add_assoc, show '{'.utf8Size = 1 from rfl]

/-- After a bar or an opening parenthesis a branch begins. -/
theorem atBranch_of_read (hm : p.mode.isSettleable = true) (hc : c = '(' ∨ c = '|')
    (h : p.read c = .ok q) : q.AtBranch := by
  have hitem := mode_settle_of_isSettleable hm
  have hplace : p.readInPlace c = p.settle.readItem c := by
    apply readInPlace_of_isSettleable hm <;> rcases hc with rfl | rfl <;> decide
  rw [read, hplace] at h
  rcases hc with rfl | rfl
  · cases h
    exact ⟨hitem, rfl⟩
  · cases h
    exact ⟨hitem, rfl⟩

/-- Whether a branch begins can be told from the text. -/
theorem atBranch_of_readAll {before : String} (hbegins : Outline.BranchBegins before)
    (h : (start 0).readAll before.toList = .ok p) : p.AtBranch := by
  rcases hbegins with rfl | ⟨u, c, o, rfl, hc, ho, hplain⟩
  · cases h
    exact ⟨rfl, rfl⟩
  · rw [String.toList_append, readAll_append_eq_ok] at h
    obtain ⟨r, hr, h⟩ := h
    have houtline : some r.outline = some o := (after_outline begun_start hr).symm.trans ho
    have hplace : r.mode.place = .plain := by
      rw [← hplain, ← Option.some.inj houtline]
      rfl
    rw [String.toList_singleton, readAll_cons_eq_ok] at h
    obtain ⟨q, hread, h⟩ := h
    cases h
    exact atBranch_of_read (isSettleable_iff_place.2 hplace) hc hread

end Parser

namespace Regex

/-- **Quantifiers with nothing before them.**  Where a branch begins, a sign is refused whatever
comes after it.  What is a quantifier in braces after an item is not refused: each of its characters
is read as a literal, and some text after it makes the whole a pattern. -/
theorem parse_without_operand {before : String} (hbegins : Outline.BranchBegins before)
    (hviable : ∃ more s, parse (before ++ more) = .ok s) :
    (∀ sign ∈ ['*', '+', '?'], ∀ rest,
      parse (before ++ String.singleton sign ++ rest) =
        .error (.nothingToRepeat before.utf8ByteSize)) ∧
    ∃ p, (Parser.start 0).readAll before.toList = .ok p ∧
      ∀ text least most, Spells text least most →
        (∀ q : Parser, q.mode = .item → q.level.items ≠ [] →
          q.ReadsTo text { q with mode := .quantifier least most }) ∧
        p.readAll text = .ok { p with
          offset := p.offset + (String.ofList text).utf8ByteSize
          level := { p.level with items := (text.map Regex.char).reverse } } ∧
        ∃ more s, parse (before ++ String.ofList text ++ more) = .ok s := by
  obtain ⟨more, s, hparse⟩ := hviable
  obtain ⟨r, hr, -⟩ := exists_readAll_of_parse hparse
  rw [String.toList_append, Parser.readAll_append_eq_ok] at hr
  obtain ⟨p, hp, -⟩ := hr
  have hbranch : p.AtBranch := Parser.atBranch_of_readAll hbegins hp
  have hoffset : p.offset = before.utf8ByteSize := by
    rw [Parser.offset_of_start hp, String.ofList_toList]
  refine ⟨fun sign hsign rest => ?_, p, hp, fun text least most hspells => ⟨?_, ?_, ?_⟩⟩
  · rw [parse, parseAt, String.toList_append, String.toList_append, String.toList_singleton,
      List.append_assoc, Parser.readAll_append, hp]
    show (p.readAll (sign :: rest.toList)).bind Parser.finish = _
    rw [Parser.readAll_cons, Parser.read_sign hbranch hsign, hoffset]
    rfl
  · intro q hm hne
    exact Parser.readsTo_spelled hm hne hspells
  · exact Parser.readAll_spelled hbranch hspells
  · have hread := Parser.readAll_spelled hbranch hspells
    obtain ⟨cs, parsed, hcs⟩ := Parser.exists_finish { p with
      offset := p.offset + (String.ofList text).utf8ByteSize
      level := { p.level with items := (text.map Regex.char).reverse } }
    refine ⟨String.ofList cs, parsed, ?_⟩
    rw [parse, parseAt, String.toList_append, String.toList_append, String.toList_ofList,
      String.toList_ofList, List.append_assoc, Parser.readAll_append, hp]
    show (p.readAll (text ++ cs)).bind Parser.finish = _
    rw [Parser.readAll_append, hread]
    exact hcs

/-- After a bar in a group: a sign is refused there, and braces are three literals. -/
theorem parse_without_operand_in_group :
    parse "(é|*+)" = .error (.nothingToRepeat 4) ∧
      (∃ more s, parse ("(é|\x7b2\x7d" ++ more) = .ok s) ∧
      parse "\x7b2\x7d" = .ok ⟨.seq [.char '\x7b', .char '2', .char '\x7d'], 0⟩ := by
  have hbegins : Outline.BranchBegins "(é|" :=
    .inr ⟨"(é", '|', ⟨.plain, 1, 1⟩, rfl, .inr rfl, rfl, rfl⟩
  have hviable : ∃ more s, parse ("(é|" ++ more) = .ok s := ⟨")", _, rfl⟩
  obtain ⟨hsign, p, -, hbraces⟩ := parse_without_operand hbegins hviable
  have htwo : Writes ['2'] 2 := ⟨by decide, List.forall_mem_singleton.2 rfl, rfl⟩
  have hspells : Spells ['\x7b', '2', '\x7d'] 2 (some 2) := .exactly htwo
  exact ⟨hsign '*' (by decide) "+)", (hbraces _ _ _ hspells).2.2, rfl⟩

end Regex

end Backtrack
