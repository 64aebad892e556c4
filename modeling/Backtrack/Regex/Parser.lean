import Backtrack.Regex.Braces
import Backtrack.Regex.OpenClass
import Backtrack.Text.Offset

/-!
# Reading a pattern

A pattern is read from left to right, one character at a time: `Parser` is what is known
after some characters, and `Parser.read` takes the next one.  So reading `p ++ q` is
reading `q` from where `p` leads (`readAll_append`), and no character is read twice: what
depends on later characters stays pending.  A quantifier is pending until the next
character shows whether it is lazy, and a brace until a character shows whether it opens
a quantifier.
-/

namespace Backtrack

/-- The alternatives at one depth of nesting: the branches that are complete and the items of the
current one, latest first. -/
structure Level where
  branches : List Regex
  items : List Regex
deriving DecidableEq

namespace Level

def empty : Level := ⟨[], []⟩

def push (l : Level) (t : Regex) : Level := { l with items := t :: l.items }

/-- The current branch is complete and another one begins. -/
def nextBranch (l : Level) : Level := ⟨.seq l.items.reverse :: l.branches, []⟩

def repeatLast (l : Level) (count : Quantifier) : Level :=
  match l.items with
  | [] => l
  | item :: items => { l with items := .repeated item count :: items }

/-- The tree of all branches; a single one stands without an alternation. -/
def close (l : Level) : Regex :=
  match l.branches with
  | [] => .seq l.items.reverse
  | branches => .alt (.seq l.items.reverse :: branches).reverse

end Level

/-- A group whose closing parenthesis is still to come, and what surrounds it. -/
structure OpenGroup where
  opened : Nat
  slot : Nat
  outer : Level
deriving DecidableEq

/-- What the next character of a pattern means: with `item` nothing is pending, and after a whole
quantifier a question mark makes it lazy. -/
inductive Mode where
  | item
  | escape (offset : Nat)
  | quantifier (least : Nat) (most : Option Nat)
  | braces (b : Braces)
  | charClass (k : OpenClass)
deriving DecidableEq

/-- What is known after some characters of a pattern: the offset of the next one, how many groups
have been opened, which of them are open, innermost first, and what has been read inside the
innermost one. -/
structure Parser where
  offset : Nat
  groups : Nat
  enclosing : List OpenGroup
  level : Level
  mode : Mode
deriving DecidableEq

/-- The tree of a pattern and the number of its groups. -/
structure Parsed where
  root : Regex
  groups : Nat
deriving DecidableEq

namespace Parsed

/-- The groups of the pattern, in the order in which they open. -/
def captures (p : Parsed) : List Capture := (List.range p.groups).map Capture.mk

end Parsed

namespace Parser

/-- Nothing read yet, the first character being at byte offset `offset`. -/
def start (offset : Nat) : Parser := ⟨offset, 0, [], .empty, .item⟩

def push (p : Parser) (t : Regex) : Parser :=
  { p with level := p.level.push t, mode := .item }

def repeatLast (p : Parser) (count : Quantifier) : Parser :=
  { p with level := p.level.repeatLast count, mode := .item }

/-- Settles what is pending: a quantifier is not lazy, and what looked like the beginning
of a quantifier in braces stands for itself. -/
def settle (p : Parser) : Parser :=
  match p.mode with
  | .quantifier least most => p.repeatLast ⟨least, most, false⟩
  | .braces b => b.text.foldl (fun p c => p.push (.char c)) p
  | _ => p

/-- A quantifier for the latest item of the current branch, which must have one. -/
def quantify (p : Parser) (least : Nat) (most : Option Nat) : Except PatternError Parser :=
  if p.level.items = [] then .error (.nothingToRepeat p.offset)
  else .ok { p with mode := .quantifier least most }

def closeGroup (p : Parser) : Except PatternError Parser :=
  match p.enclosing with
  | [] => .error (.unmatchedParen p.offset)
  | g :: enclosing =>
    .ok { p with
      enclosing
      level := g.outer.push (.group g.slot p.level.close)
      mode := .item }

/-- Reads a character with nothing pending. -/
def readItem (p : Parser) (c : Char) : Except PatternError Parser :=
  match c with
  | '|' => .ok { p with level := p.level.nextBranch }
  | '(' =>
    .ok { p with
      groups := p.groups + 1
      enclosing := ⟨p.offset, p.groups, p.level⟩ :: p.enclosing
      level := .empty }
  | ')' => p.closeGroup
  | '*' => p.quantify 0 none
  | '+' => p.quantify 1 none
  | '?' => p.quantify 0 (some 1)
  | '{' =>
    .ok (if p.level.items = [] then p.push (.char '{')
      else { p with mode := .braces (.start p.offset) })
  | '[' => .ok { p with mode := .charClass (.start p.offset) }
  | '\\' => .ok { p with mode := .escape p.offset }
  | '.' => .ok (p.push (.atom .dot))
  | '^' => .ok (p.push (.atom .lineStart))
  | '$' => .ok (p.push (.atom .lineEnd))
  | c => .ok (p.push (.char c))

/-- Reads a closing brace after `b`, which ends a quantifier or stands for itself. -/
def closeBraces (p : Parser) (b : Braces) : Except PatternError Parser :=
  match b.bounds? with
  | none => p.settle.readItem '}'
  | some (least, none) => .ok { p with mode := .quantifier least none }
  | some (least, some most) =>
    if most < least then .error (.invalidBounds least most b.opened)
    else .ok { p with mode := .quantifier least (some most) }

/-- Reads a character and leaves the offset as it is. -/
def readInPlace (p : Parser) (c : Char) : Except PatternError Parser :=
  match p.mode with
  | .item => p.readItem c
  | .escape _ => .ok (p.push (.atom (.ofEscape c)))
  | .quantifier least most =>
    if c = '?' then .ok (p.repeatLast ⟨least, most, true⟩) else p.settle.readItem c
  | .braces b =>
    match b.push? c with
    | some b => .ok { p with mode := .braces b }
    | none => if c = '}' then p.closeBraces b else p.settle.readItem c
  | .charClass k =>
    (k.read p.offset c).map fun
      | .reading k => { p with mode := .charClass k }
      | .complete t => p.push t

def read (p : Parser) (c : Char) : Except PatternError Parser :=
  (p.readInPlace c).map fun q => { q with offset := p.offset + c.utf8Size }

def readAll (p : Parser) (cs : List Char) : Except PatternError Parser :=
  cs.foldlM read p

def finish (p : Parser) : Except PatternError Parsed :=
  match p.mode with
  | .escape offset => .error (.unterminatedEscape offset)
  | .charClass k => .error k.unfinished
  | _ =>
    match p.enclosing with
    | g :: _ => .error (.unclosedGroup g.opened)
    | [] => .ok ⟨p.settle.level.close, p.groups⟩

theorem readAll_append (p : Parser) (cs ds : List Char) :
    p.readAll (cs ++ ds) = (p.readAll cs).bind (·.readAll ds) := by
  simp only [readAll, List.foldlM_append]
  rfl

end Parser

namespace Regex

/-- Reads the pattern `cs`, whose first character is at byte offset `offset`. -/
def parseAt (offset : Nat) (cs : List Char) : Except PatternError Parsed :=
  ((Parser.start offset).readAll cs).bind Parser.finish

def parse (text : String) : Except PatternError Parsed := parseAt 0 text.toList

/-- Reads the pattern that begins at byte offset `offset` of `text` and goes on to its end;
offsets in errors count from the beginning of `text`. -/
def parseFrom (text : String) (offset : Nat) : Except PatternError Parsed :=
  parseAt offset (Text.suffixFrom text offset).toList

end Regex

end Backtrack
