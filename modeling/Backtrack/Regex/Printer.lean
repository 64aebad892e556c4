import Backtrack.Regex.Basic

/-!
# Writing a tree as a pattern

`Regex.render` gives the pattern text of a tree.  Characters that mean something in a
pattern are written after a backslash; which ones depends on whether the character stands
inside a class or outside.  Brackets of a class and parentheses of a group are the only
grouping there is: a sequence or an alternation is written without any, so a tree that
the pattern syntax cannot express is written as the pattern it looks like.
-/

namespace Backtrack

/-- Characters that are written after a backslash outside a class. -/
def specials : List Char :=
  ['\\', '^', '$', '.', '|', '?', '*', '+', '(', ')', '[', ']', '{', '}']

/-- Characters that are written after a backslash inside a class. -/
def classSpecials : List Char :=
  ['\\', '^', '-', '[', ']']

/-- The character `c`, after a backslash if it is one of `special`. -/
def escapedIn (special : List Char) (c : Char) : List Char :=
  if c ∈ special then ['\\', c] else [c]

/-- A test outside a class. -/
def Atom.render : Atom → List Char
  | .char c => escapedIn specials c
  | .range first last => [first, '-', last]
  | .dot => ['.']
  | .metachar m => ['\\', m.letter]
  | .lineStart => ['^']
  | .lineEnd => ['$']

/-- A test as a member of a class. -/
def Atom.renderMember : Atom → List Char
  | .char c => escapedIn classSpecials c
  | .range first last => escapedIn classSpecials first ++ '-' :: escapedIn classSpecials last
  | a => a.render

namespace Quantifier

/-- The bounds of a quantifier.  After another quantifier (`stacked`) a question mark
would be read as a mark of laziness, so there it is not used for "at most once". -/
def renderBounds (stacked : Bool) (q : Quantifier) : List Char :=
  match q.least, q.most with
  | 0, none => ['*']
  | 1, none => ['+']
  | m, none => '{' :: Nat.toDigits 10 m ++ [',', '}']
  | m, some n =>
    if m = 0 ∧ n = 1 ∧ stacked = false then ['?']
    else if m = n then '{' :: Nat.toDigits 10 m ++ ['}']
    else if m = 0 then '{' :: ',' :: Nat.toDigits 10 n ++ ['}']
    else '{' :: Nat.toDigits 10 m ++ ',' :: Nat.toDigits 10 n ++ ['}']

/-- A quantifier, with a question mark if it is lazy. -/
def render (stacked : Bool) (q : Quantifier) : List Char :=
  q.renderBounds stacked ++ if q.lazy then ['?'] else []

end Quantifier

namespace Regex

def isRepeated : Regex → Bool
  | .repeated .. => true
  | _ => false

mutual

/-- The pattern text of a tree. -/
def render : Regex → List Char
  | .atom a => a.render
  | .seq items => renderSeq items
  | .alt branches => renderAlt branches
  | .charClass members => '[' :: renderMembers members ++ [']']
  | .negation (.charClass members) => '[' :: '^' :: renderMembers members ++ [']']
  | .negation body => render body
  | .group _ body => '(' :: render body ++ [')']
  | .repeated body count => render body ++ count.render body.isRepeated

def renderSeq : List Regex → List Char
  | [] => []
  | item :: items => render item ++ renderSeq items

def renderAlt : List Regex → List Char
  | [] => []
  | [branch] => render branch
  | branch :: next :: branches => render branch ++ '|' :: renderAlt (next :: branches)

def renderMembers : List Regex → List Char
  | [] => []
  | .atom a :: members => a.renderMember ++ renderMembers members
  | member :: members => render member ++ renderMembers members

end

def toPattern (t : Regex) : String := String.ofList t.render

instance : ToString Regex := ⟨toPattern⟩

end Regex

end Backtrack
