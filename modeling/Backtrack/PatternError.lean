/-!
# Why a pattern is refused

All offsets are byte offsets into the pattern text.
-/

namespace Backtrack

/-- The reasons for which a pattern is refused.  `offset` is that of the character at fault: the
backslash with nothing after it, the parenthesis or the bracket without its partner, the dash of
the range, the brace or the operator of the quantifier. -/
inductive PatternError where
  | unterminatedEscape (offset : Nat)
  | unclosedGroup (offset : Nat)
  | unmatchedParen (offset : Nat)
  | unclosedClass (offset : Nat)
  | invalidRange (first last : Char) (offset : Nat)
  | invalidBounds (least most offset : Nat)
  | nothingToRepeat (offset : Nat)
  | tooLarge (limit : Nat)
deriving DecidableEq, Repr

namespace PatternError

def message : PatternError → String
  | unterminatedEscape offset => s!"unterminated escape sequence at offset {offset}"
  | unclosedGroup offset => s!"unclosed group opened at offset {offset}"
  | unmatchedParen offset => s!"unmatched close parenthesis at offset {offset}"
  | unclosedClass offset => s!"unclosed character class opened at offset {offset}"
  | invalidRange first last offset => s!"invalid range `{first}-{last}` at offset {offset}"
  | invalidBounds least most offset =>
    s!"invalid quantifier bounds \x7b{least},{most}\x7d at offset {offset}"
  | nothingToRepeat offset =>
    s!"target of repeat operator is not specified at offset {offset}"
  | tooLarge limit => s!"pattern too large: more than {limit} nodes"

instance : ToString PatternError := ⟨message⟩

end PatternError

end Backtrack
