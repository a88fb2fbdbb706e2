/-! The classes of characters in expression text. Everything that is no delimiter belongs to the
number or name that it stands in. -/

namespace ChoiceModel.Expression

/-- The characters that separate lexemes and mean nothing else. -/
def isBlank (c : Char) : Bool := c == ' ' || c == '\t' || c == '\x00'

def delimiters : List Char :=
  ['+', '-', '/', '*', '%', '^', '=', '(', ')', '>', ',', '<', '!', ' ', '\t', '\x00']

def isDelimiter (c : Char) : Bool := delimiters.contains c

def isNameStart (c : Char) : Bool := c.isAlpha || c == '$' || c == '@'

def isBracket (c : Char) : Bool := c == '[' || c == ']'

def isNamePart (c : Char) : Bool := !isDelimiter c && !isBracket c

theorem isDelimiter_of_isBlank {c : Char} (h : isBlank c = true) : isDelimiter c = true := by
  simp only [isBlank, Bool.or_eq_true, beq_iff_eq] at h
  rcases h with (rfl | rfl) | rfl <;> decide

end ChoiceModel.Expression
