import ChoiceModel.Expression.Error

/-! Round parentheses have to balance before any lexeme is read. -/

namespace ChoiceModel.Expression

/-- Checks the text from `position` on, with `depth` parentheses open and the last `(` at
`lastOpen`. -/
def balanceFrom (depth lastOpen position : Nat) : List Char → Except SyntaxError Unit
  | [] => if depth == 0 then .ok () else .error (.unbalanced lastOpen)
  | '(' :: rest => balanceFrom (depth + 1) position (position + 1) rest
  | ')' :: rest =>
    match depth with
    | 0 => .error (.unbalanced position)
    | depth + 1 => balanceFrom depth lastOpen (position + 1) rest
  | c :: rest => balanceFrom depth lastOpen (position + c.utf8Size) rest

/-- Accepts a text whose parentheses balance, and points at one that has no partner or is the
last that opened. -/
def checkBalance (cs : List Char) : Except SyntaxError Unit := balanceFrom 0 0 0 cs

end ChoiceModel.Expression
