/-! Reading a decimal number: an optional sign, digits with an optional point, and an optional
exponent, or the words for infinity and for no number. -/

namespace ChoiceModel.Decimal

inductive Fault where
  | empty
  | invalid
deriving DecidableEq, Repr

def Fault.message : Fault → String
  | empty => "cannot parse float from empty string"
  | invalid => "invalid float literal"

/-- Splits a sign off; a minus gives `true`. -/
def takeSign : List Char → Bool × List Char
  | '-' :: rest => (true, rest)
  | '+' :: rest => (false, rest)
  | cs => (false, cs)

def digitsValue (cs : List Char) : Nat :=
  cs.foldl (fun n c => 10 * n + (c.toNat - '0'.toNat)) 0

/-- The value of an exponent mark and what follows it; no mark is the exponent 0. -/
def readExponent : List Char → Option Int
  | [] => some 0
  | c :: rest =>
    if c == 'e' || c == 'E' then
      let (negative, digits) := takeSign rest
      if digits.isEmpty || !digits.all Char.isDigit then none
      else some (if negative then -(digitsValue digits : Int) else digitsValue digits)
    else none

/-- The value of `digits * 10 ^ exponent`. An exponent far outside the range of the format gives
zero or infinity without being raised to a power. -/
def scaledValue (digits : Nat) (exponent : Int) : Float :=
  if digits == 0 then 0.0
  else if exponent > 400 then 1.0 / 0.0
  else if exponent + (digits.log2 / 3 : Nat) < -800 then 0.0
  else Float.ofScientific digits (exponent < 0) exponent.natAbs

def readUnsigned (cs : List Char) : Option Float :=
  let (whole, rest) := cs.span Char.isDigit
  let (frac, rest) := match rest with
    | '.' :: after => after.span Char.isDigit
    | _ => ([], rest)
  if whole.isEmpty && frac.isEmpty then none
  else (readExponent rest).map fun e => scaledValue (digitsValue (whole ++ frac)) (e - frac.length)

def readWord (cs : List Char) : Option Float :=
  match String.ofList (cs.map Char.toLower) with
  | "nan" => some (0.0 / 0.0)
  | "inf" | "infinity" => some (1.0 / 0.0)
  | _ => none

def read (cs : List Char) : Except Fault Float :=
  match cs with
  | [] => .error .empty
  | _ =>
    let (negative, body) := takeSign cs
    match (readWord body).orElse fun _ => readUnsigned body with
    | some x => .ok (if negative then -x else x)
    | none => .error .invalid

end ChoiceModel.Decimal
