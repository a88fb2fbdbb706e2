import ChoiceModel.Decimal.Shortest

/-! How numbers are written: one layout per kind of output, over the same shortest digits. -/

namespace ChoiceModel.Decimal

structure Layout where
  /-- Values whose leading digit has an exponent from here on are written positionally … -/
  plainFrom : Int
  /-- … up to this exponent, excluded. -/
  plainBelow : Int
  pointZero : Bool
  expPlus : Bool
  /-- Which of two decimals with the fewest digits is taken if both are equally near. -/
  tie : Tie := .upper

/-- Values in messages, listings and traces: every digit in its place, never an exponent. -/
def plain : Layout where
  plainFrom := -400
  plainBelow := 400
  pointZero := false
  expPlus := false

/-- Values inside the record form of an error, and lists of operands. -/
def record : Layout where
  plainFrom := -4
  plainBelow := 16
  pointZero := true
  expPlus := false

def scientific : Layout where
  plainFrom := 400
  plainBelow := 400
  pointZero := false
  expPlus := false

def json : Layout where
  plainFrom := -5
  plainBelow := 16
  pointZero := true
  expPlus := true
  tie := .even

def zeros (n : Nat) : String := String.ofList (List.replicate n '0')

def Layout.positional (l : Layout) (digits : List Char) (point : Int) : String :=
  if point ≤ 0 then "0." ++ zeros (-point).toNat ++ String.ofList digits
  else if digits.length ≤ point.toNat then
    String.ofList digits ++ zeros (point.toNat - digits.length)
      ++ (if l.pointZero then ".0" else "")
  else
    String.ofList (digits.take point.toNat) ++ "." ++ String.ofList (digits.drop point.toNat)

/-- One digit, the others after a point, and the exponent of the first. -/
def Layout.exponential (l : Layout) (digits : List Char) (exponent : Int) : String :=
  let tail := digits.drop 1
  let point := if tail.isEmpty then "" else "." ++ String.ofList tail
  let plus := if l.expPlus && exponent > 0 then "+" else ""
  String.ofList (digits.take 1) ++ point ++ "e" ++ plus ++ toString exponent

def Layout.magnitude (l : Layout) (d : Scaled) : String :=
  let digits := Nat.toDigits 10 d.digits
  if d.digits == 0 then (if l.pointZero then "0.0" else "0")
  else
    let exponent := d.exponent + digits.length - 1
    if l.plainFrom ≤ exponent && exponent < l.plainBelow then l.positional digits (exponent + 1)
    else l.exponential digits exponent

/-- A minus for every value whose sign bit is set, zero included. -/
def sign (x : Float) : String := if x.toBits >>> 63 == 1 then "-" else ""

def Layout.write (l : Layout) (x : Float) : String :=
  if x.isNaN then "NaN"
  else if x.isInf then sign x ++ "inf"
  else sign x ++ l.magnitude ((Binary.ofFloat x).shortest l.tie)

def padded (base width n : Nat) : List Char :=
  let digits := Nat.toDigits base n
  List.replicate (width - digits.length) '0' ++ digits

/-- A finite value with `places` digits after the point, the exact value rounded; a half goes to the
even digit. -/
def fixed (places : Nat) (x : Float) : String :=
  let (a, b) := (Binary.ofFloat x).over (-(places : Int))
  let digits := padded 10 (places + 1) (roundDiv .even a b)
  let whole := digits.length - places
  sign x ++ String.ofList (digits.take whole) ++ "." ++ String.ofList (digits.drop whole)

end ChoiceModel.Decimal
