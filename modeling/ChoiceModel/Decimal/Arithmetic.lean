import ChoiceModel.Decimal.Shortest

/-! Operations on numbers that keep their special values: truncation, the remainder of whole parts,
and the larger and smaller of two numbers. What a number is exactly is read off its bits. -/

namespace ChoiceModel.Decimal

/-- The magnitude of a finite number without its fraction. -/
def wholePart (x : Float) : Nat :=
  let b := Binary.ofFloat x
  b.mantissa * power 2 b.exponent / power 2 (-b.exponent)

/-- A number without its fraction. Only a number of which a bit stands behind the point can have one;
any other stays as it is, and so do the infinities and what is no number. -/
def truncate (x : Float) : Float :=
  if (Binary.ofFloat x).exponent < 0 then
    let magnitude := (wholePart x).toUInt64.toFloat
    if x.toBits >>> 63 == 1 then -magnitude else magnitude
  else x

/-- The natural number that `x` is exactly, if it is one. -/
def whole? (x : Float) : Option Nat :=
  let b := Binary.ofFloat x
  let units := power 2 (-b.exponent)
  if !x.isFinite || (x.toBits >>> 63 == 1 && b.mantissa != 0) then none
  else if b.mantissa % units == 0 then some (b.mantissa * power 2 b.exponent / units)
  else none

/-- The remainder of the whole parts, with the sign of `a`. -/
def remainder (a b : Float) : Float :=
  if a.isNaN || b.isNaN || a.isInf then 0.0 / 0.0
  else if b.isInf then truncate a
  else if wholePart b == 0 then 0.0 / 0.0
  else
    let magnitude := Float.ofNat (wholePart a % wholePart b)
    if a.toBits >>> 63 == 1 then -magnitude else magnitude

def larger (a b : Float) : Float :=
  if a.isNaN then b else if b.isNaN then a else if a < b then b else a

/-- The smaller of two numbers; what is no number gives way to the other. -/
def smaller (a b : Float) : Float :=
  if a.isNaN then b else if b.isNaN then a else if b < a then b else a

/-- One with the sign of a nonzero number; a zero and what is no number stay as they are. -/
def signum (x : Float) : Float :=
  if x > 0.0 then 1.0 else if x < 0.0 then -1.0 else x * 0.0

def truth (b : Bool) : Float := if b then 1.0 else 0.0

end ChoiceModel.Decimal
