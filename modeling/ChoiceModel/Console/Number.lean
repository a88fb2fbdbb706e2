import ChoiceModel.Decimal.Layout
import ChoiceModel.Text.Blank

/-! Numbers as results show them: six places at most, and no zeros at the end. -/

namespace ChoiceModel.Console

/-- The value on the grid of six places that is nearest, a half away from zero. -/
def sixPlaces (x : Float) : Float := (x * 1e6).round / 1e6

/-- A text with six places, without the zeros at its end and without a point that they leave. -/
def withoutZeros (cs : List Char) : List Char :=
  ((cs.reverse.dropWhile (· == '0')).dropWhile (· == '.')).reverse

/-- A result; from 10^15 on it has an exponent. -/
def number (x : Float) : String :=
  if !x.isFinite then Decimal.plain.write x
  else if x.abs ≥ 1e15 then Decimal.scientific.write x
  else String.ofList (withoutZeros (Decimal.fixed 6 (sixPlaces x)).toList)

end ChoiceModel.Console
