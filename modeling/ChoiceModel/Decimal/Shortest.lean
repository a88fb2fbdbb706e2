/-! The shortest decimal that reads back to a binary64 value, found by exact integer arithmetic:
the first decimal grid on which a neighbour of the value lies among the reals rounding to it. -/

namespace ChoiceModel.Decimal

/-- The power of a base, which is 1 for a negative exponent. -/
def power (base : Nat) (exponent : Int) : Nat := Nat.pow base exponent.toNat

/-- The magnitude of a finite binary64 value, `mantissa * 2 ^ exponent`. -/
structure Binary where
  mantissa : Nat
  exponent : Int
  /-- The value below is half as far away as the value above. -/
  narrowBelow : Bool

def Binary.ofBits (b : UInt64) : Binary :=
  let e := ((b >>> 52) &&& 0x7FF).toNat
  let f := (b &&& 0xFFFFFFFFFFFFF).toNat
  if e == 0 then ⟨f, -1074, false⟩ else ⟨0x10000000000000 + f, (e : Int) - 1075, f == 0 && e > 1⟩

def Binary.ofFloat (x : Float) : Binary := .ofBits x.toBits

structure Scaled where
  digits : Nat
  exponent : Int
deriving Repr, DecidableEq

/-- Compares `a * 10 ^ i` with `n * 2 ^ j`. -/
def compareScaled (a : Nat) (i : Int) (n : Nat) (j : Int) : Ordering :=
  compare (a * power 10 i * power 2 (-j)) (n * power 2 j * power 10 (-i))

/-- Whether `d` lies among the reals that round to `x`: the ends, halfway to the neighbours, belong
to the value with the even mantissa. -/
def Binary.readsBack (x : Binary) (d : Scaled) : Bool :=
  let lo := if x.narrowBelow then 4 * x.mantissa - 1 else 4 * x.mantissa - 2
  let hi := 4 * x.mantissa + 2
  let closed := x.mantissa % 2 == 0
  let below := compareScaled d.digits d.exponent lo (x.exponent - 2)
  let above := compareScaled d.digits d.exponent hi (x.exponent - 2)
  (below == .gt || (closed && below == .eq)) && (above == .lt || (closed && above == .eq))

def Binary.over (x : Binary) (grid : Int) : Nat × Nat :=
  (x.mantissa * power 2 x.exponent * power 10 (-grid), power 2 (-x.exponent) * power 10 grid)

/-- The least `k` with `x < 10 ^ k`, for a positive `x`: the binary logarithm places it within
a few steps. -/
def Binary.scale (x : Binary) : Int :=
  let guess := ((x.mantissa.log2 : Int) + x.exponent) * 30103 / 100000 - 1
  let fits := (List.range 5).find? fun (i : Nat) =>
    compareScaled 1 (guess + i) x.mantissa x.exponent == .gt
  guess + fits.getD 4

inductive Tie where
  | upper
  | even
deriving DecidableEq

def Tie.isUpper (tie : Tie) (lower : Nat) : Bool :=
  match tie with
  | upper => true
  | even => lower % 2 == 1

def roundDiv (tie : Tie) (num den : Nat) : Nat :=
  let q := num / den
  match compare (2 * (num % den)) den with
  | .lt => q
  | .gt => q + 1
  | .eq => if tie.isUpper q then q + 1 else q

/-- The point of the grid `10 ^ grid` that reads back as `x`, the nearer one of two. -/
def Binary.onGrid? (x : Binary) (tie : Tie) (grid : Int) : Option Scaled :=
  let (a, b) := x.over grid
  let lo : Scaled := ⟨a / b, grid⟩
  let hi : Scaled := ⟨a / b + 1, grid⟩
  match x.readsBack lo, x.readsBack hi with
  | true, true => some ⟨roundDiv tie a b, grid⟩
  | true, false => some lo
  | false, true => some hi
  | false, false => none

/-- Moves up to `n` zeros at the end of the digits into the exponent. -/
def Scaled.strip (d : Scaled) : Nat → Scaled
  | 0 => d
  | n + 1 => if d.digits % 10 == 0 then Scaled.strip ⟨d.digits / 10, d.exponent + 1⟩ n else d

/-- The fewest digits that read back as `x`; zero has the digit 0. -/
def Binary.shortest (x : Binary) (tie : Tie) : Scaled :=
  if x.mantissa == 0 then ⟨0, 0⟩
  else
    let k := x.scale
    match (List.range 17).findSome? fun n => x.onGrid? tie (k - (n + 1 : Nat)) with
    | some d => d.strip 17
    | none => ⟨x.mantissa * power 2 x.exponent * power 5 (-x.exponent), min x.exponent 0⟩

end ChoiceModel.Decimal
