/-!
# Shortest decimals

The decimal of fewest digits that reads back as a given binary number, and the nearest of those. A finite
number is m · 2 ^ q; all reals between the midpoints to its neighbours round to it, the midpoints themselves
when m is even.
-/

namespace Recast.Decimal

/-- The magnitude m · 2 ^ q of a finite number of 64 bits. -/
structure Magnitude where
  m : Nat
  q : Int
  /-- Whether the neighbour below is nearer than the one above. -/
  narrow : Bool
deriving DecidableEq, Repr

/-- Reads the magnitude from the bits; the sign is not looked at. -/
def Magnitude.ofBits (bits : Nat) : Magnitude :=
  let fraction : Nat := bits % Nat.pow 2 52
  let exponent : Nat := bits / Nat.pow 2 52 % Nat.pow 2 11
  if exponent = 0 then ⟨fraction, -1074, false⟩
  else ⟨fraction + Nat.pow 2 52, (exponent : Int) - 1075, fraction = 0 && exponent > 1⟩

/-- A decimal: `coefficient` · 10 ^ `exponent`. -/
structure Scientific where
  coefficient : Nat
  exponent : Int
deriving DecidableEq, Repr, Inhabited

/-- The decimal without zeros at the end of its coefficient. -/
def Scientific.trimmed (coefficient : Nat) (exponent : Int) : Scientific :=
  if h : coefficient ≠ 0 ∧ coefficient % 10 = 0 then Scientific.trimmed (coefficient / 10) (exponent + 1)
  else ⟨coefficient, exponent⟩
termination_by coefficient
decreasing_by exact Nat.div_lt_self (Nat.pos_of_ne_zero h.1) (by decide)

/-- The number num / den · 10 ^ (-k), rounded down. -/
def scaleDown (num den : Nat) (k : Int) : Nat :=
  if k < 0 then num * Nat.pow 10 k.natAbs / den else num / (den * Nat.pow 10 k.natAbs)

/-- Compares c · 10 ^ k with num / den. -/
def compareScaled (c : Nat) (k : Int) (num den : Nat) : Ordering :=
  if k < 0 then compare (c * den) (num * Nat.pow 10 k.natAbs)
  else compare (c * Nat.pow 10 k.natAbs * den) num

/-- The power of ten of the first digit of num / den, for which `fuel` places behind the point are tried. -/
def leadingPower (num den : Nat) (fuel : Nat) : Int :=
  if den ≤ num then ((Nat.toDigits 10 (num / den)).length : Int) - 1
  else
    let rec search : Nat → Nat → Int
      | 0, place => -(place : Int)
      | fuel + 1, place => if den ≤ num * Nat.pow 10 place then -(place : Int) else search fuel (place + 1)
    search fuel 1

/-- The decimals of a power of ten that lie within the interval, the nearer one of the two around the number;
of two equally near ones the greater. The number and the ends of the interval are fractions over `den`. -/
def onGrid? (number low high den : Nat) (inclusive : Bool) (k : Int) : Option Scientific :=
  let inside (c : Nat) : Bool :=
    let below := compareScaled c k low den
    let above := compareScaled c k high den
    (below == .gt || (inclusive && below == .eq)) && (above == .lt || (inclusive && above == .eq))
  let down := scaleDown number den k
  match inside down, inside (down + 1) with
  | false, false => none
  | true, false => some (.trimmed down k)
  | false, true => some (.trimmed (down + 1) k)
  | true, true =>
    if compareScaled (2 * down + 1) k (2 * number) den == .gt then some (.trimmed down k) else some (.trimmed (down + 1) k)

/-- The first grid with a hit, from the coarsest on. -/
def firstHit (number low high den : Nat) (inclusive : Bool) : Nat → Int → Option Scientific
  | 0, _ => none
  | n + 1, k =>
    match onGrid? number low high den inclusive k with
    | some hit => some hit
    | none => firstHit number low high den inclusive n (k - 1)

/-- The shortest decimal of a magnitude. -/
def Magnitude.shortest (x : Magnitude) : Scientific :=
  if x.m = 0 then ⟨0, 0⟩
  else
    let scale := Nat.pow 2 x.q.natAbs
    let whole := x.q ≥ 0
    let lift (n : Nat) : Nat := if whole then n * scale else n
    let den := if whole then 4 else 4 * scale
    let number := lift (4 * x.m)
    let low := lift (4 * x.m - if x.narrow then 1 else 2)
    let high := lift (4 * x.m + 2)
    (firstHit number low high den (x.m % 2 = 0) 17 (leadingPower number den 400)).getD ⟨0, 0⟩

/-- How a decimal is written. -/
structure Format where
  /-- Magnitudes from this power of ten on are written with an exponent. -/
  exponentFrom : Option Int
  /-- Magnitudes below this power of ten are written with an exponent. -/
  exponentBelow : Option Int
  /-- Whether a whole number has a zero behind the point. -/
  pointZero : Bool

/-- The digits with a point, without an exponent. -/
def positional (digits : List Char) (exponent : Int) (pointZero : Bool) : List Char :=
  let place := digits.length + exponent
  if place ≤ 0 then '0' :: '.' :: List.replicate place.natAbs '0' ++ digits
  else if exponent ≥ 0 then
    digits ++ List.replicate exponent.natAbs '0' ++ if pointZero then ['.', '0'] else []
  else digits.take place.natAbs ++ '.' :: digits.drop place.natAbs

/-- The digits with a point behind the first one and an exponent. -/
def withExponent (digits : List Char) (exponent : Int) : List Char :=
  let power := digits.length + exponent - 1
  let mantissa :=
    match digits with
    | first :: second :: rest => first :: '.' :: second :: rest
    | short => short
  mantissa ++ 'e' :: (toString power).toList

/-- A decimal as text. -/
def Scientific.text (format : Format) (d : Scientific) : List Char :=
  if d.coefficient = 0 then '0' :: if format.pointZero then ['.', '0'] else []
  else
    let digits := Nat.toDigits 10 d.coefficient
    let power : Int := digits.length + d.exponent - 1
    if format.exponentFrom.any (· ≤ power) || format.exponentBelow.any (power < ·) then
      withExponent digits d.exponent
    else positional digits d.exponent format.pointZero

/-- A number as text, with the sign of zero and the names of what is not finite. -/
def floatText (format : Format) (x : Float) : String :=
  if x.isNaN then "NaN"
  else
    let bits := x.toBits.toNat
    let sign := if bits ≥ Nat.pow 2 63 then "-" else ""
    if x.isInf then sign ++ "inf"
    else sign ++ String.ofList ((Magnitude.ofBits bits).shortest.text format)

/-- Every number is read as its digits say: a coefficient and a power of ten. Powers far outside the range of
numbers give infinity and zero. -/
def readFloat (coefficient : Nat) (exponent : Int) : Float :=
  let power : Int := (Nat.toDigits 10 coefficient).length + exponent
  if coefficient = 0 || power < -400 then 0.0
  else if power > 400 then 1.0 / 0.0
  else if exponent < 0 then OfScientific.ofScientific coefficient true exponent.natAbs
  else OfScientific.ofScientific coefficient false exponent.natAbs

end Recast.Decimal
