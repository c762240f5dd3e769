import Credence.Decimal.Binary
/-!
# The shortest decimal that reads back

Of the decimals that round to a given double, the ones with the fewest digits, and of those the nearest.  The reals
that round to `m * 2 ^ q` form an interval, closed exactly when `m` is even.  For one, two, three … digits the two
neighbours of the value on that decimal grid are tested against the interval in exact arithmetic, and the first grid
with a hit wins: if any point of a grid lies in the interval, so does one of the value's two neighbours.
-/
namespace Credence
namespace Decimal

/-- Which of two equally near decimals is written. -/
inductive Tie where
  | upward
  | toEven
deriving DecidableEq

/-- A positive decimal `0.d₁d₂… * 10 ^ point` by its digits. -/
structure Digits where
  digits : List Char
  point  : Int

def countDigits (n : Nat) : Nat := (Nat.toDigits 10 n).length

/-- The `point` of `n / d`, which is positive: the least power of ten above it. -/
def pointOf (n d : Nat) : Int :=
  if d ≤ n then countDigits (n / d) else 1 - (countDigits ((d - 1) / n) : Int)

def dropTrailingZeros (cs : List Char) : List Char :=
  (cs.reverse.dropWhile (· == '0')).reverse

/-- The decimal `c * 10 ^ (point - places)`, without the zeros at its end. -/
def Digits.ofGrid (c places : Nat) (point : Int) : Digits :=
  let cs := Nat.toDigits 10 c
  ⟨dropTrailingZeros cs, point + cs.length - places⟩

/-- An interval around `value` in a common unit, with its ends. -/
structure Span where
  low    : Nat
  value  : Nat
  high   : Nat
  closed : Bool

def Span.covers (s : Span) (n : Nat) : Bool :=
  if s.closed then s.low ≤ n && n ≤ s.high else s.low < n && n < s.high

def Span.scale (s : Span) (k : Nat) : Span :=
  { s with low := s.low * k, value := s.value * k, high := s.high * k }

/-- The multiple of `unit` next to the value that lies inside, if one does. -/
def Span.nearest (tie : Tie) (s : Span) (unit : Nat) : Option Nat :=
  let down := s.value / unit
  let up := down + 1
  match s.covers (down * unit), s.covers (up * unit) with
  | false, false => none
  | true,  false => some down
  | false, true  => some up
  | true,  true  =>
    let below := s.value - down * unit
    let above := up * unit - s.value
    if below < above then some down
    else if above < below then some up
    else
      match tie with
      | .upward => some up
      | .toEven => some (if down % 2 = 0 then down else up)

/-- The interval of `b` in units of a quarter of its last bit, and the denominator that goes with the unit. -/
def Binary.span (b : Binary) : Span × Nat :=
  let v := 4 * b.mantissa
  let s : Span := ⟨if b.narrow then v - 1 else v - 2, v, v + 2, b.mantissa % 2 == 0⟩
  (s.scale (1 <<< (b.exponent - 2).toNat), 1 <<< (2 - b.exponent).toNat)

/-- The first of the next `tries` grids with a hit, from the grid of `places` digits on. -/
def searchGrids (tie : Tie) (s : Span) (d : Nat) (point : Int) : Nat → Nat → Option Digits
  | 0,         _      => none
  | tries + 1, places =>
    let shift := point - places
    match (s.scale (Nat.pow 10 (-shift).toNat)).nearest tie (d * Nat.pow 10 shift.toNat) with
    | some c => some (.ofGrid c places point)
    | none   => searchGrids tie s d point tries (places + 1)

/-- The shortest decimal of a positive magnitude.  Seventeen digits always suffice for a double. -/
def shortest (tie : Tie) (b : Binary) : Digits :=
  let (s, d) := b.span
  (searchGrids tie s d (pointOf s.value d) 17 1).getD ⟨['0'], 1⟩

end Decimal
end Credence
