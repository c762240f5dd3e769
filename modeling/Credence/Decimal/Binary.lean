/-!
# Binary64 numbers as integers times powers of two

A finite double is `m * 2 ^ q` with `m < 2 ^ 53`.  `Binary.ofFloat` takes a double apart, and `ofRatio` goes the other
way: it rounds a quotient of naturals to the nearest double, a tie to the even one.  Both work on the bits and on exact
naturals.
-/
namespace Credence
namespace Decimal

/-- A finite double without its sign: `mantissa * 2 ^ exponent`.  `narrow` marks a power of two whose neighbour below is
only half as far away as the one above. -/
structure Binary where
  mantissa : Nat
  exponent : Int
  narrow   : Bool

/-- The bit before the fraction, which the mantissa of a normal double has and its bits do not show. -/
def leadingBit : Nat := 1 <<< 52

/-- The magnitude bits of infinity. -/
def infinityBits : Nat := 2047 * leadingBit

inductive Class where
  | finite (negative : Bool) (magnitude : Binary)
  | infinite (negative : Bool)
  | nan

/-- The class and magnitude of a double, read off its bits. -/
def classify (x : Float) : Class :=
  let bits : Nat := x.toBits.toNat
  let negative := bits >>> 63 == 1
  let biased : Nat := (bits >>> 52) % 2048
  let fraction := bits % leadingBit
  if biased = 2047 then
    if fraction = 0 then .infinite negative else .nan
  else if biased = 0 then .finite negative ⟨fraction, -1074, false⟩
  else .finite negative ⟨leadingBit + fraction, (biased : Int) - 1075, fraction == 0 && 1 < biased⟩

/-- The sign bit in front of the bits of a magnitude. -/
def signedBits (negative : Bool) (magnitude : Nat) : UInt64 :=
  UInt64.ofNat (if negative then (1 <<< 63) + magnitude else magnitude)

/-- The natural nearest to `n / d`, from a half the even one. -/
def roundDiv (n d : Nat) : Nat :=
  let q := n / d
  let r := 2 * (n % d)
  if r < d then q else if d < r then q + 1 else q + q % 2

/-- The exponent of the last bit of the doubles near `n / d`, never below that of the subnormal ones.  The guess from
the bit lengths is at most one too low. -/
def lastBit (n d : Nat) : Int :=
  let guess := (n.log2 : Int) - d.log2 - 53
  let q := if n <<< (-guess).toNat < d <<< (guess.toNat + 53) then guess else guess + 1
  max q (-1074)

/-- The bits of the double nearest to `n / d`; beyond the largest double these are the bits of infinity. -/
def ratioBits (n d : Nat) : Nat :=
  if n = 0 then 0
  else
    let q := lastBit n d
    let m := roundDiv (n <<< (-q).toNat) (d <<< q.toNat)
    -- A mantissa of 53 bits carries one into the exponent field, and so does one that rounded up to 2 ^ 53.
    min ((q + 1074).toNat * leadingBit + m) infinityBits

/-- The double nearest to `n / d`. -/
def ofRatio (negative : Bool) (n d : Nat) : Float :=
  Float.ofBits (signedBits negative (ratioBits n d))

end Decimal
end Credence
