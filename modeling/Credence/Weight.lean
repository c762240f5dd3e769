import Credence.Decimal.Layout
import Credence.Decimal.Read
/-!
# Weights

The arithmetic that probabilities are carried in.  Everything that stores, prints, compares or computes with a
probability is written against `Weight`, so that one text serves the doubles a program runs on and any exact field the
same computation is studied over.
-/
namespace Credence

/-- A number that can stand in front of a literal. -/
class Weight (W : Type) extends Zero W, One W, Add W, Sub W, Mul W where
  /-- The weight of what is certain, and no other. -/
  isCertain : W → Bool
  /-- Above zero and at most one. -/
  isProper : W → Bool
  isZero : W → Bool
  /-- The same number in the same representation. -/
  same : W → W → Bool
  /-- Rounded to a number of decimals. -/
  round : Nat → W → W
  text : W → String
  /-- The number a decimal text denotes. -/
  read? : String → Option W

/-! ## Doubles -/

namespace Decimal

/-- The power `x ^ n` by repeated squaring from the low bit of `n` up, `fuel` bits at most. -/
def powFrom : Nat → Float → Nat → Float → Float
  | 0,        r, _, _ => r
  | fuel + 1, r, n, x =>
    let r := if n % 2 = 1 then r * x else r
    if n / 2 = 0 then r else powFrom fuel r (n / 2) (x * x)

/-- The power of ten that shifts the point by `digits` places.  The count is a 32-bit word, and its upper half stands
for negative counts. -/
def tenTo (digits : Nat) : Float :=
  let n := digits % wordBound 32
  if n < wordBound 31 then powFrom 32 1.0 n 10.0 else 1.0 / powFrom 32 1.0 (wordBound 32 - n) 10.0

/-- A half goes away from zero. -/
def roundTo (digits : Nat) (x : Float) : Float :=
  let scale := tenTo digits
  (x * scale).round / scale

end Decimal

/-- A double by its bits.  Arithmetic goes through the number they stand for, and two doubles are the same only when all
their bits are: zeros of different sign are not, nor are two that are no number and differ in sign. -/
structure Double where
  bits : UInt64
deriving DecidableEq

namespace Double

def ofFloat (x : Float) : Double := ⟨x.toBits⟩

def toFloat (x : Double) : Float := .ofBits x.bits

end Double

instance : Weight Double where
  zero := .ofFloat 0.0
  one := .ofFloat 1.0
  add x y := .ofFloat (x.toFloat + y.toFloat)
  sub x y := .ofFloat (x.toFloat - y.toFloat)
  mul x y := .ofFloat (x.toFloat * y.toFloat)
  isCertain x := x.toFloat == 1.0
  isProper x := x.toFloat > 0.0 && x.toFloat <= 1.0
  isZero x := x.toFloat == 0.0
  same x y := x = y
  round digits x := .ofFloat (Decimal.roundTo digits x.toFloat)
  text x := Decimal.plain x.toFloat
  read? s := (Decimal.readBits? s).map Double.mk

end Credence
