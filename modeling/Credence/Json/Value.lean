import Credence.Decimal.Read
/-!
# JSON values

A document as far as settings need it: texts that are no keys keep nothing, and numbers keep their digits, because what
number they denote depends on who asks.
-/
namespace Credence
namespace Json

/-- A number as written. -/
structure Number where
  negative : Bool
  whole    : List Char
  fraction : Option (List Char)
  /-- Whether the exponent is negative, and its digits. -/
  exponent : Option (Bool × List Char)

inductive Value where
  | null
  | bool (b : Bool)
  | number (n : Number)
  | text
  | list (vs : List Value)
  /-- Keys still have their escapes. -/
  | object (fields : List (List Char × Value))

namespace Number

/-- A natural number below `bound`, written without sign, fraction and exponent. -/
def nat? (bound : Nat) (n : Number) : Option Nat :=
  if n.negative || n.fraction.isSome || n.exponent.isSome then none
  else
    let v := Decimal.ofDigits n.whole
    if v < bound then some v else none

/-! ## Doubles

The digits are gathered into a word of 64 bits, which is then scaled by one power of ten in double arithmetic.  Digits
that no longer fit the word are dropped; those before the point still count for the scale.  The result can differ from
the nearest double in the last place. -/

/-- Appends digits while the word has room, and gives back those that found none. -/
def gather (word : Nat) : List Char → Nat × List Char
  | []      => (word, [])
  | c :: cs =>
    let next := 10 * word + (c.toNat - 48)
    if next < Decimal.wordBound 64 then gather next cs else (word, c :: cs)

/-- Scales `x` by `10 ^ e`, in several divisions where one power of ten would not do.  A result too large is none; one
too small is zero after `tries` divisions. -/
def scale : Nat → Float → Int → Option Float
  | 0,         x, _ => some x
  | tries + 1, x, e =>
    if 0 ≤ e ∧ e ≤ 308 then
      let y := x * Decimal.ofScientific 1 e
      if y.isInf then none else some y
    else if -308 ≤ e ∧ e < 0 then some (x / Decimal.ofScientific 1 (-e))
    else if x == 0.0 then some x
    else if 0 ≤ e then none
    else scale tries (x / 1e308) (e + 308)

def signed (negative : Bool) (x : Float) : Float := if negative then -x else x

def float? (n : Number) : Option Float :=
  let (word, left) := gather 0 n.whole
  let digits := n.fraction.getD []
  let (word, lost) := gather word digits
  let point : Int := left.length - (digits.length - lost.length : Nat)
  let x := Decimal.ofRatio false word 1
  match n.exponent with
  | none => (scale 8 x point).map (signed n.negative)
  | some (down, ds) =>
    let e := Decimal.ofDigits ds
    if e < Decimal.wordBound 31 then (scale 8 x (if down then point - e else point + e)).map (signed n.negative)
    else if word = 0 ∨ down then some (signed n.negative 0.0)
    else none

end Number
end Json
end Credence
