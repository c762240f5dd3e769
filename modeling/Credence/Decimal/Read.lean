import Credence.Decimal.Binary
/-!
# Numbers from text

A decimal text is an optional sign, digits with at most one point, and an optional power of ten; at least one digit
stands before or behind the point.  It is read exactly and rounded once.  Integers are a sign and digits in a range.
-/
namespace Credence
namespace Decimal

def isDigits (cs : List Char) : Bool := cs.all Char.isDigit

/-- The natural a list of digits denotes. -/
def ofDigits (cs : List Char) : Nat :=
  cs.foldl (fun n c => 10 * n + (c.toNat - 48)) 0

/-- A sign in front, and whether it is a minus. -/
def takeSign : List Char → Bool × List Char
  | '-' :: cs => (true, cs)
  | '+' :: cs => (false, cs)
  | cs        => (false, cs)

/-- A sign and at least one digit, nothing else. -/
def readInteger? (cs : List Char) : Option Int :=
  let (negative, ds) := takeSign cs
  if ds.isEmpty || !isDigits ds then none
  else some (if negative then -(ofDigits ds : Int) else ofDigits ds)

/-- The signed integers of 64 bits. -/
def readInt64? (s : String) : Option Int :=
  (readInteger? s.toList).filter (fun n => -0x8000000000000000 ≤ n && n < 0x8000000000000000)

/-- One more than the greatest word of so many bits. -/
def wordBound (bits : Nat) : Nat := 1 <<< bits

/-- The natural numbers below `bound`; not even a zero takes a minus. -/
def readNat? (bound : Nat) (s : String) : Option Nat :=
  match s.toList with
  | '-' :: _ => none
  | cs       => (readInteger? cs).bind (fun n => if n < bound then some n.toNat else none)

/-! ## Doubles -/

/-- The parts of a decimal text without its sign. -/
structure Scientific where
  whole    : List Char
  fraction : List Char
  exponent : Int

def readExponent? : List Char → Option Int
  | []      => some 0
  | c :: cs => if c = 'e' ∨ c = 'E' then readInteger? cs else none

def readScientific? (cs : List Char) : Option Scientific :=
  let whole := cs.takeWhile Char.isDigit
  let rest := cs.dropWhile Char.isDigit
  let (fraction, rest) :=
    match rest with
    | '.' :: rest => (rest.takeWhile Char.isDigit, rest.dropWhile Char.isDigit)
    | rest        => ([], rest)
  if whole.isEmpty && fraction.isEmpty then none
  else (readExponent? rest).map (fun e => ⟨whole, fraction, e⟩)

/-- The bits of the double nearest to `n * 10 ^ e`.  Far outside the range of doubles the power of ten is not formed. -/
def scientificBits (n : Nat) (e : Int) : Nat :=
  let size := (Nat.toDigits 10 n).length + e
  if n = 0 ∨ size < -400 then 0
  else if 400 < size then infinityBits
  else ratioBits (n * Nat.pow 10 e.toNat) (Nat.pow 10 (-e).toNat)

/-- The double nearest to `n * 10 ^ e`. -/
def ofScientific (n : Nat) (e : Int) : Float :=
  Float.ofBits (signedBits false (scientificBits n e))

def Scientific.bits (s : Scientific) : Nat :=
  scientificBits (ofDigits (s.whole ++ s.fraction)) (s.exponent - s.fraction.length)

/-- The bits that mark what is no number. -/
def nanBits : Nat := infinityBits + (1 <<< 51)

/-- The words for what is no finite number, in any case. -/
def wordBits? (cs : List Char) : Option Nat :=
  let word := String.ofList (cs.map Char.toLower)
  if word = "inf" ∨ word = "infinity" then some infinityBits
  else if word = "nan" then some nanBits
  else none

/-- The bits of the double a text denotes.  A sign is kept in front of any magnitude, also of one that is no number. -/
def readBits? (s : String) : Option UInt64 :=
  let (negative, cs) := takeSign s.toList
  let magnitude :=
    match readScientific? cs with
    | some d => some d.bits
    | none   => wordBits? cs
  magnitude.map (signedBits negative)

/-- The double a text denotes. -/
def readFloat? (s : String) : Option Float := (readBits? s).map Float.ofBits

end Decimal
end Credence
