import Credence.Decimal.Shortest
/-!
# Numbers as text

Two ways to write a double with its shortest digits.  `plain` never uses an exponent and drops a fraction that is zero;
`json` keeps the fraction and changes to an exponent for very large and very small magnitudes.
-/
namespace Credence
namespace Decimal

def zeros (n : Nat) : List Char := List.replicate n '0'

/-- Positional digits, with the point where it belongs and a leading zero where nothing stands before it. -/
def Digits.positional (d : Digits) : List Char :=
  if d.point ≤ 0 then '0' :: '.' :: zeros (-d.point).toNat ++ d.digits
  else if d.digits.length ≤ d.point.toNat then d.digits ++ zeros (d.point.toNat - d.digits.length)
  else d.digits.take d.point.toNat ++ '.' :: d.digits.drop d.point.toNat

/-- One digit before the point and a power of ten behind. -/
def Digits.scientific (d : Digits) : List Char :=
  let mantissa :=
    match d.digits with
    | []      => []
    | [c]     => [c]
    | c :: cs => c :: '.' :: cs
  mantissa ++ 'e' :: (toString (d.point - 1)).toList

def signed (negative : Bool) (cs : List Char) : String :=
  String.ofList (if negative then '-' :: cs else cs)

/-- The shortest positional form. -/
def plain (x : Float) : String :=
  match classify x with
  | .nan           => "NaN"
  | .infinite sign => signed sign ['i', 'n', 'f']
  | .finite sign b => signed sign (if b.mantissa = 0 then ['0'] else (shortest .upward b).positional)

/-- The fraction is kept up to sixteen digits before the point, and five zeros behind it are the most written out. -/
def Digits.json (d : Digits) : List Char :=
  if d.digits.length ≤ d.point ∧ d.point ≤ 16 then d.positional ++ ['.', '0']
  else if -5 < d.point ∧ d.point ≤ 16 then d.positional
  else d.scientific

/-- The form a JSON document carries; what is not a number is `null` there. -/
def json (x : Float) : String :=
  match classify x with
  | .nan           => "null"
  | .infinite _    => "null"
  | .finite sign b => signed sign (if b.mantissa = 0 then ['0', '.', '0'] else (shortest .toEven b).json)

end Decimal
end Credence
