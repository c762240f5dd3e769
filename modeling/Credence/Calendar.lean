import Credence.Decimal.Read
import Credence.Text.Blank
/-!
# Calendar dates

Dates of the Gregorian calendar carried through all years, read from `year-month-day`.  Each number may have white space
before it; a year with a sign has any number of digits, one without has at most four; nothing follows the day.
-/
namespace Credence

structure Date where
  year  : Int
  month : Nat
  day   : Nat
deriving DecidableEq

namespace Date

def isLeap (year : Int) : Bool :=
  year % 4 == 0 && (year % 100 != 0 || year % 400 == 0)

def monthLength (year : Int) (month : Nat) : Nat :=
  if month = 2 then (if isLeap year then 29 else 28)
  else if month = 4 ∨ month = 6 ∨ month = 9 ∨ month = 11 then 30
  else 31

/-- A real day in the years that are kept. -/
def isValid (d : Date) : Bool :=
  -262143 ≤ d.year && d.year ≤ 262142 && 1 ≤ d.month && d.month ≤ 12 && 1 ≤ d.day &&
    d.day ≤ monthLength d.year d.month

/-! ## Order and distance -/

def daysBeforeYear (year : Int) : Int :=
  let y := year - 1
  365 * y + y / 4 - y / 100 + y / 400

def daysBeforeMonth (year : Int) (month : Nat) : Nat :=
  (List.range (month - 1)).foldl (fun days m => days + monthLength year (m + 1)) 0

/-- The number of a day in an unbroken count of days. -/
def dayNumber (d : Date) : Int :=
  daysBeforeYear d.year + daysBeforeMonth d.year d.month + d.day

def daysUntil (a b : Date) : Int := b.dayNumber - a.dayNumber

/-! ## Reading -/

/-- One to `width` digits behind optional white space, and the rest. -/
def takeNumber (width : Nat) (cs : List Char) : Option (Nat × List Char) :=
  let cs := Text.trimStart cs
  let ds := (cs.take width).takeWhile Char.isDigit
  if ds.isEmpty then none else some (Decimal.ofDigits ds, cs.drop ds.length)

/-- All the digits in front, at least one, and the rest. -/
def takeDigits (cs : List Char) : Option (Nat × List Char) :=
  let ds := cs.takeWhile Char.isDigit
  if ds.isEmpty then none else some (Decimal.ofDigits ds, cs.dropWhile Char.isDigit)

def takeYear (cs : List Char) : Option (Int × List Char) :=
  match Text.trimStart cs with
  | '-' :: cs => (takeDigits cs).map (fun (n, r) => (-(n : Int), r))
  | '+' :: cs => (takeDigits cs).map (fun (n, r) => ((n : Int), r))
  | cs        => (takeNumber 4 cs).map (fun (n, r) => ((n : Int), r))

def takeDash : List Char → Option (List Char)
  | '-' :: cs => some cs
  | _         => none

def read? (s : String) : Option Date := do
  let (year, cs) ← takeYear s.toList
  let (month, cs) ← takeNumber 2 (← takeDash cs)
  let (day, cs) ← takeNumber 2 (← takeDash cs)
  let date : Date := ⟨year, month, day⟩
  if cs.isEmpty && date.isValid then some date else none

/-! ## Writing -/

def padded (width n : Nat) : String :=
  let ds := Nat.toDigits 10 n
  String.ofList (List.replicate (width - ds.length) '0' ++ ds)

/-- Four digits for the year, and a sign where four do not do. -/
def text (d : Date) : String :=
  let sign := if d.year < 0 then "-" else if 9999 < d.year then "+" else ""
  sign ++ padded 4 d.year.natAbs ++ "-" ++ padded 2 d.month ++ "-" ++ padded 2 d.day

end Date
end Credence
