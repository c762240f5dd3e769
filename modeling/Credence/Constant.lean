import Credence.Calendar
import Credence.Decimal.Layout
import Credence.Text.Base64
/-!
# Constants

A constant is its printed form, and two constants are equal when they print alike.  Any text can be a constant: one that
would not be read back as a bare word is kept in base64 behind a mark.  Numbers, booleans and dates are views of the
printed form.
-/
namespace Credence

structure Constant where
  printed : String
deriving DecidableEq, Hashable

namespace Constant

/-- What a wrapped text starts with. -/
def wrapMark : String := "b64_"

def isWordChar (c : Char) : Bool :=
  c.isAlphanum || c == '_' || c == '-'

/-! ## Texts that can stand bare -/

def isDigitRun (cs : List Char) : Bool := !cs.isEmpty && cs.all Char.isDigit

/-- An optional minus, digits, and an optional point with digits behind it. -/
def isNumber (cs : List Char) : Bool :=
  let cs :=
    match cs with
    | '-' :: cs => cs
    | cs        => cs
  isDigitRun (cs.takeWhile (· != '.')) &&
    match cs.dropWhile (· != '.') with
    | []      => true
    | _ :: cs => isDigitRun cs

/-- A text that reads back as itself: a number, or a word that is not taken for a variable, a wildcard or a wrap. -/
def isBare (s : String) : Bool :=
  if Text.startsWith wrapMark s then false
  else if isNumber s.toList then true
  else
    match s.toList with
    | []      => false
    | c :: cs => !c.isUpper && c != '_' && (c :: cs).all isWordChar

/-! ## Making constants -/

def ofText (s : String) : Constant :=
  if isBare s then ⟨s⟩ else ⟨wrapMark ++ Text.Base64.encodeText s⟩

def ofBool (b : Bool) : Constant := ⟨if b then "true" else "false"⟩

def ofInt (n : Int) : Constant := ⟨toString n⟩

/-- Toward zero. -/
def truncate (x : Float) : Float := if x < 0.0 then x.ceil else x.floor

/-- A whole number of moderate size is written as an integer, so a zero loses its sign. -/
def ofFloat (x : Float) : Constant :=
  if x - truncate x == 0.0 && x.abs < 1e15 then
    let n : Int := x.abs.toUInt64.toNat
    ofInt (if x < 0.0 then -n else n)
  else ⟨Decimal.plain x⟩

/-! ## Views -/

/-- The text with the wrap undone; a word that only looks wrapped is its own text. -/
def text (c : Constant) : String :=
  ((Text.after? wrapMark c.printed).bind Text.Base64.decodeText?).getD c.printed

def float? (c : Constant) : Option Float :=
  (Decimal.readFloat? c.printed).filter Float.isFinite

def int? (c : Constant) : Option Int := Decimal.readInt64? c.printed

def bool? (c : Constant) : Option Bool :=
  if c.printed = "true" then some true else if c.printed = "false" then some false else none

def date? (c : Constant) : Option Date := Date.read? c.text

end Constant
end Credence
