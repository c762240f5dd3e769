import Credence.Error
import Credence.Text.Blank
/-!
# Predicates

A predicate is a name and a number of arguments.  Two marks in front of a name have a meaning: `~` negates, and `fn_`
behind it names a primitive.  The two do not go together.
-/
namespace Credence

structure Predicate where
  name  : String
  arity : Nat
deriving DecidableEq, Hashable

namespace Predicate

def negationMark : String := "~"
def primitiveMark : String := "fn_"

def text (p : Predicate) : String := p.name ++ "/" ++ toString p.arity

def isNegated (p : Predicate) : Bool := Text.startsWith negationMark p.name

/-- The name without the negation mark. -/
def base (p : Predicate) : String := (Text.after? negationMark p.name).getD p.name

def isPrimitive (p : Predicate) : Bool := Text.startsWith primitiveMark p.base

/-- What a primitive is registered under. -/
def primitive? (p : Predicate) : Option String := Text.after? primitiveMark p.base

/-- Refuses a negated primitive. -/
def check (p : Predicate) : Except Error Predicate :=
  if p.isNegated && p.isPrimitive then .error (.negatedPrimitive p.text) else .ok p

/-- Puts the negation mark in front, or takes it away. -/
def negate (p : Predicate) : Except Error Predicate :=
  check { p with name := if p.isNegated then p.base else negationMark ++ p.name }

/-- By name, then by number of arguments. -/
def precedes (p q : Predicate) : Bool :=
  p.name < q.name || (p.name == q.name && p.arity ≤ q.arity)

end Predicate
end Credence
