import Credence.Literal
/-!
# Hashing literals

What a set of literals hands to its hasher: the bits of the weight, the predicate, each constant by its text and each
variable as a blank, and last the numbers of the variables.  The hasher itself is left open.
-/
namespace Credence

/-- What a hasher takes in at once. -/
inductive Piece
  | bits (b : UInt64)
  | text (s : String)
  | letter (c : Char)
  | count (n : Nat)
  /-- Whether an optional value is there. -/
  | present (b : Bool)

namespace Literal

def termPiece : Term → Piece
  | .const c => .text c.printed
  | .var _   => .letter '_'

def numberPieces : Option Nat → List Piece
  | none   => [.present false]
  | some n => [.present true, .count n]

/-- A literal as it goes into a hasher; the numbers are preceded by how many there are. -/
def pieces (l : Literal Double) : List Piece :=
  .bits l.weight.bits :: .text l.name :: .count l.predicate.arity :: l.terms.map termPiece ++
    .count l.numbers.length :: l.numbers.flatMap numberPieces

/-- The state of a hasher after a literal, where `feed` takes in one piece. -/
def hashWith {S : Type} (feed : S → Piece → S) (s : S) (l : Literal Double) : S := l.pieces.foldl feed s

end Literal
end Credence
