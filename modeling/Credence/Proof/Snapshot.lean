import Credence.Clause
import Std.Data.HashMap
import Std.Data.HashSet
/-!
# What a run has established

The facts of a run, the grounded rules it completed, and for each negation the facts it stands against.  Literals are
known by their ids here.
-/
namespace Credence

/-- How a fact was found. -/
inductive Origin where
  /-- In the knowledge base, by a primitive, or as a negation: proofs rest on it. -/
  | asserted
  /-- As the head of a completed rule. -/
  | derived
deriving DecidableEq

structure Snapshot (W : Type) where
  facts     : Std.HashSet String
  asserted  : Std.HashSet String
  rules     : Array (Clause W)
  ruleKeys  : Std.HashSet (Nat × String)
  negations : Std.HashMap String (List (Literal W))

namespace Snapshot

variable {W : Type} [Weight W]

def empty : Snapshot W := ⟨∅, ∅, #[], ∅, ∅⟩

def addFact (s : Snapshot W) (l : Literal W) (origin : Origin) : Snapshot W :=
  let id := l.id
  { s with
    facts := s.facts.insert id
    asserted := if origin = .asserted then s.asserted.insert id else s.asserted }

/-- Adds a grounded rule that is not known yet. -/
def addRule (s : Snapshot W) (c : Clause W) : Snapshot W :=
  if s.ruleKeys.contains c.key then s
  else { s with rules := s.rules.push c, ruleKeys := s.ruleKeys.insert c.key }

/-- Records the facts of a literal that its negation `leaf` stands against. -/
def addNegation (s : Snapshot W) (leaf : Literal W) (bases : List (Literal W)) : Snapshot W :=
  { s with negations := s.negations.insert leaf.id bases }

def negationBases (s : Snapshot W) (leaf : Literal W) : List (Literal W) := s.negations.getD leaf.id []

def isAsserted (s : Snapshot W) (l : Literal W) : Bool := s.asserted.contains l.id

end Snapshot
end Credence
