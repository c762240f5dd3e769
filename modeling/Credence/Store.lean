import Credence.Clause
import Std.Data.HashSet
/-!
# Fact stores

The clauses found for one goal, each once and in the order they came.  A store may have a capacity, beyond which it
takes nothing more.
-/
namespace Credence

structure Store (W : Type) where
  clauses  : Array (Clause W)
  keys     : Std.HashSet (Nat × String)
  capacity : Option Nat

namespace Store

variable {W : Type}

def empty (capacity : Option Nat) : Store W := ⟨#[], ∅, capacity⟩

def size (s : Store W) : Nat := s.clauses.size

def toList (s : Store W) : List (Clause W) := s.clauses.toList

def isFull (s : Store W) : Bool := s.capacity.any (fun n => n ≤ s.size)

variable [Weight W]

def contains (s : Store W) (c : Clause W) : Bool := s.keys.contains c.key

/-- Adds a clause, and says whether it was new and found room. -/
def add (s : Store W) (c : Clause W) : Bool × Store W :=
  if s.isFull || s.contains c then (false, s)
  else (true, { s with clauses := s.clauses.push c, keys := s.keys.insert c.key })

/-- Adds clauses one by one and counts those that went in. -/
def addAll (s : Store W) (cs : List (Clause W)) : Nat × Store W :=
  cs.foldl (fun (n, s) c =>
    match s.add c with
    | (true, s)  => (n + 1, s)
    | (false, s) => (n, s)) (0, s)

end Store
end Credence
