import Credence.Diagram.Handle
import Std.Data.HashMap
/-!
# A bounded memo of if-then-else

Results that were computed before, by their three operands.  Once the capacity is reached the oldest entry makes room
for a new one.  Look-ups are counted.
-/
namespace Credence

abbrev CacheKey := Handle × Handle × Handle

structure Cache where
  entries  : Std.HashMap CacheKey Handle
  /-- Keys from the oldest on, in two parts: the second part is in reverse. -/
  oldest   : List CacheKey
  newest   : List CacheKey
  capacity : Nat
  hits     : Nat
  misses   : Nat

namespace Cache

def empty (capacity : Nat) : Cache := ⟨∅, [], [], capacity, 0, 0⟩

def size (c : Cache) : Nat := c.entries.size

/-- A counted look-up. -/
def get (c : Cache) (k : CacheKey) : Option Handle × Cache :=
  match c.entries[k]? with
  | some f => (some f, { c with hits := c.hits + 1 })
  | none   => (none, { c with misses := c.misses + 1 })

def dropOldest (c : Cache) : Cache :=
  match c.oldest with
  | k :: ks => { c with entries := c.entries.erase k, oldest := ks }
  | []      =>
    match c.newest.reverse with
    | k :: ks => { c with entries := c.entries.erase k, oldest := ks, newest := [] }
    | []      => c

/-- A key that is known keeps its age. -/
def insert (c : Cache) (k : CacheKey) (f : Handle) : Cache :=
  if c.capacity = 0 then c
  else if c.entries.contains k then { c with entries := c.entries.insert k f }
  else
    let c := { c with entries := c.entries.insert k f, newest := k :: c.newest }
    if c.capacity < c.entries.size then c.dropOldest else c

/-- Forgets the entries and keeps the counts. -/
def clear (c : Cache) : Cache := { c with entries := ∅, oldest := [], newest := [] }

end Cache
end Credence
