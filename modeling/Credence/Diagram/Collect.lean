import Credence.Diagram.Eval
/-!
# Keeping and collecting functions

A function that is referenced stays; a collection frees every node that no referenced function uses.
-/
namespace Credence
namespace Diagram

def addRef (f : Handle) : List (Handle × Nat) → List (Handle × Nat)
  | []           => [(f, 1)]
  | (g, n) :: rs => if g = f then (g, n + 1) :: rs else (g, n) :: addRef f rs

def dropRef (f : Handle) : List (Handle × Nat) → List (Handle × Nat)
  | []           => []
  | (g, n) :: rs => if g = f then (if n ≤ 1 then rs else (g, n - 1) :: rs) else (g, n) :: dropRef f rs

/-- Protects `f` from collection, once more. -/
def reference (d : Diagram) (f : Handle) : Diagram := { d with refs := addRef f d.refs }

/-- Takes one protection back. -/
def dereference (d : Diagram) (f : Handle) : Diagram := { d with refs := dropRef f d.refs }

/-- Frees the slot of a node. -/
def freeSlot (d : Diagram) (slot : Nat) : Diagram :=
  match d.node? ⟨slot⟩ with
  | none   => d
  | some n =>
    { d with nodes := d.nodes.setIfInBounds slot none, free := slot :: d.free, unique := d.unique.erase n }

/-- The slots of nodes that no referenced function uses.  They are freed in the order they are listed in, the lowest first;
that is a choice, and no result depends on it. -/
def garbage (d : Diagram) : List Nat :=
  let keep := d.reachable d.roots
  (List.range d.nodes.size).filter (fun slot => (d.node? ⟨slot⟩).isSome && !keep.contains ⟨slot⟩)

/-- Frees what is not used, forgets the memo, and says how many nodes went. -/
def collect (d : Diagram) : Nat × Diagram :=
  let dead := d.garbage
  let d := dead.foldl freeSlot d
  (dead.length, { d with cache := d.cache.clear })

end Diagram
end Credence
