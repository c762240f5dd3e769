import Credence.Diagram.Reorder
/-!
# Sifting

Each variable in turn is tried at every level and left where the referenced functions need the fewest nodes.  A
direction is given up once the diagram has grown too far beyond the best size found.
-/
namespace Credence
namespace Diagram

/-- The smallest size found so far and the level it was found at. -/
structure Best where
  size  : Nat
  level : Nat

/-- The size beyond which a direction is given up. -/
def limit (d : Diagram) (best : Nat) : Nat := ((Float.ofNat best * d.growth).ceil).toUInt64.toNat

/-- Carries the variable at a level downwards, `count` levels at most. -/
def siftDown : Nat → Nat → Best → Diagram → Nat × Best × Diagram
  | 0,         level, best, d => (level, best, d)
  | count + 1, level, best, d =>
    let d := d.exchange level
    let size := d.rootedSize
    if size < best.size then siftDown count (level + 1) ⟨size, level + 1⟩ d
    else if d.limit best.size < size then (level + 1, best, d)
    else siftDown count (level + 1) best d

/-- Carries the variable at a level upwards to the top.  Growth counts only above the level it started from. -/
def siftUp (start : Nat) : Nat → Best → Diagram → Nat × Best × Diagram
  | 0,         best, d => (0, best, d)
  | level + 1, best, d =>
    let d := d.exchange level
    let size := d.rootedSize
    if size < best.size then siftUp start level ⟨size, level⟩ d
    else if level < start ∧ d.limit best.size < size then (level, best, d)
    else siftUp start level best d

def siftVar (d : Diagram) (v : Nat) : Diagram :=
  match d.levelOf[v]? with
  | none       => d
  | some start =>
    let (level, best, d) := siftDown (d.varCount - 1 - start) start ⟨d.rootedSize, start⟩ d
    let (_, best, d) := siftUp start level best d
    (d.moveVar v best.level).2

/-- The number of nodes that test a variable. -/
def population (d : Diagram) (v : Nat) : Nat :=
  d.nodes.foldl (fun n slot => if slot.any (fun m => m.var == v) then n + 1 else n) 0

/-- All variables, the most tested first. -/
def siftingOrder (d : Diagram) : List Nat :=
  let counted := (List.range d.varCount).map (fun v => (v, d.population v))
  (counted.mergeSort (fun a b => b.2 ≤ a.2)).map Prod.fst

/-- Sifts every variable once and gives the size reached. -/
def sift (d : Diagram) : Nat × Diagram :=
  if d.varCount < 2 then (d.rootedSize, d)
  else
    let (_, d) := d.collect
    let d := d.siftingOrder.foldl siftVar d
    let (_, d) := d.collect
    (d.rootedSize, d)

end Diagram
end Credence
