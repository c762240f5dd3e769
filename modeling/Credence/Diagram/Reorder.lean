import Credence.Diagram.Collect
import Credence.Error
/-!
# Changing the order of variables

Two neighbouring variables change places when the nodes of the upper one that test the lower one are turned over, each
in its own slot.  Handles keep their functions.  Everything else is made of such exchanges.
-/
namespace Credence
namespace Diagram

/-- The slots of nodes of `x` with a branch that tests `y`, in order. -/
def crossing (d : Diagram) (x y : Nat) : List Nat :=
  let tests (f : Handle) : Bool := (d.node? f).any (fun n => n.var == y)
  (List.range d.nodes.size).filter (fun slot =>
    (d.node? ⟨slot⟩).any (fun n => n.var == x && (tests n.low || tests n.high)))

/-- Turns a node that tests `x` before `y` into one that tests `y` before `x`. -/
def rotate (x y : Nat) (d : Diagram) (slot : Nat) : Diagram :=
  match d.node? ⟨slot⟩ with
  | none   => d
  | some n =>
    let (f00, f01) := d.cofactors n.low y
    let (f10, f11) := d.cofactors n.high y
    let (low, d) := d.make ⟨x, f00, f10⟩
    let (high, d) := d.make ⟨x, f01, f11⟩
    let m : Node := ⟨y, low, high⟩
    { d with nodes := d.nodes.setIfInBounds slot (some m), unique := (d.unique.erase n).insert m ⟨slot⟩ }

/-- Exchanges the variables at `level` and the one below it; at the lowest level nothing happens. -/
def exchange (d : Diagram) (level : Nat) : Diagram :=
  match d.varAt[level]?, d.varAt[level + 1]? with
  | some x, some y =>
    let d := (d.crossing x y).foldl (rotate x y) d
    { d with
      varAt := (d.varAt.setIfInBounds level y).setIfInBounds (level + 1) x
      levelOf := (d.levelOf.setIfInBounds x (level + 1)).setIfInBounds y level }
  | _, _ => d

/-- An exchange at a level that has one below it. -/
def swap (d : Diagram) (level : Nat) : Except Error Diagram :=
  if level + 1 < d.varAt.size then .ok (d.exchange level)
  else
    .error (.fault ("cannot swap level " ++ toString level ++ " of " ++ toString d.varAt.size ++ " variables"))

/-- Moves the variable at a level down by a number of levels, as far as there are any. -/
def moveDown : Nat → Nat → Diagram → Except Error Unit × Diagram
  | 0,         _,     d => (.ok (), d)
  | count + 1, level, d =>
    match d.swap level with
    | .ok d    => moveDown count (level + 1) d
    | .error e => (.error e, d)

def moveUp : Nat → Nat → Diagram → Diagram
  | 0,         _,     d => d
  | count + 1, level, d => moveUp count (level - 1) (d.exchange (level - 1))

/-- Moves a variable to a level.  Exchanges made before the lowest level was passed stay made. -/
def moveVar (d : Diagram) (v target : Nat) : Except Error Unit × Diagram :=
  match d.levelOf[v]? with
  | none      => (.error (.fault ("unknown variable " ++ toString v)), d)
  | some here =>
    if here ≤ target then moveDown (target - here) here d else (.ok (), moveUp (here - target) here d)

end Diagram
end Credence
