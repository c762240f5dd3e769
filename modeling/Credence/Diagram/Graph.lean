import Credence.Diagram.Ite
import Credence.Error
/-!
# Decision graphs

A decision graph is any list of branches and ends in which branches point back.  It may test variables in any order,
again and again, and hold the same part twice.  `reduce` finds its function in a diagram.
-/
namespace Credence

inductive GraphNode where
  | terminal (value : Bool)
  | branch (var low high : Nat)
deriving DecidableEq

abbrev Graph := List GraphNode

namespace Graph

/-- The whole decision tree of a truth table from a variable on: `left` variables are still to be tested, and `row` has
the bits of those that were. -/
def tree (table : Array Bool) : Nat → Nat → Nat → Array GraphNode → Nat × Array GraphNode
  | 0,        _,   row, g => (g.size, g.push (.terminal (table.getD row false)))
  | left + 1, var, row, g =>
    let (low, g) := tree table left (var + 1) row g
    let (high, g) := tree table left (var + 1) (row + (1 <<< var)) g
    (g.size, g.push (.branch var low high))

/-- The tree of a truth table over `vars` variables, and its root.  Rows that the table lacks are false. -/
def ofTruthTable (vars : Nat) (table : Array Bool) : Graph × Nat :=
  let (root, g) := tree table vars 0 0 #[]
  (g.toList, root)

end Graph

namespace Diagram

/-- The function of a branch whose branches are `low` and `high`. -/
def branch (d : Diagram) (v : Nat) (low high : Handle) : Handle × Diagram :=
  let d := d.ensureVars (v + 1)
  let level := d.levelOf.getD v 0
  if low = high then (low, d)
  else if level < d.level low ∧ level < d.level high then d.make ⟨v, low, high⟩
  else
    let (x, d) := d.var v
    d.ite x high low

/-- The functions of the nodes of a graph, behind those in `done`. -/
def reduceNodes : Graph → Array Handle → Diagram → Except Error (Array Handle) × Diagram
  | [],                    done, d => (.ok done, d)
  | .terminal value :: ns, done, d => reduceNodes ns (done.push (.ofBool value)) d
  | .branch v l h :: ns,   done, d =>
    match done[l]?, done[h]? with
    | some low, some high =>
      let (f, d) := d.branch v low high
      reduceNodes ns (done.push f) d
    | _, _ => (.error (.fault ("decision node " ++ toString done.size ++ " points forward")), d)

/-- The function a graph computes from `root`. -/
def reduce (d : Diagram) (g : Graph) (root : Nat) : Except Error Handle × Diagram :=
  if g.length ≤ root then (.error (.fault ("no node " ++ toString root ++ " in decision graph")), d)
  else
    match reduceNodes (g.take (root + 1)) #[] d with
    | (.ok done, d) =>
      match done[root]? with
      | some f => (.ok f, d)
      | none   => (.error (.fault "decision graph root not reduced"), d)
    | (.error e, d) => (.error e, d)

end Diagram
end Credence
