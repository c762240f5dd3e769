import Credence.Diagram.Basic
import Credence.Weight
import Std.Data.HashSet
/-!
# What a diagram computes

The value of a function under an assignment, its truth table, its weighted count, and the nodes it consists of.
-/
namespace Credence
namespace Diagram

/-- Follows at most `steps` nodes. -/
def evalWithin (d : Diagram) (a : Nat → Bool) : Nat → Handle → Bool
  | 0,         f => f = .top
  | steps + 1, f =>
    match d.node? f with
    | none   => f = .top
    | some n => evalWithin d a steps (if a n.var then n.high else n.low)

/-- The value of `f` where `a` says which variables are true. -/
def eval (d : Diagram) (f : Handle) (a : Nat → Bool) : Bool := d.evalWithin a (d.varCount + 1) f

/-- The values over all assignments of the first `vars` variables.  A row's number is a word of 64 bits, and its bit `i`
is the value of variable `i`; beyond the last bit the variables start over with the first one. -/
def truthTable (d : Diagram) (f : Handle) (vars : Nat) : List Bool :=
  (List.range (1 <<< (vars % 64))).map (fun row => d.eval f (fun v => row.testBit (v % 64)))

/-! ## Weighted count -/

variable {W : Type} [Weight W]

/-- The chance that `f` is true, when each variable is true with its weight and independently of the others. -/
def countWithin (d : Diagram) (weight : Nat → W) :
    Nat → Std.HashMap Handle W → Handle → W × Std.HashMap Handle W
  | depth, memo, f =>
    match d.node? f, depth with
    | none,   _         => (if f = .top then 1 else 0, memo)
    | some _, 0         => (0, memo)
    | some n, depth + 1 =>
      match memo[f]? with
      | some p => (p, memo)
      | none   =>
        let w := weight n.var
        let (high, memo) := countWithin d weight depth memo n.high
        let (low, memo) := countWithin d weight depth memo n.low
        let p := w * high + (1 - w) * low
        (p, memo.insert f p)

def probability (d : Diagram) (f : Handle) (weight : Nat → W) : W :=
  (d.countWithin weight (d.varCount + 1) ∅ f).1

/-! ## Nodes of a function -/

/-- Adds the nodes of `f` to those found before. -/
def reachFrom (d : Diagram) : Nat → Std.HashSet Handle → Handle → Std.HashSet Handle
  | 0,         seen, _ => seen
  | depth + 1, seen, f =>
    match d.node? f with
    | none   => seen
    | some n =>
      if seen.contains f then seen
      else reachFrom d depth (reachFrom d depth (seen.insert f) n.low) n.high

/-- The nodes reachable from some functions. -/
def reachable (d : Diagram) (roots : List Handle) : Std.HashSet Handle :=
  roots.foldl (d.reachFrom (d.varCount + 1)) ∅

def size (d : Diagram) (f : Handle) : Nat := (d.reachable [f]).size

/-- The functions that are to be kept. -/
def roots (d : Diagram) : List Handle := d.refs.map Prod.fst

def rootedSize (d : Diagram) : Nat := (d.reachable d.roots).size

/-- The nodes of `f` in preorder, low branches first, behind those in `found`. -/
def preorderFrom (d : Diagram) : Nat → List (Handle × Node) → Handle → List (Handle × Node)
  | 0,         found, _ => found
  | depth + 1, found, f =>
    match d.node? f with
    | none   => found
    | some n =>
      if found.any (fun p => p.1 == f) then found
      else preorderFrom d depth (preorderFrom d depth (found ++ [(f, n)]) n.low) n.high

def preorder (d : Diagram) (f : Handle) : List (Handle × Node) := d.preorderFrom (d.varCount + 1) [] f

end Diagram
end Credence
