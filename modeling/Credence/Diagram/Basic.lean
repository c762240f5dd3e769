import Credence.Diagram.Cache
/-!
# Ordered decision diagrams

A table of decision nodes shared by all functions built in it.  A node tests a variable and goes on to its low or its
high branch; along every path variables come in the one order the diagram has at the time.  No node has equal branches
and no two nodes are equal, so two handles name the same function exactly when they are equal.
-/
namespace Credence

structure Node where
  var  : Nat
  low  : Handle
  high : Handle
deriving DecidableEq, Hashable

structure Diagram where
  /-- The node in each slot; the two terminals and the free slots hold none. -/
  nodes   : Array (Option Node)
  /-- Slots to use again, the next one first. -/
  free    : List Nat
  unique  : Std.HashMap Node Handle
  /-- The level of each variable, the top one first. -/
  levelOf : Array Nat
  /-- The variable at each level. -/
  varAt   : Array Nat
  /-- Functions to be kept, and how often that was asked for. -/
  refs    : List (Handle × Nat)
  cache   : Cache
  growth  : Float

namespace Diagram

def empty (cacheCapacity : Nat) (growth : Float) : Diagram :=
  { nodes := #[none, none]
    free := []
    unique := ∅
    levelOf := #[]
    varAt := #[]
    refs := []
    cache := .empty cacheCapacity
    growth := growth }

/-! ## Looking at nodes -/

def node? (d : Diagram) (f : Handle) : Option Node := d.nodes.getD f.index none

def varCount (d : Diagram) : Nat := d.levelOf.size

/-- Nodes in the table, used or not. -/
def liveNodes (d : Diagram) : Nat := d.unique.size

/-- The level of the variable a function tests first; the terminals lie below all variables. -/
def level (d : Diagram) (f : Handle) : Nat :=
  match d.node? f with
  | some n => d.levelOf.getD n.var 0
  | none   => d.varCount

def low (d : Diagram) (f : Handle) : Handle :=
  match d.node? f with
  | some n => n.low
  | none   => .bot

def high (d : Diagram) (f : Handle) : Handle :=
  match d.node? f with
  | some n => n.high
  | none   => .bot

/-- What is left of `f` when `v` is false, and when it is true, for a variable not below its first. -/
def cofactors (d : Diagram) (f : Handle) (v : Nat) : Handle × Handle :=
  match d.node? f with
  | some n => if n.var = v then (n.low, n.high) else (f, f)
  | none   => (f, f)

/-! ## Making nodes -/

/-- The node with these branches: the one there is, or a new one in a free slot. -/
def make (d : Diagram) (n : Node) : Handle × Diagram :=
  if n.low = n.high then (n.low, d)
  else
    match d.unique[n]? with
    | some f => (f, d)
    | none   =>
      match d.free with
      | slot :: rest =>
        (⟨slot⟩,
          { d with
            nodes := d.nodes.setIfInBounds slot (some n)
            free := rest
            unique := d.unique.insert n ⟨slot⟩ })
      | [] =>
        let f : Handle := ⟨d.nodes.size⟩
        (f, { d with nodes := d.nodes.push (some n), unique := d.unique.insert n f })

/-- Adds variables below the others until there are `count`. -/
def ensureVars (d : Diagram) (count : Nat) : Diagram :=
  let new := List.range' d.varCount (count - d.varCount)
  { d with levelOf := new.foldl Array.push d.levelOf, varAt := new.foldl Array.push d.varAt }

/-- The function that is variable `v`. -/
def var (d : Diagram) (v : Nat) : Handle × Diagram := (d.ensureVars (v + 1)).make ⟨v, .bot, .top⟩

/-- A variable not used so far. -/
def newVar (d : Diagram) : Handle × Diagram := d.var d.varCount

end Diagram
end Credence
