import Credence.Clause
import Std.Data.HashMap
import Std.Data.HashSet
/-!
# Tries of partial derivations

The rules of one goal part way through their bodies.  The path from the root to a node lists the literals resolved so
far, and derivations that agree on them share it.  A branch in which nothing is waited for any more is pruned; a
derivation that still holds one of its nodes brings it back.  A node's parent always has a smaller number, which bounds
every climb.
-/
namespace Credence

structure TrieNode (W : Type) where
  literal  : Option (Literal W)
  parent   : Option Nat
  children : Std.HashMap String Nat
  /-- The variants of the literals that derivations here wait for. -/
  waiting  : Std.HashSet String
  alive    : Bool

/-- What the parent of a node knows it by. -/
def TrieNode.key {W : Type} [Weight W] (n : TrieNode W) : String := (n.literal.map Literal.id).getD ""

structure Trie (W : Type) where
  nodes : Array (TrieNode W)

namespace Trie

variable {W : Type}

def root : Nat := 0

def empty : Trie W := ⟨#[⟨none, none, ∅, ∅, true⟩]⟩

def size (t : Trie W) : Nat := t.nodes.size

def liveNodes (t : Trie W) : Nat := (t.nodes.toList.filter TrieNode.alive).length

def modify (t : Trie W) (i : Nat) (f : TrieNode W → TrieNode W) : Trie W := ⟨t.nodes.modify i f⟩

def missing {α : Type} (i : Nat) : Except Error α := .error (.fault ("rule trie has no node " ++ toString i))

variable [Weight W]

/-- Brings a node and its pruned ancestors back, `climb` nodes at most. -/
def reviveWithin : Nat → Nat → Trie W → Except Error (Trie W)
  | 0,         _, t => .ok t
  | climb + 1, i, t =>
    match t.nodes[i]? with
    | none   => missing i
    | some n =>
      if n.alive then .ok t
      else
        let parent := n.parent.getD root
        let t := t.modify i (fun m => { m with alive := true })
        if parent < t.size then
          reviveWithin climb parent
            (t.modify parent (fun m => { m with children := m.children.insert n.key i }))
        else missing parent

def revive (t : Trie W) (i : Nat) : Except Error (Trie W) := reviveWithin (i + 1) i t

/-- The child of a node for one more resolved literal, made on first use. -/
def update (t : Trie W) (i : Nat) (resolved : Literal W) : Except Error (Nat × Trie W) := do
  let t ← t.revive i
  match t.nodes[i]? with
  | none   => missing i
  | some n =>
    match n.children[resolved.id]? with
    | some child => return (child, ← t.revive child)
    | none       =>
      let child := t.size
      let t : Trie W := ⟨t.nodes.push ⟨some resolved, some i, ∅, ∅, true⟩⟩
      return (child, t.modify i (fun m => { m with children := m.children.insert resolved.id child }))

/-- Notes that the derivation at a node waits for `next`. -/
def wait (t : Trie W) (i : Nat) (next : Literal W) : Except Error (Trie W) := do
  let t ← t.revive i
  if i < t.size then return t.modify i (fun m => { m with waiting := m.waiting.insert next.variant }) else missing i

/-- The literals from the root down to a node, in front of those in `below`. -/
def pathWithin : Nat → Option Nat → List (Literal W) → Trie W → Except Error (List (Literal W))
  | _,         none,   below, _ => .ok below
  | 0,         some _, below, _ => .ok below
  | climb + 1, some i, below, t =>
    match t.nodes[i]? with
    | none   => missing i
    | some n => pathWithin climb n.parent (n.literal.toList ++ below) t

/-- The grounded rule whose body is the path to a node. -/
def complete (t : Trie W) (i : Nat) (head : Literal W) : Except Error (Clause W) := do
  let body ← pathWithin (i + 1) (some i) [] t
  if body.isEmpty then throw (.fault ("empty derivation for `" ++ head.text ++ "`")) else return ⟨head, body⟩

/-! ## Pruning -/

/-- Prunes upwards from a node while nothing below or at it is left, and counts. -/
def pruneWithin : Nat → Nat → Trie W → Nat × Trie W
  | 0,         _, t => (0, t)
  | climb + 1, i, t =>
    match t.nodes[i]? with
    | none   => (0, t)
    | some n =>
      if i = root || !n.alive || !n.waiting.isEmpty || !n.children.isEmpty then (0, t)
      else
        let parent := n.parent.getD root
        let t := t.modify i (fun m => { m with alive := false })
        let t := t.modify parent (fun m => { m with children := m.children.erase n.key })
        let (count, t) := pruneWithin climb parent t
        (count + 1, t)

/-- Drops the wait at one node. -/
def stopWaiting (key : String) (state : Nat × Trie W) (i : Nat) : Nat × Trie W :=
  let t := state.2.modify i (fun m => { m with waiting := m.waiting.erase key })
  let (count, t) := pruneWithin (i + 1) i t
  (state.1 + count, t)

/-- Drops every wait for `l` and prunes what is left with nothing to wait for.  Gives the number of pruned nodes. -/
def cleanup (t : Trie W) (l : Literal W) : Nat × Trie W :=
  let key := l.variant
  let stale := (List.range t.size).filter (fun i => (t.nodes[i]?).any (fun n => n.waiting.contains key))
  stale.foldl (stopWaiting key) (0, t)

end Trie
end Credence
