import Credence.Bloom
import Credence.Proof.Snapshot
import Credence.Store
import Credence.Trie
/-!
# Tables

What a run knows about each goal, up to the names of variables: the facts found for it, the derivations that wait for
more of them, and the rules completed on the way.
-/
namespace Credence

/-- A rule part way through its body: what is left of it, and the place in the trie of what was resolved. -/
structure Derivation (W : Type) where
  rule : Clause W
  node : Nat

def Derivation.start {W : Type} (rule : Clause W) : Derivation W := ⟨rule, Trie.root⟩

/-- A derivation of a goal that waits for facts of another. -/
structure Waiter (W : Type) where
  goal       : Nat
  derivation : Derivation W

structure Subgoal (W : Type) where
  literal      : Literal W
  store        : Store W
  bloom        : Bloom
  /-- The ids of the facts that were asserted. -/
  asserted     : Std.HashSet String
  waiters      : Array (Waiter W)
  trie         : Trie W
  grounded     : Array (Clause W)
  groundedKeys : Std.HashSet (Nat × String)
  unprovable   : Bool
  /-- Takes no more facts. -/
  capped       : Bool

namespace Subgoal

variable {W : Type}

def new (l : Literal W) (store : Store W) (bloom : Bloom) : Subgoal W :=
  ⟨l, store, bloom, ∅, #[], .empty, #[], ∅, false, false⟩

def facts (g : Subgoal W) : List (Clause W) := g.store.toList

def factCount (g : Subgoal W) : Nat := g.store.size

def wait (g : Subgoal W) (w : Waiter W) : Subgoal W := { g with waiters := g.waiters.push w }

variable [Weight W]

/-- Adds a fact.  None when it was known or found no room; otherwise whether the filter alone showed that it is new. -/
def addFact (g : Subgoal W) (fact : Clause W) (origin : Origin) : Option (Bool × Subgoal W) :=
  let print := fact.fingerprint
  let fast := !g.bloom.mightContain print
  if !fast && g.store.contains fact then none
  else
    match g.store.add fact with
    | (false, _)    => none
    | (true, store) =>
      some (fast,
        { g with
          store := store
          bloom := g.bloom.insert print
          asserted := if origin = .asserted then g.asserted.insert fact.head.id else g.asserted })

def isAsserted (g : Subgoal W) (l : Literal W) : Bool := g.asserted.contains l.id

/-- Records a completed rule, and says whether it is new. -/
def record (g : Subgoal W) (rule : Clause W) : Bool × Subgoal W :=
  let key := rule.key
  if g.groundedKeys.contains key then (false, g)
  else (true, { g with grounded := g.grounded.push rule, groundedKeys := g.groundedKeys.insert key })

end Subgoal

/-- The goals of a run; the first is the query's. -/
structure Table (W : Type) where
  goals     : Array (Subgoal W)
  /-- Goals by their variant. -/
  index     : Std.HashMap String Nat
  /-- Weighted negations by their id, with the facts each stands against. -/
  negations : Std.HashMap String (Literal W × List (Literal W))

namespace Table

variable {W : Type}

def empty : Table W := ⟨#[], ∅, ∅⟩

def goal? (t : Table W) (i : Nat) : Option (Subgoal W) := t.goals[i]?

def modify (t : Table W) (i : Nat) (f : Subgoal W → Subgoal W) : Table W := { t with goals := t.goals.modify i f }

def facts (t : Table W) (i : Nat) : List (Clause W) := ((t.goal? i).map Subgoal.facts).getD []

variable [Weight W]

def addGoal (s : Snapshot W) (g : Subgoal W) : Snapshot W :=
  let s := g.facts.foldl (fun s f => s.addFact f.head (if g.isAsserted f.head then .asserted else .derived)) s
  g.grounded.foldl Snapshot.addRule s

/-- What the table has established so far. -/
def snapshot (t : Table W) : Snapshot W :=
  let s := t.goals.foldl addGoal Snapshot.empty
  t.negations.toList.foldl (fun s (_, leaf, bases) => s.addNegation leaf bases) s

end Table
end Credence
