import Credence.Diagram.Ite
import Credence.Diagram.Sift
import Credence.Proof.ProofSet
import Credence.Settings
/-!
# Estimating probabilities

The proofs of a literal are compiled into a decision diagram: a proof is the conjunction of its uncertain literals, the
literal the disjunction of its proofs, and a negation the complement of what it negates.  Literals with the same id are
one variable.  The weighted count of the diagram is the probability.
-/
namespace Credence

/-- A function with the literals its variables stand for. -/
structure Compiled (W : Type) where
  diagram : Diagram
  root    : Handle
  weights : Array W
  /-- The literal ids of the variables. -/
  labels  : Array String

def Compiled.probability {W : Type} [Weight W] (c : Compiled W) : W :=
  c.diagram.probability c.root (fun v => c.weights.getD v 1)

/-- A diagram under construction. -/
structure Compiler (W : Type) where
  diagram   : Diagram
  weights   : Array W
  labels    : Array String
  vars      : Std.HashMap String Nat
  /-- The functions of negations that are finished. -/
  negations : Std.HashMap String Handle

namespace Compiler

variable {W : Type} [Weight W]

def start (s : Settings) : Compiler W := ⟨.empty s.cacheCapacity s.siftingGrowth, #[], #[], ∅, ∅⟩

/-- The variable of a literal, new on its first occurrence. -/
def var (c : Compiler W) (l : Literal W) : Handle × Compiler W :=
  let id := l.id
  match c.vars[id]? with
  | some v =>
    let (f, d) := c.diagram.var v
    (f, { c with diagram := d })
  | none   =>
    let v := c.weights.size
    let (f, d) := c.diagram.var v
    (f, { c with
          diagram := d
          weights := c.weights.push l.weight
          labels := c.labels.push id
          vars := c.vars.insert id v })

/-- The functions of the literals of a body that are not simply true, given how to compile a negation. -/
def conjuncts (negation : Literal W → Compiler W → Handle × Compiler W) :
    Body W → Compiler W → List Handle × Compiler W
  | [],      c => ([], c)
  | l :: ls, c =>
    if l.isNegated then
      let (f, c) := negation l c
      let (fs, c) := conjuncts negation ls c
      (f :: fs, c)
    else if l.isCertain then conjuncts negation ls c
    else
      let (f, c) := c.var l
      let (fs, c) := conjuncts negation ls c
      (f :: fs, c)

def disjuncts (negation : Literal W → Compiler W → Handle × Compiler W) :
    List (Clause W) → Compiler W → List Handle × Compiler W
  | [],      c => ([], c)
  | p :: ps, c =>
    let (fs, c) := conjuncts negation p.body c
    let (f, d) := c.diagram.andAll fs
    let (rest, c) := disjuncts negation ps { c with diagram := d }
    (f :: rest, c)

/-- The disjunction of some proofs. -/
def disjunction (negation : Literal W → Compiler W → Handle × Compiler W) (proofs : List (Clause W))
    (c : Compiler W) : Handle × Compiler W :=
  let (fs, c) := disjuncts negation proofs c
  let (f, d) := c.diagram.orAll fs
  (f, { c with diagram := d })

/-- The function of a negation.  One without recorded proofs is true when it is certain and a variable otherwise; so is
one met again inside itself, which `pending` shows.  No more negations can be nested than are recorded, so `fuel` beyond
their number is never used up. -/
def negation (set : ProofSet W) : Nat → List String → Literal W → Compiler W → Handle × Compiler W
  | 0,        _,       leaf, c => c.var leaf
  | fuel + 1, pending, leaf, c =>
    let id := leaf.id
    match c.negations[id]?, set.negation? leaf with
    | some f, _         => (f, c)
    | none,   none      => if leaf.isCertain then (.top, c) else c.var leaf
    | none,   some base =>
      if pending.contains id then c.var leaf
      else
        let (holds, c) := disjunction (negation set fuel (id :: pending)) base c
        let (f, d) := c.diagram.not holds
        (f, { c with diagram := d, negations := c.negations.insert id f })

end Compiler

/-- Proofs to estimate from, and how. -/
structure Estimator (W : Type) where
  set      : ProofSet W
  settings : Settings

namespace Estimator

variable {W : Type} [Weight W]

/-- The proofs of whatever unifies with a literal. -/
def proofsFor (e : Estimator W) (l : Literal W) : List (Clause W) :=
  e.set.proofs.filter (fun p => l.isRelevant p.head && (l.unify p.head).isSome)

def compile (e : Estimator W) (l : Literal W) : Compiled W :=
  let negation := Compiler.negation e.set (e.set.negations.size + 1) []
  let (root, c) := Compiler.disjunction negation (e.proofsFor l) (.start e.settings)
  let d :=
    if e.settings.siftBeforeCount && !root.isTerminal then (c.diagram.reference root).sift.2 else c.diagram
  ⟨d, root, c.weights, c.labels⟩

/-- The probability of a literal, rounded when a number of decimals is given. -/
def probability (e : Estimator W) (l : Literal W) (digits : Option Nat) : W :=
  let p := (e.compile l).probability
  match digits with
  | some n => Weight.round n p
  | none   => p

end Estimator
end Credence
