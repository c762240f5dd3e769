import Credence.Proof.Expand
/-!
# Proof sets

The proofs of some targets, and for every negation they rest on the proofs of what it negates.
-/
namespace Credence

structure ProofSet (W : Type) where
  proofs    : List (Clause W)
  /-- The proofs behind each negation, by its id. -/
  negations : Std.HashMap String (List (Clause W))

namespace ProofSet

variable {W : Type}

def ofProofs (proofs : List (Clause W)) : ProofSet W := ⟨proofs, ∅⟩

/-- The negations some proofs rest on. -/
def negationLeaves (proofs : List (Clause W)) : List (Literal W) :=
  proofs.flatMap (fun c => c.body.filter Literal.isNegated)

variable [Weight W]

/-- The proofs behind a negation, if they are recorded. -/
def negation? (s : ProofSet W) (leaf : Literal W) : Option (List (Clause W)) := s.negations[leaf.id]?

end ProofSet

namespace Prover

variable {W : Type} [Weight W]

/-- The clauses without repetitions; `seen` holds the keys of those before. -/
def distinctClauses : Std.HashSet (Nat × String) → List (Clause W) → List (Clause W)
  | _,    []      => []
  | seen, c :: cs =>
    let key := c.key
    if seen.contains key then distinctClauses seen cs else c :: distinctClauses (seen.insert key) cs

/-- The proofs of several targets, each once. -/
def proofsOf (p : Prover W) (targets : List (Literal W)) : List (Clause W) :=
  distinctClauses ∅ (targets.flatMap p.proofs)

/-- Proves what the pending negations negate, and so on for the negations met there.  `fuel` bounds the number of
different negations. -/
def closeNegations (p : Prover W) (fuel : Nat) (pending : List (Literal W))
    (known : Std.HashMap String (List (Clause W))) : Std.HashMap String (List (Clause W)) :=
  match pending with
  | []           => known
  | leaf :: rest =>
    if known.contains leaf.id then closeNegations p fuel rest known
    else
      match fuel with
      | 0        => known
      | fuel + 1 =>
        let base := p.proofsOf (p.snapshot.negationBases leaf)
        closeNegations p fuel (ProofSet.negationLeaves base ++ rest) (known.insert leaf.id base)
termination_by (fuel, pending.length)

/-- More than the number of literals that can be a leaf of some proof. -/
def leafBound (p : Prover W) (targets : List (Literal W)) : Nat :=
  targets.length + (p.snapshot.rules.toList.flatMap Clause.body).length +
    (p.snapshot.negations.toList.flatMap Prod.snd).length + 1

def proofSet (p : Prover W) (targets : List (Literal W)) : ProofSet W :=
  let proofs := p.proofsOf targets
  ⟨proofs, p.closeNegations (p.leafBound targets) (ProofSet.negationLeaves proofs) ∅⟩

end Prover
end Credence
