import Credence.Solver.Run
/-!
# Solvers

A solver answers queries over one knowledge base, one at a time.  Each query has a table of its own; only the numbers of
variables go on from query to query.
-/
namespace Credence

structure Solver (W : Type) where
  kb            : KnowledgeBase W
  settings      : Settings
  storeCapacity : Option Nat
  /-- How many steps a query may take. -/
  patience      : Nat
  /-- The latest run. -/
  run           : Run W

namespace Solver

variable {W : Type}

/-- More steps than any query that ends is given time for. -/
def manySteps : Nat := 1 <<< 60

def new (kb : KnowledgeBase W) (settings : Settings) : Solver W := ⟨kb, settings, none, manySteps, .start .empty⟩

variable [Weight W]

/-- Works a query off from an empty table. -/
def start (s : Solver W) (query : Literal W) (maxSamples : Option Nat) : Except Run.Halt Unit × Solver W :=
  if query.isNegated && !query.isSemiGrounded then (.error (.refused (.openNegation query.text)), s)
  else
    let (l, pool) := query.shuffle s.run.pool
    let q : Query W := ⟨s.kb, s.settings, s.storeCapacity, maxSamples⟩
    let (goal, _, r) := (Run.start pool).goalFor q l
    let (result, r) := Run.execute q s.patience [.search goal] r
    (result, { s with run := r })

/-- The answers to a query in the order they were found, or the first of them when that is enough. -/
def solve (s : Solver W) (query : Literal W) (maxSamples : Option Nat) :
    Except Run.Halt (List (Clause W)) × Solver W :=
  let (result, s) := s.start query (maxSamples <|> s.settings.maxSamples)
  (result.map (fun _ => s.run.table.facts 0), s)

/-- What the latest run has established. -/
def snapshot (s : Solver W) : Snapshot W := s.run.table.snapshot

/-- The proofs of all answers to a query. -/
def proofs (s : Solver W) (query : Literal W) : Except Run.Halt (ProofSet W) × Solver W :=
  let (result, s) := s.start query none
  let prove (_ : Unit) : ProofSet W :=
    (Prover.ofSnapshot s.snapshot s.settings.pruneCertain).proofSet ((s.run.table.facts 0).map Clause.head)
  (result.map prove, s)

end Solver
end Credence
