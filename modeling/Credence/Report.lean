import Credence.Json.Writer
import Credence.Solver.Basic
/-!
# Reports

The probability of every answer to a query, with the effort it took, as lines for people or as a JSON object.
-/
namespace Credence

namespace ProofSet

variable {W : Type} [Weight W]

/-- The first head of each tag, with its tag and certain. -/
def headsFrom : List String → List (Clause W) → List (String × Literal W)
  | _,    []      => []
  | seen, c :: cs =>
    let tag := c.head.tag
    if seen.contains tag then headsFrom seen cs
    else (tag, { c.head with weight := 1 }) :: headsFrom (tag :: seen) cs

/-- The different answers that some proofs are proofs of. -/
def heads (s : ProofSet W) : List (String × Literal W) := headsFrom [] s.proofs

end ProofSet

structure Answer where
  literal     : String
  probability : Double

structure Report where
  query   : String
  answers : List Answer
  proofs  : Nat
  stats   : Stats

namespace Report

/-- Answers a query and sorts the answers by their tags. -/
def ofQuery (kb : KnowledgeBase Double) (settings : Settings) (digits : Option Nat) (query : Literal Double) :
    Except Run.Halt Report :=
  let (result, solver) := (Solver.new kb settings).proofs query
  result.map (fun set =>
    let e : Estimator Double := ⟨set, settings⟩
    let heads := set.heads.mergeSort (fun a b => a.1 ≤ b.1)
    ⟨query.text, heads.map (fun (tag, l) => ⟨tag, e.probability l digits⟩), set.proofs.length, solver.run.stats⟩)

/-! ## Rendering -/

def lines (r : Report) : List String :=
  let answers := r.answers.map (fun a => a.literal ++ ": " ++ Weight.text a.probability)
  ("% " ++ r.query ++ "?") :: (if answers.isEmpty then ["no"] else answers)

def statsJson (s : Stats) : String :=
  Json.object
    [("subgoals", toString s.subgoals), ("facts", toString s.facts), ("bloom_fast_path", toString s.bloomFastPath),
     ("primitives", toString s.primitives), ("primitive_failures", toString s.primitiveFailures),
     ("rules_grounded", toString s.rulesGrounded), ("unprovable", toString s.unprovable)]

def answerJson (a : Answer) : String :=
  Json.object [("literal", Json.quote a.literal), ("probability", Decimal.json a.probability.toFloat)]

def json (r : Report) : String :=
  Json.object
    [("query", Json.quote r.query), ("answers", Json.array (r.answers.map answerJson)),
     ("proofs", toString r.proofs), ("stats", statsJson r.stats)]

end Report
end Credence
