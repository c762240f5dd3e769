import Credence.Program
import Std.Data.HashSet
/-!
# Knowledge bases

Facts and rules by the predicate of their head.  A clause is checked before it is kept, and kept once.  A rule whose
head carries a weight below one is kept as a certain rule with a literal of its own at the end of its body, and a fact
gives that literal the weight.
-/
namespace Credence

/-- Clauses by predicate, both in order of arrival. -/
structure Shelf (W : Type) where
  entries : List (Predicate × List (Clause W))

namespace Shelf

variable {W : Type}

def empty : Shelf W := ⟨[]⟩

def get (s : Shelf W) (p : Predicate) : List (Clause W) := (s.entries.lookup p).getD []

def predicates (s : Shelf W) : List Predicate := s.entries.map Prod.fst

def clauses (s : Shelf W) : List (Clause W) := s.entries.flatMap Prod.snd

def size (s : Shelf W) : Nat := s.clauses.length

def pushEntry (c : Clause W) : List (Predicate × List (Clause W)) → List (Predicate × List (Clause W))
  | []            => [(c.head.predicate, [c])]
  | (p, cs) :: es => if p = c.head.predicate then (p, cs ++ [c]) :: es else (p, cs) :: pushEntry c es

/-- Puts a clause behind the others of its predicate. -/
def push (s : Shelf W) (c : Clause W) : Shelf W := ⟨pushEntry c s.entries⟩

/-- Puts a clause in the place of the `i`-th of a predicate. -/
def set (s : Shelf W) (p : Predicate) (i : Nat) (c : Clause W) : Shelf W :=
  ⟨s.entries.map (fun e => if e.1 = p then (e.1, e.2.set i c) else e)⟩

end Shelf

structure KnowledgeBase (W : Type) where
  registry    : Registry
  facts       : Shelf W
  rules       : Shelf W
  /-- The keys of all clauses that count as known. -/
  seen        : Std.HashSet (Nat × String)
  /-- The number of the next rule weight. -/
  nextWeight  : Nat
  pool        : VarPool

namespace KnowledgeBase

variable {W : Type}

def empty (registry : Registry) : KnowledgeBase W := ⟨registry, .empty, .empty, ∅, 0, .empty⟩

/-- What the name of a rule weight starts with. -/
def weightMark : String := "proba_"

/-! ## Looking clauses up -/

/-- The facts that may unify with a literal. -/
def factsFor (kb : KnowledgeBase W) (l : Literal W) : List (Clause W) :=
  (kb.facts.get l.predicate).filter (fun c => l.isRelevant c.head)

/-- The rules whose head may unify with a literal. -/
def rulesFor (kb : KnowledgeBase W) (l : Literal W) : List (Clause W) :=
  (kb.rules.get l.predicate).filter (fun c => l.isRelevant c.head)

def size (kb : KnowledgeBase W) : Nat := kb.facts.size + kb.rules.size

/-- All predicates with clauses, sorted. -/
def predicates (kb : KnowledgeBase W) : List Predicate :=
  (kb.facts.predicates ++ kb.rules.predicates).eraseDups.mergeSort Predicate.precedes

/-! ## Adding clauses -/

variable [Weight W]

/-- Keeps a fact that is not known yet. -/
def storeFact (kb : KnowledgeBase W) (c : Clause W) : Bool × KnowledgeBase W :=
  if kb.seen.contains c.key then (false, kb)
  else (true, { kb with seen := kb.seen.insert c.key, facts := kb.facts.push c })

def storeRule (kb : KnowledgeBase W) (c : Clause W) : KnowledgeBase W :=
  { kb with seen := kb.seen.insert c.key, rules := kb.rules.push c }

/-- The literal that carries the weight of the next weighted rule. -/
def weightLiteral (kb : KnowledgeBase W) (weight : W) : Literal W :=
  ⟨weight, ⟨weightMark ++ toString kb.nextWeight, 1⟩, [.const ⟨"true"⟩]⟩

/-- Keeps a rule that is not known yet, with its weight apart. -/
def keepRule (kb : KnowledgeBase W) (c : Clause W) : Bool × KnowledgeBase W :=
  if kb.seen.contains c.key then (false, kb)
  else
    let kb := { kb with seen := kb.seen.insert c.key }
    if c.head.isCertain then (true, kb.storeRule c)
    else
      let fact := kb.weightLiteral c.head.weight
      let condition := kb.weightLiteral 1
      let kb := { kb with nextWeight := kb.nextWeight + 1 }
      let (_, kb) := kb.storeFact (.fact fact)
      (true, kb.storeRule ⟨{ c.head with weight := 1 }, c.body ++ [condition]⟩)

/-- What is wrong with a clause apart from the variables of a rule. -/
def refusal (c : Clause W) : Option Error :=
  if c.head.isNegated then some (.negatedHead c.text)
  else if !Weight.isProper c.head.weight then some (.improperWeight (Weight.text c.head.weight) c.text)
  else
    match c.body.find? (fun l => !l.isCertain) with
    | some l => some (.weightedBody l.text)
    | none   => if c.body.isEmpty && !c.head.isGrounded then some (.openFact c.text) else none

/-- Adds a clause, and says whether it was new.  A clause about a primitive is passed over. -/
def tell (kb : KnowledgeBase W) (c : Clause W) : Except Error (Bool × KnowledgeBase W) :=
  if c.head.isPrimitive then .ok (false, kb)
  else
    match refusal c with
    | some e => .error e
    | none   =>
      if c.body.isEmpty then .ok (kb.storeFact c)
      else do
        c.checkRule kb.registry
        return kb.keepRule (← c.reorder kb.registry)

/-- Adds clauses up to the first that is refused, and counts the new ones. -/
def tellAll (kb : KnowledgeBase W) : List (Clause W) → Except Error Nat × KnowledgeBase W
  | []      => (.ok 0, kb)
  | c :: cs =>
    match kb.tell c with
    | .error e        => (.error e, kb)
    | .ok (isNew, kb) =>
      match kb.tellAll cs with
      | (.ok n, kb)    => (.ok (if isNew then n + 1 else n), kb)
      | (.error e, kb) => (.error e, kb)

/-- Adds the clauses of a text and gives its queries. -/
def load (kb : KnowledgeBase W) (text : String) : Except Error (List (Literal W)) × KnowledgeBase W :=
  match Program.read kb.registry text with
  | .error e => (.error e, kb)
  | .ok p    =>
    match kb.tellAll p.clauses with
    | (.error e, kb) => (.error e, kb)
    | (.ok _, kb)    => (.ok p.queries, kb)

end KnowledgeBase
end Credence
