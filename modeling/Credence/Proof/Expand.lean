import Credence.KnowledgeBase.Basic
import Credence.Proof.Snapshot
/-!
# Explicit proofs

A proof of a target is a clause with the target as its head and, as its body, the leaves one derivation rests on.
Proofs are found by expanding grounded rules until only leaves are left.  A derivation that comes back to a literal it
is already expanding is cut there; what was found below such a cut may be incomplete, and is remembered only when the
cut was not above it.
-/
namespace Credence

/-- A body, and the alternatives to it. -/
abbrev Body (W : Type) := List (Literal W)

structure GroundRule (W : Type) where
  body     : Body W
  /-- No body literal is the head of a rule. -/
  leafOnly : Bool

structure Prover (W : Type) where
  snapshot : Snapshot W
  /-- The grounded rules by the id of their head. -/
  rules    : Std.HashMap String (List (GroundRule W))
  prune    : Bool

namespace Prover

variable {W : Type} [Weight W]

/-! ## Rule instances

The weight of a rule is drawn once for each grounded instance, so its weight literal gets the number of the instance as
one more argument.  Instances are numbered in the order of their texts. -/

def isRuleWeight (l : Literal W) : Bool := !l.isNegated && Text.startsWith KnowledgeBase.weightMark l.name

/-- The body of an instance with its weight literals marked. -/
def markInstance (number : Nat) (body : Body W) : Body W :=
  body.map (fun l => if isRuleWeight l then l.extend (.const ⟨"r" ++ toString number⟩) else l)

/-- The rules in their own order, each with its place in the order of texts. -/
def numberRules (rules : List (Clause W)) : List (Clause W × Nat) :=
  let byText := (rules.zipIdx.map (fun (c, i) => (c.text, c, i))).mergeSort (fun a b => a.1 ≤ b.1)
  let placed := byText.zipIdx.map (fun ((_, c, i), n) => (i, c, n))
  (placed.mergeSort (fun a b => a.1 ≤ b.1)).map (fun (_, c, n) => (c, n))

def addRule (heads : Std.HashSet String) (table : Std.HashMap String (List (GroundRule W))) (rule : Clause W × Nat) :
    Std.HashMap String (List (GroundRule W)) :=
  let (c, n) := rule
  let ground : GroundRule W := ⟨markInstance n c.body, c.body.all (fun l => !heads.contains l.id)⟩
  table.insert c.head.id (table.getD c.head.id [] ++ [ground])

def ofSnapshot (s : Snapshot W) (prune : Bool) : Prover W :=
  let rules := s.rules.toList
  let heads : Std.HashSet String := Std.HashSet.ofList (rules.map (fun c => c.head.id))
  ⟨s, (numberRules rules).foldl (addRule heads) ∅, prune⟩

/-! ## Alternatives -/

/-- Every first part with every second part. -/
def combine (firsts seconds : List (Body W)) : List (Body W) :=
  firsts.flatMap (fun p => seconds.map (fun q => p ++ q))

/-- Drops a literal that follows one with the same id. -/
def dropRepeats : List (String × Literal W) → List (String × Literal W)
  | a :: b :: rest => if a.1 = b.1 then dropRepeats (a :: rest) else a :: dropRepeats (b :: rest)
  | rest           => rest
termination_by l => l.length

/-- The literals of a body with their ids, sorted and each once. -/
def canonical (body : Body W) : List (String × Literal W) :=
  dropRepeats ((body.map (fun l => (l.id, l))).mergeSort (fun a b => a.1 ≤ b.1))

/-- Canonical bodies, each once; `seen` holds the ids of those before. -/
def distinct : List (List String) → List (Body W) → List (Body W)
  | _,    []      => []
  | seen, b :: bs =>
    let pairs := canonical b
    let key := pairs.map Prod.fst
    if seen.contains key then distinct seen bs else pairs.map Prod.snd :: distinct (key :: seen) bs

def isCertainBody (b : Body W) : Bool := b.all Literal.isCertain

/-- The length of the shortest body of certain literals. -/
def shortestCertain (bs : List (Body W)) : Option Nat := ((bs.filter isCertainBody).map List.length).min?

/-- Of the bodies of certain literals keeps the first of the shortest; all of them say the same. -/
def pruneTo (length : Nat) : List (Body W) → List (Body W)
  | []      => []
  | b :: bs =>
    if isCertainBody b then
      if b.length = length then b :: bs.filter (fun c => !isCertainBody c) else pruneTo length bs
    else b :: pruneTo length bs

def normalize (prune : Bool) (bs : List (Body W)) : List (Body W) :=
  let bs := distinct [] bs
  match prune, shortestCertain bs with
  | true, some n => pruneTo n bs
  | _,    _      => bs

/-! ## Expansion -/

/-- Alternatives for literals that are settled. -/
abbrev Memo (W : Type) := Std.HashMap String (List (Body W))

/-- Alternatives, with the smallest depth at which something below was cut, if anything was. -/
structure Expansion (W : Type) where
  bodies : List (Body W)
  cut    : Option Nat

def minCut : Option Nat → Option Nat → Option Nat
  | some a, some b => some (min a b)
  | some a, none   => some a
  | none,   b      => b

/-- Expands a body from the left, given how to expand a literal.  A literal without alternatives ends it. -/
def expandBody (expand : Literal W → Memo W → Expansion W × Memo W) :
    List (Literal W) → Expansion W → Memo W → Expansion W × Memo W
  | [],      sofar, memo => (sofar, memo)
  | l :: ls, sofar, memo =>
    let (sub, memo) := expand l memo
    let cut := minCut sofar.cut sub.cut
    if sub.bodies.isEmpty then (⟨[], cut⟩, memo)
    else expandBody expand ls ⟨combine sofar.bodies sub.bodies, cut⟩ memo

/-- Adds what the rules of a literal give to the alternatives so far. -/
def expandRules (expand : Literal W → Memo W → Expansion W × Memo W) :
    List (GroundRule W) → Expansion W → Memo W → Expansion W × Memo W
  | [],      sofar, memo => (sofar, memo)
  | r :: rs, sofar, memo =>
    if r.leafOnly then expandRules expand rs { sofar with bodies := sofar.bodies ++ [r.body] } memo
    else
      let (found, memo) := expandBody expand r.body ⟨[[]], sofar.cut⟩ memo
      expandRules expand rs ⟨sofar.bodies ++ found.bodies, found.cut⟩ memo

/-- The alternatives of a literal.  `stack` has the literals being expanded, the outermost first; every one of them
heads a rule and none is there twice, so `fuel` beyond the number of heads is never used up. -/
def expandWithin (p : Prover W) : Nat → List String → Literal W → Memo W → Expansion W × Memo W
  | 0,        _,     _, memo => (⟨[], none⟩, memo)
  | fuel + 1, stack, l, memo =>
    let id := l.id
    match stack.idxOf? id, memo[id]? with
    | some depth, _          => (⟨[], some depth⟩, memo)
    | none,       some known => (⟨known, none⟩, memo)
    | none,       none       =>
      let rules := p.rules[id]?
      let leaf : List (Body W) := if rules.isNone || p.snapshot.isAsserted l then [[l]] else []
      let (found, memo) := expandRules (expandWithin p fuel (stack ++ [id])) (rules.getD []) ⟨leaf, none⟩ memo
      let bodies := normalize p.prune found.bodies
      if found.cut.all (fun c => stack.length ≤ c) then (⟨bodies, none⟩, memo.insert id bodies)
      else (⟨bodies, found.cut⟩, memo)

def expand (p : Prover W) (target : Literal W) : List (Body W) :=
  (p.expandWithin (p.rules.size + 2) [] target ∅).1.bodies

/-- The proofs of a target. -/
def proofs (p : Prover W) (target : Literal W) : List (Clause W) :=
  (p.expand target).map (fun b => ⟨target, b⟩)

end Prover
end Credence
