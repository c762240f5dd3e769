import Credence.Estimate
import Credence.KnowledgeBase.Basic
import Credence.Solver.Table
/-!
# Runs

Tabled resolution as a machine with an agenda.  A task looks at the table, changes it, and puts the tasks that follow
from it in front of the others, so that goals are worked off depth first.  Every goal is searched once.  A derivation
that needs the facts of another goal waits there; it meets the facts known by then at once and each later fact when that
is found.  A run is as many steps as it takes to empty the agenda.
-/
namespace Credence

/-- What a run has been asked for, and what it may use. -/
structure Query (W : Type) where
  kb            : KnowledgeBase W
  settings      : Settings
  /-- The capacity of the store of every goal. -/
  storeCapacity : Option Nat
  /-- How many answers are enough. -/
  maxSamples    : Option Nat

/-- What a run has done so far. -/
structure Stats where
  subgoals          : Nat
  facts             : Nat
  bloomFastPath     : Nat
  primitives        : Nat
  primitiveFailures : Nat
  rulesGrounded     : Nat
  unprovable        : Nat
deriving DecidableEq

def Stats.zero : Stats := ⟨0, 0, 0, 0, 0, 0, 0⟩

structure Run (W : Type) where
  pool  : VarPool
  table : Table W
  stats : Stats

inductive Task (W : Type) where
  /-- Find the facts and rules of a goal. -/
  | search (goal : Nat)
  /-- Try the facts still left for a goal, then its rules; `matched` says whether any so far fitted. -/
  | tryFacts (goal : Nat) (left : List (Clause W)) (matched : Bool)
  | tryRules (goal : Nat) (left : List (Clause W)) (matched : Bool)
  /-- Decide a negation from the facts of its base. -/
  | decideNegation (goal base : Nat) (positive : Literal W)
  /-- Give a goal a fact. -/
  | accept (goal : Nat) (fact : Clause W) (origin : Origin)
  /-- Let a new fact meet the derivations that wait for it. -/
  | notify (left : List (Waiter W)) (fact : Clause W)
  /-- Let a new derivation meet the facts known by now. -/
  | feed (goal : Nat) (d : Derivation W) (left : List (Clause W))
  /-- Take up the next literal of a derivation. -/
  | advance (goal : Nat) (d : Derivation W)
  /-- Resolve the next literal of a derivation against a fact. -/
  | resolve (goal : Nat) (d : Derivation W) (fact : Clause W)

/-- The tasks that follow, or what went wrong, and the run after it. -/
abbrev Stepped (W : Type) := Except Error (List (Task W)) × Run W

namespace Run

variable {W : Type}

def start (pool : VarPool) : Run W := ⟨pool, .empty, .zero⟩

def count (r : Run W) (f : Stats → Stats) : Run W := { r with stats := f r.stats }

def modify (r : Run W) (goal : Nat) (f : Subgoal W → Subgoal W) : Run W := { r with table := r.table.modify goal f }

/-- The query has as many answers as were asked for. -/
def isDone (r : Run W) : Bool := (r.table.goal? 0).any Subgoal.capped

/-- The goal of a literal up to renaming, and whether it is new. -/
def goalFor (q : Query W) (l : Literal W) (r : Run W) : Nat × Bool × Run W :=
  let key := l.variant
  match r.table.index[key]? with
  | some i => (i, false, r)
  | none   =>
    let i := r.table.goals.size
    let g := Subgoal.new l (.empty q.storeCapacity) (.sized q.settings.bloomItems q.settings.bloomRate)
    let table := { r.table with goals := r.table.goals.push g, index := r.table.index.insert key i }
    (i, true, { r with table := table }.count (fun s => { s with subgoals := s.subgoals + 1 }))

variable [Weight W]

/-! ## Primitives -/

/-- The inputs of a primitive literal: a function's first argument is its output.  A function written without arguments
has neither. -/
def inputs (kind : PrimitiveKind) (l : Literal W) : List Term :=
  match kind with
  | .function => l.terms.drop 1
  | .test     => l.terms

def callPrimitive (registry : Registry) (name : String) (ins : List Term) : Except CallError Output :=
  match ins.mapM Term.const? with
  | some args => registry.call name args
  | none      => .error (.unbound name)

def outputs : Output → List Constant
  | .none    => []
  | .one c   => [c]
  | .many cs => cs

/-- The instances of a primitive literal that its results make true. -/
def instances (kind : PrimitiveKind) (l : Literal W) (results : List Constant) : List (Literal W) :=
  match kind with
  | .test     => if results.any (fun c => c.bool? == some true) then [l] else []
  | .function =>
    results.filterMap (fun c =>
      let ground : Literal W := ⟨1, l.predicate, .const c :: inputs kind l⟩
      if (l.unify ground).isSome then some ground else none)

/-- Runs a primitive literal.  A failure is counted and has no instances. -/
def runPrimitive (q : Query W) (l : Literal W) (r : Run W) : List (Literal W) × Run W :=
  match l.primitive? with
  | none      => ([], r)
  | some name =>
    let kind := q.kb.registry.kind name
    let r := r.count (fun s => { s with primitives := s.primitives + 1 })
    match callPrimitive q.kb.registry name (inputs kind l) with
    | .ok out  => (instances kind l (outputs out), r)
    | .error _ => ([], r.count (fun s => { s with primitiveFailures := s.primitiveFailures + 1 }))

/-! ## Searching a goal -/

/-- Nothing fits the goal: no derivation that waits for it will go on. -/
def markUnprovable (goal : Nat) (r : Run W) : Run W :=
  match r.table.goal? goal with
  | none   => r
  | some g =>
    let r := r.count (fun s => { s with unprovable := s.unprovable + 1 })
    let r := r.modify goal (fun g => { g with unprovable := true })
    g.waiters.foldl (fun r w => r.modify w.goal (fun p => { p with trie := (p.trie.cleanup g.literal).2 })) r

/-- A negation is searched through its base. -/
def searchNegation (q : Query W) (goal : Nat) (l : Literal W) (r : Run W) : Stepped W :=
  if !l.isSemiGrounded then (.error (.openNegation l.text), r)
  else
    match l.negate with
    | .error e => (.error e, r)
    | .ok base =>
      let (i, created, r) := r.goalFor q base
      (.ok (if created then [.search i, .decideNegation goal i base] else [.decideNegation goal i base]), r)

def search (q : Query W) (goal : Nat) (r : Run W) : Stepped W :=
  match r.table.goal? goal with
  | none   => (.ok [], r)
  | some g =>
    let l := g.literal
    if l.isNegated then r.searchNegation q goal l
    else if l.isPrimitive then
      let (answers, r) := r.runPrimitive q l
      (.ok (answers.map (fun a => .accept goal (.fact a) .asserted)), r)
    else (.ok [.tryFacts goal (q.kb.factsFor l) false], r)

def tryFacts (q : Query W) (goal : Nat) (left : List (Clause W)) (matched : Bool) (r : Run W) : Stepped W :=
  match r.table.goal? goal, left with
  | none,   _            => (.ok [], r)
  | some g, []           => (.ok [.tryRules goal (q.kb.rulesFor g.literal) matched], r)
  | some g, fact :: left =>
    if r.isDone then (.ok [], r)
    else if (g.literal.unify fact.head).isSome then
      (.ok [.accept goal fact .asserted, .tryFacts goal left true], r)
    else (.ok [.tryFacts goal left matched], r)

def tryRules (goal : Nat) (left : List (Clause W)) (matched : Bool) (r : Run W) : Stepped W :=
  match r.table.goal? goal, left with
  | none,   _            => (.ok [], r)
  | some _, []           => (.ok [], if matched then r else r.markUnprovable goal)
  | some g, rule :: left =>
    if r.isDone then (.ok [], r)
    else
      let (rule, pool) := rule.rename r.pool
      let r := { r with pool := pool }
      match rule.head.unify g.literal with
      | some s => (.ok [.advance goal (.start (rule.subst s)), .tryRules goal left true], r)
      | none   => (.ok [.tryRules goal left matched], r)

/-! ## Deciding a negation -/

/-- The probability of a literal from the facts found for it so far. -/
def estimate (q : Query W) (base : Literal W) (facts : List (Literal W)) (r : Run W) : W :=
  let set := (Prover.ofSnapshot r.table.snapshot q.settings.pruneCertain).proofSet facts
  (Estimator.mk set q.settings).probability base none

/-- A negation is certain when its base has no facts, and impossible when its base is certain.  Otherwise it has the
complementary weight, and remembers the facts it stands against. -/
def decideNegation (q : Query W) (goal base : Nat) (positive : Literal W) (r : Run W) : Stepped W :=
  match r.table.goal? goal, r.table.goal? base with
  | some g, some b =>
    if b.unprovable || b.factCount == 0 then (.ok [.accept goal (.fact g.literal) .asserted], r)
    else
      let bases := b.facts.map Clause.head
      let complement := 1 - r.estimate q positive bases
      if Weight.isZero (Weight.round q.settings.negationDigits complement) then (.ok [], r.markUnprovable goal)
      else
        let leaf := { g.literal with weight := complement }
        let table := { r.table with negations := r.table.negations.insert leaf.id (leaf, bases) }
        (.ok [.accept goal (.fact leaf) .asserted], { r with table := table })
  | _, _ => (.ok [], r)

/-! ## Facts and derivations -/

/-- The counters after one more fact. -/
def countFact (fast : Bool) (s : Stats) : Stats :=
  { s with facts := s.facts + 1, bloomFastPath := if fast then s.bloomFastPath + 1 else s.bloomFastPath }

def accept (q : Query W) (goal : Nat) (fact : Clause W) (origin : Origin) (r : Run W) : Stepped W :=
  match r.table.goal? goal with
  | none   => (.ok [], r)
  | some g =>
    if g.capped then (.ok [], r)
    else
      match g.addFact fact origin with
      | none           => (.ok [], r)
      | some (fast, g) =>
        let full := goal == 0 && q.maxSamples.any (fun n => n ≤ g.factCount)
        let r := r.modify goal (fun _ => if full then { g with capped := true } else g)
        (.ok [.notify g.waiters.toList fact], r.count (countFact fast))

def notify (left : List (Waiter W)) (fact : Clause W) (r : Run W) : Stepped W :=
  match left with
  | []        => (.ok [], r)
  | w :: left => (.ok (if r.isDone then [] else [.resolve w.goal w.derivation fact, .notify left fact]), r)

def feed (goal : Nat) (d : Derivation W) (left : List (Clause W)) (r : Run W) : Stepped W :=
  match left with
  | []           => (.ok [], r)
  | fact :: left => (.ok (if r.isDone then [] else [.resolve goal d fact, .feed goal d left]), r)

/-- Lets a derivation wait for a goal: one that is new has to be searched, one that is not has facts already. -/
def awaitGoal (q : Query W) (goal : Nat) (d : Derivation W) (first : Literal W) (r : Run W) : Stepped W :=
  let (child, created, r) := r.goalFor q first
  match r.table.goal? child, r.table.goal? goal with
  | some c, some g =>
    if c.unprovable then (.ok [], r)
    else
      match g.trie.wait d.node first with
      | .error e => (.error e, r)
      | .ok trie =>
        let r := r.modify goal (fun g => { g with trie := trie })
        let r := r.modify child (fun c => c.wait ⟨goal, d⟩)
        (.ok (if created then [.search child] else [.feed goal d c.facts]), r)
  | _, _ => (.ok [], r)

def advance (q : Query W) (goal : Nat) (d : Derivation W) (r : Run W) : Stepped W :=
  match d.rule.body with
  | []         => (.error (.fault ("rule `" ++ d.rule.text ++ "` has nothing left to resolve")), r)
  | first :: _ =>
    if first.isPrimitive then
      let (answers, r) := r.runPrimitive q first
      (.ok (answers.map (fun a => .resolve goal d (.fact a))), r)
    else if first.isNegated && !first.isSemiGrounded then
      (.error (.openNegation (first.text ++ " in `" ++ d.rule.text ++ "`")), r)
    else r.awaitGoal q goal d first

/-- A derivation with nothing left to resolve gives its goal a fact. -/
def completeRule (goal node : Nat) (head : Literal W) (r : Run W) : Stepped W :=
  if !head.isSemiGrounded then (.ok [], r)
  else
    match r.table.goal? goal with
    | none   => (.ok [], r)
    | some g =>
      match g.trie.complete node head with
      | .error e => (.error e, r)
      | .ok rule =>
        let (isNew, g) := g.record rule
        let r := r.modify goal (fun _ => g)
        let r := if isNew then r.count (fun s => { s with rulesGrounded := s.rulesGrounded + 1 }) else r
        (.ok [.accept goal (.fact head) .derived], r)

def resolve (goal : Nat) (d : Derivation W) (fact : Clause W) (r : Run W) : Stepped W :=
  match d.rule.resolve fact.head, r.table.goal? goal with
  | some rest, some g =>
    match g.trie.update d.node fact.head with
    | .error e         => (.error e, r)
    | .ok (node, trie) =>
      let r := r.modify goal (fun g => { g with trie := trie })
      if rest.body.isEmpty then r.completeRule goal node rest.head else (.ok [.advance goal ⟨rest, node⟩], r)
  | _, _ => (.ok [], r)

/-! ## Steps -/

def step (q : Query W) (r : Run W) : Task W → Stepped W
  | .search goal                => r.search q goal
  | .tryFacts goal left matched => r.tryFacts q goal left matched
  | .tryRules goal left matched => r.tryRules goal left matched
  | .decideNegation goal base l => r.decideNegation q goal base l
  | .accept goal fact origin    => r.accept q goal fact origin
  | .notify left fact           => r.notify left fact
  | .feed goal d left           => r.feed goal d left
  | .advance goal d             => r.advance q goal d
  | .resolve goal d fact        => r.resolve goal d fact

/-- Why a run ended before its agenda was empty. -/
inductive Halt where
  | refused (e : Error)
  /-- More steps were needed than were allowed. -/
  | unfinished

/-- Works an agenda off, in `steps` steps at most. -/
def execute (q : Query W) : Nat → List (Task W) → Run W → Except Halt Unit × Run W
  | _,         [],             r => (.ok (), r)
  | 0,         _ :: _,         r => (.error .unfinished, r)
  | steps + 1, task :: agenda, r =>
    match r.step q task with
    | (.ok tasks, r) => execute q steps (tasks ++ agenda) r
    | (.error e, r)  => (.error (.refused e), r)

end Run
end Credence
