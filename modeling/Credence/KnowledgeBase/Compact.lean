import Credence.KnowledgeBase.Basic
/-!
# Compaction

A predicate that is defined by one rule and no facts, and used by one positive literal in the body of another rule, is
written out at that place.  The definition stays for queries.
-/
namespace Credence

/-- The place of a body literal in the knowledge base. -/
structure Site where
  predicate : Predicate
  rule      : Nat
  literal   : Nat
  negated   : Bool

namespace KnowledgeBase

variable {W : Type}

/-- The predicate a literal is about, negated or not. -/
def subject? (l : Literal W) : Option Predicate :=
  if l.isNegated then
    match l.predicate.negate with
    | .ok p    => some p
    | .error _ => none
  else some l.predicate

/-- The literals about `q` in one rule. -/
def sitesInRule (q p : Predicate) (rule : Nat) (c : Clause W) : List Site :=
  c.body.zipIdx.filterMap (fun (l, i) => if subject? l = some q then some ⟨p, rule, i, l.isNegated⟩ else none)

/-- All body literals about `q`. -/
def sites (kb : KnowledgeBase W) (q : Predicate) : List Site :=
  kb.rules.entries.flatMap (fun (p, cs) => cs.zipIdx.flatMap (fun (c, i) => sitesInRule q p i c))

/-- The one place where `q` can be written out, if it can. -/
def inlineSite? (kb : KnowledgeBase W) (q : Predicate) : Option Site :=
  if (kb.rules.get q).length = 1 && (kb.facts.get q).isEmpty then
    match kb.sites q with
    | [s] => if !s.negated && s.predicate != q then some s else none
    | _   => none
  else none

/-- The first predicate, in sorted order, that can be written out and was not tried before. -/
def nextInline? (kb : KnowledgeBase W) (tried : List Predicate) : Option (Predicate × Site) :=
  let candidates := kb.rules.predicates.filter (fun q => !tried.contains q)
  (candidates.mergeSort Predicate.precedes).findSome? (fun q => (kb.inlineSite? q).map (fun s => (q, s)))

variable [Weight W]

/-- The referring rule with the body of a definition in the place of a literal.  None when the definition's head does not
fit.  The two are taken as they are: a variable that both happen to have is one variable. -/
def inline (r : Registry) (referrer definition : Clause W) (i : Nat) : Except Error (Option (Clause W)) :=
  match (referrer.body[i]?).bind (fun l => l.unify definition.head) with
  | none   => .ok none
  | some s =>
    let body := referrer.body.take i ++ definition.body ++ referrer.body.drop (i + 1)
    ((Clause.mk referrer.head body).subst s |>.reorder r).map some

/-- Writes one predicate out at its place, and says whether that was done. -/
def inlineAt (kb : KnowledgeBase W) (q : Predicate) (s : Site) : Except Error Bool × KnowledgeBase W :=
  match (kb.rules.get q)[0]?, (kb.rules.get s.predicate)[s.rule]? with
  | some definition, some referrer =>
    let (definition, pool) := definition.rename kb.pool
    let kb := { kb with pool := pool }
    match inline kb.registry referrer definition s.literal with
    | .error e          => (.error e, kb)
    | .ok none          => (.ok false, kb)
    | .ok (some merged) =>
      (.ok true,
        { kb with
          seen := (kb.seen.erase referrer.key).insert merged.key
          rules := kb.rules.set s.predicate s.rule merged })
  | _, _ => (.ok false, kb)

/-- Writes out what can be, trying at most `tries` predicates, and counts. -/
def compactWithin : Nat → List Predicate → KnowledgeBase W → Except Error Nat × KnowledgeBase W
  | 0,         _,     kb => (.ok 0, kb)
  | tries + 1, tried, kb =>
    match kb.nextInline? tried with
    | none        => (.ok 0, kb)
    | some (q, s) =>
      match kb.inlineAt q s with
      | (.error e, kb) => (.error e, kb)
      | (.ok did, kb)  =>
        match compactWithin tries (q :: tried) kb with
        | (.ok n, kb)    => (.ok (if did then n + 1 else n), kb)
        | (.error e, kb) => (.error e, kb)

/-- Each predicate is tried once at most. -/
def compact (kb : KnowledgeBase W) : Except Error Nat × KnowledgeBase W :=
  compactWithin kb.rules.predicates.length [] kb

end KnowledgeBase
end Credence
