import Credence.Predicate
import Credence.Subst
import Credence.Weight
/-!
# Literals

A literal is a weighted atom.  It has four written forms: `text` for people, `tag` with every variable blank, `variant`
with variables numbered by first occurrence, which two literals share exactly when one is a renaming of the other, and
`id` with the variables themselves.
-/
namespace Credence

structure Literal (W : Type) where
  weight    : W
  predicate : Predicate
  terms     : List Term

namespace Literal

variable {W : Type}

def name (l : Literal W) : String := l.predicate.name

/-- As many terms as the predicate has arguments. -/
def isWellFormed (l : Literal W) : Bool := l.terms.length == l.predicate.arity

def isNegated (l : Literal W) : Bool := l.predicate.isNegated

def isPrimitive (l : Literal W) : Bool := l.predicate.isPrimitive

def primitive? (l : Literal W) : Option String := l.predicate.primitive?

def isGrounded (l : Literal W) : Bool := l.terms.all Term.isConst

/-- Constants and wildcards only. -/
def isSemiGrounded (l : Literal W) : Bool := l.terms.all (fun t => t.isConst || t.isWildcard)

/-- The variables that are not wildcards, in order and with repetitions. -/
def vars (l : Literal W) : List Var := l.terms.filterMap Term.named?

/-! ## Meeting another literal -/

/-- No constant of one contradicts a constant of the other.  A cheap test that never turns away what unifies. -/
def isRelevant (a b : Literal W) : Bool :=
  a.predicate = b.predicate &&
    (a.terms.zip b.terms).all (fun p =>
      match p with
      | (.const c, .const d) => c = d
      | _                    => true)

/-- Unifies under `s`, keeping what was bound before a failure. -/
def unifyInto (a b : Literal W) (s : Subst) : Bool × Subst :=
  if a.predicate = b.predicate then Term.unifyAll a.terms b.terms s else (false, s)

/-- The bindings that make two literals equal, if any do. -/
def unify (a b : Literal W) : Option Subst :=
  match a.unifyInto b .empty with
  | (true, s)  => some s
  | (false, _) => none

/-! ## Copies -/

def subst (l : Literal W) (s : Subst) : Literal W :=
  if s.isEmpty then l else { l with terms := l.terms.map s.chase }

def renameWith (l : Literal W) (r : Renaming) : Literal W × Renaming :=
  let (ts, r) := r.terms l.terms
  ({ l with terms := ts }, r)

/-- A copy with variables from the pool. -/
def rename (l : Literal W) (pool : VarPool) : Literal W × VarPool :=
  let (l, r) := l.renameWith ⟨pool, []⟩
  (l, r.pool)

/-- A copy whose wildcards are new as well. -/
def shuffle (l : Literal W) (pool : VarPool) : Literal W × VarPool :=
  let (ts, r) := Renaming.shuffled ⟨pool, []⟩ l.terms
  ({ l with terms := ts }, r.pool)

/-- One more argument. -/
def extend (l : Literal W) (t : Term) : Literal W :=
  { l with predicate := ⟨l.name, l.terms.length + 1⟩, terms := l.terms ++ [t] }

/-! ## Forms without the weight -/

/-- A name before its arguments; without any there are no parentheses. -/
def applied (separator name : String) (args : List String) : String :=
  if args.isEmpty then name else name ++ "(" ++ String.intercalate separator args ++ ")"

def tagTerm : Term → String
  | .const c => c.printed
  | .var _   => "_"

def tag (l : Literal W) : String := applied "," l.name (l.terms.map tagTerm)

/-- The number of each variable by first occurrence, where every wildcard is a variable of its own. -/
def numberTerms : List (Var × Nat) → Nat → List Term → List (Option Nat)
  | _,    _,    []             => []
  | seen, next, .const _ :: ts => none :: numberTerms seen next ts
  | seen, next, .var v :: ts   =>
    if v.wildcard then some next :: numberTerms seen (next + 1) ts
    else
      match seen.lookup v with
      | some n => some n :: numberTerms seen next ts
      | none   => some next :: numberTerms ((v, next) :: seen) (next + 1) ts

def numbers (l : Literal W) : List (Option Nat) := numberTerms [] 0 l.terms

def variantTerm : Term → Option Nat → String
  | .const c, _ => c.printed
  | .var _,   n => "?" ++ toString (n.getD 0)

def variant (l : Literal W) : String := applied "," l.name (List.zipWith variantTerm l.terms l.numbers)

/-! ## Weighted literals -/

variable [Weight W]

/-- The certain literal of a checked name. -/
def atom (name : String) (terms : List Term) : Except Error (Literal W) :=
  (Predicate.check ⟨name, terms.length⟩).map (fun p => ⟨1, p, terms⟩)

def isCertain (l : Literal W) : Bool := Weight.isCertain l.weight

/-- The certain literal with the negation mark put on or taken off. -/
def negate (l : Literal W) : Except Error (Literal W) :=
  l.predicate.negate.map (fun p => ⟨1, p, l.terms⟩)

def text (l : Literal W) : String :=
  (if l.isCertain then "" else Weight.text l.weight ++ "::") ++ applied ", " l.name (l.terms.map Term.text)

def idTerm : Term → String
  | .const c => c.printed
  | .var v   => if v.wildcard then "_" else "?" ++ toString v.id

def id (l : Literal W) : String := Weight.text l.weight ++ "::" ++ applied "," l.name (l.terms.map idTerm)

/-- The same term up to the names of variables. -/
def sameShape : Term → Term → Bool
  | .const c, .const d => c = d
  | .var _,   .var _   => true
  | _,        _        => false

/-- Equal up to a renaming of the variables, weight included. -/
def alike (a b : Literal W) : Bool :=
  Weight.same a.weight b.weight && a.predicate = b.predicate && a.numbers = b.numbers &&
    (a.terms.zip b.terms).all (fun p => sameShape p.1 p.2)

end Literal
end Credence
