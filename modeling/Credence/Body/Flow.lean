import Credence.Clause
import Credence.Primitive.Registry
/-!
# What a body literal needs and gives

An ordinary literal binds its variables and needs none.  A negation and a test need all of theirs.  A function needs the
variables of its inputs and binds its output.  From this comes which of two literals has to run first, and whether a
rule binds everything it uses.
-/
namespace Credence

/-- The three ways a body literal runs, in the order they are preferred. -/
inductive Role where
  | ordinary
  | negated
  | primitive
deriving DecidableEq

def Role.rank : Role → Nat
  | ordinary  => 0
  | negated   => 1
  | primitive => 2

structure Flow where
  role          : Role
  materializing : Bool
  produces      : List Var
  consumes      : List Var

namespace Flow

variable {W : Type}

/-- The variables among some terms, wildcards apart. -/
def varsOf (ts : List Term) : List Var := ts.filterMap Term.named?

def ofFunction (materializing : Bool) : List Term → Flow
  | []         => ⟨.primitive, materializing, [], []⟩
  | out :: ins =>
    let produces := varsOf [out]
    ⟨.primitive, materializing, produces, (varsOf ins).filter (fun v => !produces.contains v)⟩

def of (r : Registry) (l : Literal W) : Flow :=
  match l.primitive? with
  | some name =>
    match r.kind name with
    | .test     => ⟨.primitive, r.isMaterializing name, [], l.vars⟩
    | .function => ofFunction (r.isMaterializing name) l.terms
  | none =>
    if l.isNegated then ⟨.negated, false, [], l.vars⟩ else ⟨.ordinary, false, l.vars, []⟩

/-- Some variable that `a` binds is one that `b` needs. -/
def feeds (a b : Flow) : Bool := a.produces.any (fun v => b.consumes.contains v)

/-- Whether `a` has to run before `b`.  Primitives wait for all ordinary literals, so that they see as much as possible
bound; otherwise only what is fed waits. -/
def precedes (a b : Flow) : Bool :=
  match a.role, b.role with
  | .primitive, .primitive => a.feeds b
  | .ordinary,  .primitive => true
  | .primitive, .negated   => a.feeds b
  | .ordinary,  .negated   => a.feeds b
  | _,          _          => false

/-- Among literals that are free to run the least goes first: by role, then materialising ones. -/
def rank (f : Flow) : Nat := 2 * f.role.rank + (if f.materializing then 0 else 1)

end Flow

namespace Clause

variable {W : Type} [Weight W]

/-- Every variable that is needed somewhere in the body is bound somewhere in it. -/
def feedsItself (r : Registry) (c : Clause W) : Bool :=
  let flows := c.body.map (Flow.of r)
  let bound := flows.flatMap Flow.produces
  (flows.flatMap Flow.consumes).all (fun v => bound.contains v)

/-- Refuses a rule with a variable in its head, in a negation or in an input that the body does not bind. -/
def checkRule (r : Registry) (c : Clause W) : Except Error Unit :=
  if c.isSafe && c.feedsItself r then .ok () else .error (.unboundVariable c.text)

end Clause
end Credence
