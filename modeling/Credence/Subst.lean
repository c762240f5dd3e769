import Credence.Term
/-!
# Substitutions

What unification learns about variables.  A variable may be bound to another, so its value is found by following the
bindings; unification binds only ends of such chains, which keeps them free of cycles.
-/
namespace Credence

structure Subst where
  bindings : List (Var × Term)
deriving DecidableEq

namespace Subst

def empty : Subst := ⟨[]⟩

def isEmpty (s : Subst) : Bool := s.bindings.isEmpty

def size (s : Subst) : Nat := s.bindings.length

def get? (s : Subst) (v : Var) : Option Term := s.bindings.lookup v

/-- Puts `t` in the place of an earlier binding of `v`, or behind all others. -/
def put (v : Var) (t : Term) : List (Var × Term) → List (Var × Term)
  | []      => [(v, t)]
  | b :: bs => if b.1 = v then (v, t) :: bs else b :: put v t bs

/-- Binds `v`, unless it is a wildcard. -/
def bind (s : Subst) (v : Var) (t : Term) : Subst :=
  if v.wildcard then s else ⟨put v t s.bindings⟩

/-- Follows at most `steps` bindings. -/
def chaseFor (s : Subst) : Nat → Term → Term
  | 0,         t        => t
  | _ + 1,     .const c => .const c
  | steps + 1, .var v   =>
    match s.get? v with
    | some t => chaseFor s steps t
    | none   => .var v

/-- The constant or unbound variable at the end of the bindings of `t`.  No chain without a cycle is longer than the
number of bindings. -/
def chase (s : Subst) (t : Term) : Term := s.chaseFor s.size t

end Subst

/-! ## Unification -/

/-- Makes two terms equal by extending `s`, and says whether that was possible. -/
def Term.unify (a b : Term) (s : Subst) : Bool × Subst :=
  match s.chase a, s.chase b with
  | .var x, .var y =>
    if x.wildcard || y.wildcard || x = y then (true, s) else (true, s.bind x (.var y))
  | .var x, .const d => (true, if x.wildcard then s else s.bind x (.const d))
  | .const c, .var y => (true, if y.wildcard then s else s.bind y (.const c))
  | .const c, .const d => (c = d, s)

/-- Unifies position by position up to the first failure, keeping what was bound before it. -/
def Term.unifyAll : List Term → List Term → Subst → Bool × Subst
  | a :: as, b :: bs, s =>
    match Term.unify a b s with
    | (true, s)  => unifyAll as bs s
    | (false, s) => (false, s)
  | _, _, s => (true, s)

end Credence
