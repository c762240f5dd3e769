import Credence.Constant
/-!
# Terms

Terms are flat: a constant or a variable.  A variable is only its number, issued by a pool; a wildcard is a variable
that matches anything and is never bound.
-/
namespace Credence

structure Var where
  id       : Nat
  wildcard : Bool
deriving DecidableEq, Hashable

/-- A source of variables: the number the next one gets. -/
structure VarPool where
  issued : Nat
deriving DecidableEq

namespace VarPool

def empty : VarPool := ⟨0⟩

def fresh (p : VarPool) : Var × VarPool := (⟨p.issued, false⟩, ⟨p.issued + 1⟩)

def wildcard (p : VarPool) : Var × VarPool := (⟨p.issued, true⟩, ⟨p.issued + 1⟩)

end VarPool

inductive Term where
  | const (c : Constant)
  | var (v : Var)
deriving DecidableEq, Hashable

namespace Term

def isConst : Term → Bool
  | const _ => true
  | var _   => false

def isWildcard : Term → Bool
  | const _ => false
  | var v   => v.wildcard

def const? : Term → Option Constant
  | const c => some c
  | var _   => none

def var? : Term → Option Var
  | const _ => none
  | var v   => some v

/-- The variable a term is, wildcards apart. -/
def named? (t : Term) : Option Var := t.var?.filter (fun v => !v.wildcard)

def text : Term → String
  | const c => c.printed
  | var v   => if v.wildcard then "_" else "V" ++ toString v.id

end Term

/-! ## Renaming

A renaming carries the pool that new variables come from and what it has decided so far, so that a variable is renamed
alike wherever it occurs. -/

structure Renaming where
  pool  : VarPool
  table : List (Var × Var)

namespace Renaming

/-- A fresh variable for `v`, the same one each time. -/
def rename (r : Renaming) (v : Var) : Var × Renaming :=
  match r.table.lookup v with
  | some w => (w, r)
  | none   =>
    let (w, pool) := r.pool.fresh
    (w, ⟨pool, (v, w) :: r.table⟩)

/-- Renames variables and keeps wildcards. -/
def term (r : Renaming) : Term → Term × Renaming
  | .const c => (.const c, r)
  | .var v   =>
    if v.wildcard then (.var v, r)
    else
      let (w, r) := r.rename v
      (.var w, r)

def terms (r : Renaming) : List Term → List Term × Renaming
  | []      => ([], r)
  | t :: ts =>
    let (t, r) := r.term t
    let (ts, r) := r.terms ts
    (t :: ts, r)

/-- Renames variables, and gives every wildcard a number of its own as well. -/
def shuffled (r : Renaming) : List Term → List Term × Renaming
  | []             => ([], r)
  | .const c :: ts =>
    let (ts, r) := r.shuffled ts
    (.const c :: ts, r)
  | .var v :: ts   =>
    if v.wildcard then
      let (w, pool) := r.pool.wildcard
      let (ts, r) := shuffled { r with pool := pool } ts
      (.var w :: ts, r)
    else
      let (w, r) := r.rename v
      let (ts, r) := r.shuffled ts
      (.var w :: ts, r)

end Renaming
end Credence
