import Credence.Literal
/-!
# Clauses

A head and the body it follows from.  Clauses are the same when they differ in the numbers of variables only, and the
fingerprint, one text with variables numbered across head and body, decides that.
-/
namespace Credence

structure Clause (W : Type) where
  head : Literal W
  body : List (Literal W)

namespace Clause

variable {W : Type}

def fact (head : Literal W) : Clause W := ⟨head, []⟩

def isFact (c : Clause W) : Bool := c.body.isEmpty && c.head.isGrounded

def isRule (c : Clause W) : Bool := !c.body.isEmpty

def isGrounded (c : Clause W) : Bool := c.head.isGrounded && c.body.all Literal.isGrounded

def bodyVars (c : Clause W) : List Var := c.body.flatMap Literal.vars

/-- Every variable of the head occurs in the body. -/
def isSafe (c : Clause W) : Bool := c.head.vars.all (fun v => c.bodyVars.contains v)

/-! ## Copies -/

def subst (c : Clause W) (s : Subst) : Clause W := ⟨c.head.subst s, c.body.map (fun l => l.subst s)⟩

def renameLiterals : Renaming → List (Literal W) → List (Literal W) × Renaming
  | r, []      => ([], r)
  | r, l :: ls =>
    let (l, r) := l.renameWith r
    let (ls, r) := renameLiterals r ls
    (l :: ls, r)

/-- A copy with variables from the pool, alike in head and body. -/
def rename (c : Clause W) (pool : VarPool) : Clause W × VarPool :=
  let (head, r) := c.head.renameWith ⟨pool, []⟩
  let (body, r) := renameLiterals r c.body
  (⟨head, body⟩, r.pool)

/-- One resolution step: the first body literal meets `fact` and leaves its bindings to the rest. -/
def resolve (c : Clause W) (fact : Literal W) : Option (Clause W) :=
  match c.body with
  | []            => none
  | first :: rest =>
    (first.unify fact).map (fun s => ⟨c.head.subst s, rest.map (fun l => l.subst s)⟩)

/-! ## Identity -/

/-- The terms with variables written by their place in `seen`, which grows by the new ones. -/
def canonicalTerms : List Var → List Term → List String × List Var
  | seen, []             => ([], seen)
  | seen, .const c :: ts =>
    let (rest, seen) := canonicalTerms seen ts
    (c.printed :: rest, seen)
  | seen, .var v :: ts   =>
    if v.wildcard then
      let (rest, seen) := canonicalTerms seen ts
      ("_" :: rest, seen)
    else
      let n := seen.idxOf v
      let (rest, seen) := canonicalTerms (if n < seen.length then seen else seen ++ [v]) ts
      (("?" ++ toString n) :: rest, seen)

variable [Weight W]

def canonicalLiteral (seen : List Var) (l : Literal W) : String × List Var :=
  let (args, seen) := canonicalTerms seen l.terms
  (Weight.text l.weight ++ "::" ++ l.name ++ "(" ++ String.intercalate "," args ++ ")", seen)

def canonicalLiterals : List Var → List (Literal W) → List String
  | _,    []      => []
  | seen, l :: ls =>
    let (s, seen) := canonicalLiteral seen l
    s :: canonicalLiterals seen ls

/-- The clause with variables numbered by first occurrence, head first. -/
def fingerprint (c : Clause W) : String :=
  let (head, seen) := canonicalLiteral [] c.head
  if c.body.isEmpty then head else head ++ ":-" ++ String.intercalate "," (canonicalLiterals seen c.body)

/-- What clauses are compared and looked up by. -/
def key (c : Clause W) : Nat × String := (c.body.length, c.fingerprint)

def alike (a b : Clause W) : Bool := a.key == b.key

def text (c : Clause W) : String :=
  if c.body.isEmpty then c.head.text
  else c.head.text ++ " :- " ++ String.intercalate ", " (c.body.map Literal.text)

end Clause
end Credence
