import Credence.Body.Order
import Credence.Grammar.Reader
import Credence.Text.Blank
import Credence.Text.Escape
/-!
# Programs

From statements as read to clauses and queries.  A name stands for one variable throughout its statement and for another
in the next.  Comparisons, assignments and nested calls become primitive literals in front of the literal that uses
their result, with fresh variables in between.  Rules are checked and put into running order on the way.
-/
namespace Credence

inductive Sentence (W : Type) where
  | clause (c : Clause W)
  | query (l : Literal W)

/-- The clauses and the queries of a text, each in the order of the text. -/
structure Program (W : Type) where
  clauses : List (Clause W)
  queries : List (Literal W)

/-- The variables that the names of one statement stand for. -/
structure Scope where
  pool  : VarPool
  names : List (String × Var)

abbrev Building := StateT Scope (Except Error)

namespace Building

variable {W : Type} [Weight W]

def fresh : Building Term := fun s =>
  let (v, pool) := s.pool.fresh
  .ok (.var v, { s with pool := pool })

def wildcard : Building Term := fun s =>
  let (v, pool) := s.pool.wildcard
  .ok (.var v, { s with pool := pool })

def named (name : String) : Building Term := fun s =>
  match s.names.lookup name with
  | some v => .ok (.var v, s)
  | none   =>
    let (v, pool) := s.pool.fresh
    .ok (.var v, ⟨pool, (name, v) :: s.names⟩)

/-! ## Terms and calls -/

def term : Grammar.Lexeme → Building Term
  | .quoted inner => return .const (.ofText (Text.unescape inner))
  | .number s     => return .const ⟨s⟩
  | .named name   => named name
  | .wildcard     => wildcard
  | .word s       => return .const ⟨s⟩

mutual

/-- The term that holds an operand's value, and the literals that compute it. -/
def operand : Grammar.Operand → Building (Term × List (Literal W))
  | .term t         => do return (← term t, [])
  | .call name args => do
    let (ins, steps) ← operands args
    let out ← fresh
    return (out, steps ++ [← Literal.atom name (out :: ins)])

def operands : List Grammar.Operand → Building (List Term × List (Literal W))
  | []      => return ([], [])
  | a :: as => do
    let (t, first) ← operand a
    let (ts, rest) ← operands as
    return (t :: ts, first ++ rest)

end

/-! ## Items -/

/-- The function a comparison calls, and the test its result has to pass. -/
def comparison : Grammar.Comparison → String × String
  | .equal     => ("fn_eq", "fn_is_true")
  | .different => ("fn_eq", "fn_is_false")
  | .less      => ("fn_lt", "fn_is_true")
  | .atMost    => ("fn_lte", "fn_is_true")
  | .greater   => ("fn_gt", "fn_is_true")
  | .atLeast   => ("fn_gte", "fn_is_true")

def predicateName (negated : Bool) (name : String) : String :=
  if negated then Predicate.negationMark ++ name else name

/-- The literals of one body item, in the order they were written. -/
def item : Grammar.Item → Building (List (Literal W))
  | .assignment target (.call name args) => do
    let out ← named target
    let (ins, steps) ← operands args
    return steps ++ [← Literal.atom name (out :: ins)]
  | .assignment target (.term t) => do
    let out ← named target
    return [← Literal.atom "fn_identity" [out, ← term t]]
  | .comparison left sign right => do
    let (x, first) ← operand left
    let (y, second) ← operand right
    let flag ← fresh
    let (function, test) := comparison sign
    return first ++ second ++ [← Literal.atom function [flag, x, y], ← Literal.atom test [flag]]
  | .atom negated name args => do
    let (ts, steps) ← operands args
    return steps ++ [← Literal.atom (predicateName negated name) ts]

def items : List Grammar.Item → Building (List (Literal W))
  | []      => return []
  | i :: is => do
    let first ← item i
    let rest ← items is
    return first ++ rest

/-! ## Statements -/

def terms : List Grammar.Lexeme → Building (List Term)
  | []      => return []
  | t :: ts => do
    let t ← term t
    let ts ← terms ts
    return t :: ts

/-- The weight in front of a statement, which has to be proper. -/
def weight (s : Grammar.Statement) : Except Error (Option W) :=
  match s.weight with
  | none      => .ok none
  | some text =>
    match Weight.read? text with
    | none   => .error (.misplaced s.text "malformed probability")
    | some w => if Weight.isProper w then .ok (some w) else .error (.improperWeight (Weight.text w) s.text)

def query (s : Grammar.Statement) (weighted : Bool) (head : Literal W) : Except Error (Sentence W) :=
  if weighted then .error (.misplaced s.text "queries carry no probability")
  else if head.isNegated && !head.isSemiGrounded then .error (.openNegation head.text)
  else .ok (.query head)

def rule (r : Registry) (c : Clause W) : Except Error (Sentence W) := do
  c.checkRule r
  return .clause (← c.reorder r)

def sentence (r : Registry) (s : Grammar.Statement) : Building (Sentence W) := do
  let w : Option W ← weight s
  let ts ← terms s.args
  let head : Literal W ← Literal.atom (predicateName s.negated s.name) ts
  let weighted := { head with weight := w.getD 1 }
  match s.ending with
  | .query     => query s w.isSome head
  | .fact      => if weighted.isGrounded then return .clause (.fact weighted) else throw (.openFact s.text)
  | .rule body => do
    let body ← items body
    rule r ⟨weighted, body⟩

end Building

/-! ## Reading texts -/

namespace Program

variable {W : Type} [Weight W]

def empty : Program W := ⟨[], []⟩

def add (p : Program W) : Sentence W → Program W
  | .clause c => { p with clauses := p.clauses ++ [c] }
  | .query l  => { p with queries := p.queries ++ [l] }

/-- Every statement has a scope of its own and takes its variables from the one pool. -/
def ofStatements (r : Registry) : VarPool → List Grammar.Statement → Except Error (List (Sentence W))
  | _,    []      => .ok []
  | pool, s :: ss => do
    let (sentence, scope) ← Building.sentence r s ⟨pool, []⟩
    return sentence :: (← ofStatements r scope.pool ss)

/-- The program of a text. -/
def read (r : Registry) (text : String) : Except Error (Program W) :=
  match Grammar.program? text with
  | none    => .error .unreadable
  | some ss => (ofStatements r .empty ss).map (fun sentences => sentences.foldl add empty)

end Program

variable {W : Type} [Weight W]

def Sentence.read (r : Registry) (text : String) : Except Error (Sentence W) :=
  match Grammar.single? text with
  | none   => .error .unreadable
  | some s => (Building.sentence r s ⟨.empty, []⟩).map Prod.fst

def Clause.read (r : Registry) (text : String) : Except Error (Clause W) := do
  match ← Sentence.read r text with
  | .clause c => return c
  | .query _  => throw (.misplaced text "expected a clause, found a query")

/-- The text of a query with the question mark it may leave out. -/
def Literal.queryText (text : String) : String :=
  let trimmed := Text.trim text
  if trimmed.toList.getLast? = some '?' then trimmed else trimmed ++ "?"

def Literal.readQuery (r : Registry) (text : String) : Except Error (Literal W) := do
  match ← Sentence.read r (queryText text) with
  | .query l  => return l
  | .clause _ => throw (.misplaced text "expected a query")

end Credence
