import Credence.Grammar.Lexeme
/-!
# Statements of the clause language

The grammar of statements as readers.  Alternatives are tried in order and the first that fits is kept.  Calls nest, so
their reader takes a bound on the words it may still read; the length of the text is always enough.
-/
namespace Credence
namespace Grammar

/-! ## Operands -/

mutual

def operand : Nat → Reader Operand
  | 0,        _  => none
  | fuel + 1, cs =>
    (match callName cs with
      | none              => none
      | some (name, rest) =>
        (token "(" (skip rest)).bind (fun rest =>
          let (args, rest) := operands fuel (skip rest)
          (token ")" (skip rest)).map (fun rest => (.call name args, rest))))
    <|> (term cs).map (fun (t, rest) => (.term t, rest))

/-- As many operands as there are, with commas between them. -/
def operands : Nat → List Char → List Operand × List Char
  | 0,        cs => ([], cs)
  | fuel + 1, cs =>
    match operand fuel cs with
    | none           => ([], cs)
    | some (a, rest) =>
      match token "," (skip rest) with
      | none       => ([a], rest)
      | some after =>
        match operands fuel (skip after) with
        | ([], _)     => ([a], rest)
        | (as, rest') => (a :: as, rest')

end

/-- A list in parentheses, or nothing. -/
def parenthesized {α : Type} (list : List Char → List α × List Char) (cs : List Char) : List α × List Char :=
  let found :=
    (token "(" (skip cs)).bind (fun rest =>
      let (xs, rest) := list (skip rest)
      (token ")" (skip rest)).map (fun rest => (xs, rest)))
  found.getD ([], cs)

/-! ## Bodies -/

def assignment : Reader Item := fun cs => do
  let (target, cs) ← variableName cs
  let cs ← token "is" (skip cs)
  let (value, cs) ← operand (cs.length + 1) (skip cs)
  return (.assignment target value, cs)

def comparison : Reader Item := fun cs => do
  let (left, cs) ← operand (cs.length + 1) cs
  let (sign, cs) ← comparisonSign (skip cs)
  let (right, cs) ← operand (cs.length + 1) (skip cs)
  return (.comparison left sign right, cs)

def bodyAtom : Reader Item := fun cs => do
  let (negated, cs) := negation cs
  let (name, cs) ← name (skip cs)
  let (args, cs) := parenthesized (operands (cs.length + 1)) cs
  return (.atom negated name args, cs)

def item : Reader Item := fun cs => assignment cs <|> comparison cs <|> bodyAtom cs

/-- Items with commas between them, at most `fuel`. -/
def items : Nat → List Char → List Item × List Char
  | 0,        cs => ([], cs)
  | fuel + 1, cs =>
    match item cs with
    | none           => ([], cs)
    | some (i, rest) =>
      match token "," (skip rest) with
      | none       => ([i], rest)
      | some after =>
        match items fuel (skip after) with
        | ([], _)     => ([i], rest)
        | (is, rest') => (i :: is, rest')

def body : Reader (List Item) := fun cs =>
  match items (cs.length + 1) cs with
  | ([], _)    => none
  | (is, rest) => some (is, rest)

/-! ## Statements -/

/-- Terms with commas between them, at most `fuel`. -/
def terms : Nat → List Char → List Lexeme × List Char
  | 0,        cs => ([], cs)
  | fuel + 1, cs =>
    match term cs with
    | none           => ([], cs)
    | some (t, rest) =>
      match token "," (skip rest) with
      | none       => ([t], rest)
      | some after =>
        match terms fuel (skip after) with
        | ([], _)     => ([t], rest)
        | (ts, rest') => (t :: ts, rest')

/-- A number in front of a double colon. -/
def weight (cs : List Char) : Option String × List Char :=
  match number cs with
  | none           => (none, cs)
  | some (w, rest) =>
    match token "::" (skip rest) with
    | none      => (none, cs)
    | some rest => (some w, rest)

def rule : Reader Ending := fun cs => do
  let cs ← token ":-" cs
  let (items, cs) ← body (skip cs)
  let cs ← token "." (skip cs)
  return (.rule items, cs)

def ending : Reader Ending := fun cs =>
  (token "?" cs).map (fun rest => (.query, rest))
    <|> rule cs
    <|> (token "." cs).map (fun rest => (.fact, rest))

def statement : Reader Statement := fun cs => do
  let (weight, rest) := weight cs
  let (negated, rest) := negation (skip rest)
  let (name, rest) ← name (skip rest)
  let (args, rest) := parenthesized (terms (rest.length + 1)) rest
  let (ending, rest) ← ending (skip rest)
  let text := String.ofList (cs.take (cs.length - rest.length))
  return (⟨text, weight, negated, name, args, ending⟩, rest)

/-- Statements to the very end of the text, at most `fuel`. -/
def statements : Nat → List Char → Option (List Statement)
  | 0,        _  => none
  | fuel + 1, cs =>
    match skip cs with
    | [] => some []
    | cs =>
      match statement cs with
      | none           => none
      | some (s, rest) => (statements fuel rest).map (s :: ·)

def program? (s : String) : Option (List Statement) := statements (s.length + 1) s.toList

/-- The one statement a text consists of. -/
def single? (s : String) : Option Statement :=
  match statement (skip s.toList) with
  | none              => none
  | some (stmt, rest) => if (skip rest).isEmpty then some stmt else none

end Grammar
end Credence
