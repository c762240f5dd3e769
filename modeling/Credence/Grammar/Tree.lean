/-!
# The clause language, as read

What the grammar finds in a text before anything is checked: statements with the words they are made of.
-/
namespace Credence
namespace Grammar

/-- A flat term as written. -/
inductive Lexeme where
  /-- The characters between two quotes, escapes included. -/
  | quoted (inner : String)
  | number (text : String)
  | named (name : String)
  | wildcard
  | word (text : String)
deriving DecidableEq

/-- A term, or the call of a function. -/
inductive Operand where
  | term (t : Lexeme)
  | call (name : String) (args : List Operand)

inductive Comparison where
  | equal | different | less | atMost | greater | atLeast
deriving DecidableEq

/-- One part of a body. -/
inductive Item where
  | assignment (target : String) (value : Operand)
  | comparison (left : Operand) (sign : Comparison) (right : Operand)
  | atom (negated : Bool) (name : String) (args : List Operand)

inductive Ending where
  | query
  | fact
  | rule (body : List Item)

structure Statement where
  /-- The statement as it stands in the text. -/
  text    : String
  weight  : Option String
  negated : Bool
  name    : String
  args    : List Lexeme
  ending  : Ending

end Grammar
end Credence
