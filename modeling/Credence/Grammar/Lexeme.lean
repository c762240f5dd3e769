import Credence.Constant
import Credence.Grammar.Tree
/-!
# Words of the clause language

Each reader takes the longest run of characters its word allows from the front of a text, or nothing.  Between words
white space and comments are skipped; inside a word nothing is.
-/
namespace Credence
namespace Grammar

/-- Reads something from the front of a text and leaves the rest. -/
abbrev Reader (α : Type) := List Char → Option (α × List Char)

def isSpace (c : Char) : Bool := c == ' ' || c == '\t' || c == '\r' || c == '\n'

/-- Skips white space and comments; `comment` holds from a percent sign to the end of its line. -/
def skipFrom : Bool → List Char → List Char
  | _,     []      => []
  | true,  c :: cs => skipFrom (!(c == '\n' || c == '\r')) cs
  | false, c :: cs =>
    if isSpace c then skipFrom false cs else if c = '%' then skipFrom true cs else c :: cs

def skip (cs : List Char) : List Char := skipFrom false cs

/-- The rest behind a fixed word. -/
def token (word : String) (cs : List Char) : Option (List Char) := word.toList.isPrefixOf? cs

/-! ## Names -/

def isNameChar (c : Char) : Bool := c.isAlphanum || c == '_'

/-- A small letter, then letters, digits and underscores. -/
def name : Reader String
  | []      => none
  | c :: cs =>
    if c.isLower then some (String.ofList (c :: cs.takeWhile isNameChar), cs.dropWhile isNameChar) else none

/-- The name of a function that is called: at least one more character follows the mark. -/
def callName : Reader String := fun cs =>
  (token "fn_" cs).bind (fun rest =>
    let tail := rest.takeWhile isNameChar
    if tail.isEmpty then none else some ("fn_" ++ String.ofList tail, rest.dropWhile isNameChar))

/-! ## Terms -/

/-- The characters up to the closing quote, where a backslash shields the character behind it. -/
def untilQuote (quote : Char) : List Char → Option (List Char × List Char)
  | []              => none
  | '\\' :: c :: cs => (untilQuote quote cs).map (fun (inner, rest) => ('\\' :: c :: inner, rest))
  | c :: cs         =>
    if c = quote then some ([], cs) else (untilQuote quote cs).map (fun (inner, rest) => (c :: inner, rest))

def quoted : Reader Lexeme
  | []      => none
  | c :: cs =>
    if c = Char.ofNat 34 ∨ c = Char.ofNat 39 then
      (untilQuote c cs).map (fun (inner, rest) => (.quoted (String.ofList inner), rest))
    else none

/-- A point counts as part of a number only with a digit behind it. -/
def fraction (cs : List Char) : List Char × List Char :=
  match cs with
  | '.' :: rest =>
    if (rest.takeWhile Char.isDigit).isEmpty then ([], cs)
    else ('.' :: rest.takeWhile Char.isDigit, rest.dropWhile Char.isDigit)
  | _           => ([], cs)

def startsWord : List Char → Bool
  | []     => false
  | c :: _ => Constant.isWordChar c

/-- An optional minus, digits and an optional fraction, not running on into a word. -/
def number : Reader String := fun cs =>
  let (sign, cs) :=
    match cs with
    | '-' :: rest => (['-'], rest)
    | _           => ([], cs)
  let whole := cs.takeWhile Char.isDigit
  let (tail, rest) := fraction (cs.dropWhile Char.isDigit)
  if whole.isEmpty || startsWord rest then none else some (String.ofList (sign ++ whole ++ tail), rest)

/-- A capital letter, then any word characters. -/
def variableName : Reader String
  | []      => none
  | c :: cs =>
    if c.isUpper then
      some (String.ofList (c :: cs.takeWhile Constant.isWordChar), cs.dropWhile Constant.isWordChar)
    else none

def wildcard : Reader Lexeme
  | '_' :: cs => some (.wildcard, cs.dropWhile Constant.isWordChar)
  | _         => none

def word : Reader Lexeme := fun cs =>
  let run := cs.takeWhile Constant.isWordChar
  if run.isEmpty then none else some (.word (String.ofList run), cs.dropWhile Constant.isWordChar)

/-- A term is the first of these that fits. -/
def term : Reader Lexeme := fun cs =>
  quoted cs
    <|> (number cs).map (fun (s, rest) => (.number s, rest))
    <|> (variableName cs).map (fun (s, rest) => (.named s, rest))
    <|> wildcard cs
    <|> word cs

/-! ## Signs -/

/-- A tilde or a backslash and a plus. -/
def negation (cs : List Char) : Bool × List Char :=
  match token "~" cs <|> token "\\+" cs with
  | some rest => (true, rest)
  | none      => (false, cs)

/-- The longer sign stands before the one it starts with. -/
def comparisonSigns : List (String × Comparison) :=
  [("<=", .atMost), ("<>", .different), ("<", .less), (">=", .atLeast), (">", .greater), ("!=", .different),
   ("=", .equal)]

def comparisonSign : Reader Comparison := fun cs =>
  comparisonSigns.findSome? (fun (sign, c) => (token sign cs).map (fun rest => (c, rest)))

end Grammar
end Credence
