import Credence.Constant
import Credence.Text.Case
import Credence.Text.Escape
/-!
# Built-in primitives

The closed set of computations every knowledge base understands.  A function takes its inputs behind its output; a test
has inputs only and holds when its result is `true`.  A materialising primitive may have several results.
-/
namespace Credence

/-- How a primitive literal uses its arguments. -/
inductive PrimitiveKind where
  /-- The result is unified with the first argument. -/
  | function
  /-- Every argument is an input. -/
  | test
deriving DecidableEq

inductive Output where
  | none
  | one (c : Constant)
  /-- One derivation for each. -/
  | many (cs : List Constant)
deriving DecidableEq

/-- Why a call has no result. -/
inductive CallError where
  | unknown (name : String)
  | arity (name expected : String) (got : Nat)
  | kind (name note : String)
  | unbound (name : String)
  | failed (name note : String)
deriving DecidableEq

def CallError.message : CallError → String
  | .unknown name            => "unknown primitive `fn_" ++ name ++ "`"
  | .arity name expected got => "`fn_" ++ name ++ "` expects " ++ expected ++ " argument(s), got " ++ toString got
  | .kind name note          => "`fn_" ++ name ++ "`: " ++ note
  | .unbound name            => "`fn_" ++ name ++ "` input is not grounded"
  | .failed name note        => "`fn_" ++ name ++ "` failed: " ++ note

inductive Builtin where
  | isTrue | isFalse
  | eq | lt | lte | gt | gte
  | add | sub | mul | div
  | identity | concat | lower | upper | strlen | toInt | toDecimal
  | dateDiffDays
  | split | range
deriving DecidableEq

namespace Builtin

def all : List Builtin :=
  [isTrue, isFalse, eq, lt, lte, gt, gte, add, sub, mul, div, identity, concat, lower, upper, strlen, toInt, toDecimal,
   dateDiffDays, split, range]

def name : Builtin → String
  | isTrue       => "is_true"
  | isFalse      => "is_false"
  | eq           => "eq"
  | lt           => "lt"
  | lte          => "lte"
  | gt           => "gt"
  | gte          => "gte"
  | add          => "add"
  | sub          => "sub"
  | mul          => "mul"
  | div          => "div"
  | identity     => "identity"
  | concat       => "concat"
  | lower        => "lower"
  | upper        => "upper"
  | strlen       => "strlen"
  | toInt        => "to_int"
  | toDecimal    => "to_decimal"
  | dateDiffDays => "date_diff_days"
  | split        => "split"
  | range        => "range"

def ofName? (name : String) : Option Builtin := all.find? (fun b => b.name == name)

def kind : Builtin → PrimitiveKind
  | isTrue | isFalse => .test
  | _                => .function

def isMaterializing : Builtin → Bool
  | split | range => true
  | _             => false

/-- Numbers compare as numbers, dates by the calendar, and anything else by its text. -/
def compare (a b : Constant) : Ordering :=
  match a.float?, b.float? with
  | some x, some y => if x < y then .lt else if y < x then .gt else .eq
  | _, _ =>
    match a.date?, b.date? with
    | some x, some y => Ord.compare x.dayNumber y.dayNumber
    | _, _           => Ord.compare a.text b.text

/-! ## Arguments -/

def wrongArity {α : Type} (b : Builtin) (expected : String) (args : List Constant) : Except CallError α :=
  .error (.arity b.name expected args.length)

def one (b : Builtin) : List Constant → Except CallError Constant
  | [x]  => .ok x
  | args => b.wrongArity "1" args

def two (b : Builtin) : List Constant → Except CallError (Constant × Constant)
  | [x, y] => .ok (x, y)
  | args   => b.wrongArity "2" args

/-- What a view finds, or the note that it finds nothing. -/
def expect {α : Type} (b : Builtin) (note : String) : Option α → Except CallError α
  | some a => .ok a
  | none   => .error (.kind b.name note)

def number (b : Builtin) (c : Constant) : Except CallError Float :=
  b.expect ("`" ++ c.printed ++ "` is not a number") c.float?

/-! ## Calls -/

def ofComparison (holds : Ordering → Bool) (args : Constant × Constant) : Output :=
  .one (.ofBool (holds (compare args.1 args.2)))

def fold (b : Builtin) (start : Float) (f : Float → Float → Float) (args : List Constant) :
    Except CallError Output := do
  if args.isEmpty then b.wrongArity "at least 1" args
  else
    let xs ← args.mapM b.number
    return .one (.ofFloat (xs.foldl f start))

def numbers (b : Builtin) (args : List Constant) : Except CallError (Float × Float) := do
  let (x, y) ← b.two args
  return (← b.number x, ← b.number y)

/-- The integers from the first to the last. -/
def interval (first last : Int) : List Int :=
  (List.range (last + 1 - first).toNat).map (fun (i : Nat) => first + i)

def call (b : Builtin) (args : List Constant) : Except CallError Output :=
  match b with
  | isTrue  => do
    let x ← b.expect "expects a boolean" (← b.one args).bool?
    return .one (.ofBool x)
  | isFalse => do
    let x ← b.expect "expects a boolean" (← b.one args).bool?
    return .one (.ofBool (!x))
  | eq  => (b.two args).map (ofComparison (· == .eq))
  | lt  => (b.two args).map (ofComparison (· == .lt))
  | lte => (b.two args).map (ofComparison (· != .gt))
  | gt  => (b.two args).map (ofComparison (· == .gt))
  | gte => (b.two args).map (ofComparison (· != .lt))
  | add => b.fold 0.0 (· + ·) args
  | mul => b.fold 1.0 (· * ·) args
  | sub => do
    let (x, y) ← b.numbers args
    return .one (.ofFloat (x - y))
  | div => do
    let (x, y) ← b.numbers args
    if y == 0.0 then .error (.failed b.name "division by zero") else return .one (.ofFloat (x / y))
  | identity => (b.one args).map .one
  | concat   => .ok (.one (.ofText (String.join (args.map Constant.text))))
  | lower    => do return .one (.ofText (Text.lower (← b.one args).text))
  | upper    => do return .one (.ofText (Text.upper (← b.one args).text))
  | strlen   => do return .one (.ofInt (← b.one args).text.length)
  | toInt    => do return .one (.ofFloat (Constant.truncate (← b.number (← b.one args))))
  | toDecimal => do return .one (.ofFloat (← b.number (← b.one args)))
  | dateDiffDays => do
    let (x, y) ← b.two args
    let first ← b.expect "expects ISO dates" x.date?
    let last ← b.expect "expects ISO dates" y.date?
    return .one (.ofInt (first.daysUntil last))
  | split => do
    let (x, y) ← b.two args
    if y.text.isEmpty then .error (.kind b.name "separator must not be empty")
    else return .many ((Text.splitOn y.text x.text).map .ofText)
  | range => do
    let (x, y) ← b.two args
    let first ← b.expect "expects integers" x.int?
    let last ← b.expect "expects integers" y.int?
    return .many ((interval first last).map .ofInt)

end Builtin
end Credence
