import Credence.Json.Value
/-!
# Reading JSON

A reader for whole documents.  It accepts exactly the grammar: no trailing commas, no leading zeros, no control
characters in texts, and nothing but white space around the one value.
-/
namespace Credence
namespace Json

abbrev Reader (α : Type) := List Char → Option (α × List Char)

def skip (cs : List Char) : List Char :=
  cs.dropWhile (fun c => c == ' ' || c == '\n' || c == '\t' || c == '\r')

def word {α : Type} (s : String) (a : α) : Reader α := fun cs => (s.toList.isPrefixOf? cs).map (fun rest => (a, rest))

/-! ## Texts -/

def hex? (c : Char) : Option Nat :=
  if c.isDigit then some (c.toNat - 48)
  else if 'a' ≤ c ∧ c ≤ 'f' then some (c.toNat - 87)
  else if 'A' ≤ c ∧ c ≤ 'F' then some (c.toNat - 55)
  else none

/-- What a one-letter escape stands for. -/
def escape? : Char → Option Char
  | '"'  => some '"'
  | '\\' => some '\\'
  | '/'  => some '/'
  | 'b'  => some (Char.ofNat 8)
  | 'f'  => some (Char.ofNat 12)
  | 'n'  => some '\n'
  | 'r'  => some '\r'
  | 't'  => some '\t'
  | _    => none

/-- The characters up to the closing quote, with their escapes. -/
def untilQuote : List Char → Option (List Char × List Char)
  | []              => none
  | '\\' :: 'u' :: a :: b :: c :: d :: cs =>
    if [a, b, c, d].all (fun x => (hex? x).isSome) then
      (untilQuote cs).map (fun (raw, rest) => ('\\' :: 'u' :: a :: b :: c :: d :: raw, rest))
    else none
  | '\\' :: c :: cs =>
    if (escape? c).isSome then (untilQuote cs).map (fun (raw, rest) => ('\\' :: c :: raw, rest)) else none
  | c :: cs         =>
    if c = '"' then some ([], cs)
    else if c.toNat < 32 || c == '\\' then none
    else (untilQuote cs).map (fun (raw, rest) => (c :: raw, rest))

def text : Reader (List Char)
  | '"' :: cs => untilQuote cs
  | _         => none

/-- Four hexadecimal digits. -/
def unit? (a b c d : Char) : Option Nat := do
  return 4096 * (← hex? a) + 256 * (← hex? b) + 16 * (← hex? c) + (← hex? d)

/-- Undoes the escapes of a key.  A character beyond the basic plane is a pair of escapes; half a pair is refused. -/
def decode : List Char → Option (List Char)
  | [] => some []
  | '\\' :: 'u' :: a :: b :: c :: d :: '\\' :: 'u' :: e :: f :: g :: h :: cs => do
    let high ← unit? a b c d
    if 0xD800 ≤ high ∧ high ≤ 0xDBFF then
      let low ← unit? e f g h
      if 0xDC00 ≤ low ∧ low ≤ 0xDFFF then
        return Char.ofNat (0x10000 + 1024 * (high - 0xD800) + (low - 0xDC00)) :: (← decode cs)
      else none
    else if 0xDC00 ≤ high ∧ high ≤ 0xDFFF then none
    else return Char.ofNat high :: (← decode ('\\' :: 'u' :: e :: f :: g :: h :: cs))
  | '\\' :: 'u' :: a :: b :: c :: d :: cs => do
    let n ← unit? a b c d
    if 0xD800 ≤ n ∧ n ≤ 0xDFFF then none else return Char.ofNat n :: (← decode cs)
  | '\\' :: c :: cs => do return (← escape? c) :: (← decode cs)
  | c :: cs => do return c :: (← decode cs)

/-! ## Numbers -/

def digits (cs : List Char) : Option (List Char × List Char) :=
  let ds := cs.takeWhile Char.isDigit
  if ds.isEmpty then none else some (ds, cs.dropWhile Char.isDigit)

/-- No zero stands in front of another digit. -/
def whole (cs : List Char) : Option (List Char × List Char) :=
  match digits cs with
  | some ('0' :: _ :: _, _) => none
  | found                   => found

def fraction : Reader (Option (List Char))
  | '.' :: cs => (digits cs).map (fun (ds, rest) => (some ds, rest))
  | cs        => some (none, cs)

def exponent : Reader (Option (Bool × List Char))
  | [] => some (none, [])
  | c :: cs =>
    if c = 'e' ∨ c = 'E' then
      match cs with
      | '+' :: cs => (digits cs).map (fun (ds, rest) => (some (false, ds), rest))
      | '-' :: cs => (digits cs).map (fun (ds, rest) => (some (true, ds), rest))
      | cs        => (digits cs).map (fun (ds, rest) => (some (false, ds), rest))
    else some (none, c :: cs)

def number : Reader Number := fun cs => do
  let (negative, cs) :=
    match cs with
    | '-' :: cs => (true, cs)
    | cs        => (false, cs)
  let (w, cs) ← whole cs
  let (f, cs) ← fraction cs
  let (e, cs) ← exponent cs
  return (⟨negative, w, f, e⟩, cs)

/-! ## Values

The bound is on the nesting and the members still to read; the length of the document is enough. -/

mutual

def value : Nat → Reader Value
  | 0,        _  => none
  | fuel + 1, cs =>
    match cs with
    | '[' :: rest =>
      match skip rest with
      | ']' :: rest => some (.list [], rest)
      | rest        => (elements fuel rest).map (fun (vs, rest) => (.list vs, rest))
    | '\x7b' :: rest =>
      match skip rest with
      | '\x7d' :: rest => some (.object [], rest)
      | rest           => (members fuel rest).map (fun (fs, rest) => (.object fs, rest))
    | '"' :: rest => (untilQuote rest).map (fun (_, rest) => (.text, rest))
    | _ =>
      word "null" .null cs <|> word "true" (.bool true) cs <|> word "false" (.bool false) cs
        <|> (number cs).map (fun (n, rest) => (.number n, rest))

/-- Values up to the closing bracket. -/
def elements : Nat → Reader (List Value)
  | 0,        _  => none
  | fuel + 1, cs =>
    match value fuel cs with
    | none           => none
    | some (v, rest) =>
      match skip rest with
      | ']' :: rest => some ([v], rest)
      | ',' :: rest => (elements fuel (skip rest)).map (fun (vs, rest) => (v :: vs, rest))
      | _           => none

/-- Keys and values up to the closing brace. -/
def members : Nat → Reader (List (List Char × Value))
  | 0,        _  => none
  | fuel + 1, cs =>
    match text cs with
    | none           => none
    | some (k, rest) =>
      match skip rest with
      | ':' :: rest =>
        match value fuel (skip rest) with
        | none           => none
        | some (v, rest) =>
          match skip rest with
          | '\x7d' :: rest => some ([(k, v)], rest)
          | ',' :: rest    => (members fuel (skip rest)).map (fun (fs, rest) => ((k, v) :: fs, rest))
          | _              => none
      | _ => none

end

/-- The value a text consists of. -/
def read? (s : String) : Option Value :=
  match value (2 * s.length + 1) (skip s.toList) with
  | some (v, rest) => if (skip rest).isEmpty then some v else none
  | none           => none

end Json
end Credence
