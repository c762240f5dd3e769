import Credence.Text.CaseTable
/-!
# Lower and upper case

Full case mapping of a text, where one character may become several (the sharp s becomes `SS`).  Two rules depend on
more than the character: a capital sigma at the end of a word becomes the final form, and nothing else does.
-/
namespace Credence
namespace Text

def CaseRun.covers (r : CaseRun) (n : Nat) : Bool :=
  r.first ≤ n && n ≤ r.last && (n - r.first) % r.step == 0

/-- The mapping of one code point beyond ASCII; a code point no table lists maps to itself. -/
def mapCode (runs : List CaseRun) (long : List (Nat × List Nat)) (n : Nat) : List Nat :=
  match long.lookup n with
  | some ns => ns
  | none    =>
    match runs.find? (fun r => r.covers n) with
    | some r => [(n + r.shift).toNat]
    | none   => [n]

def lowerChar (c : Char) : List Char :=
  if c.toNat < 0x80 then [c.toLower] else (mapCode lowerRuns lowerLong c.toNat).map Char.ofNat

def upperChar (c : Char) : List Char :=
  if c.toNat < 0x80 then [c.toUpper] else (mapCode upperRuns upperLong c.toNat).map Char.ofNat

def inRuns (runs : List (Nat × Nat)) (c : Char) : Bool :=
  runs.any (fun r => r.1 ≤ c.toNat && c.toNat ≤ r.2)

/-! ## The final sigma -/

/-- The first character that is not case-ignorable is a cased letter. -/
def reachesCased (cs : List Char) : Bool :=
  match cs.dropWhile (inRuns ignorableRuns) with
  | []     => false
  | c :: _ => inRuns casedRuns c

/-- A sigma ends a word when a letter stands before it and none after it. -/
def sigma (before behind : List Char) : Char :=
  if reachesCased before && !reachesCased behind then 'ς' else 'σ'

/-- Lower case, with the characters already passed in reverse order at hand. -/
def lowerFrom : List Char → List Char → List Char
  | _,      []      => []
  | before, c :: cs =>
    (if c = 'Σ' then [sigma before cs] else lowerChar c) ++ lowerFrom (c :: before) cs

def lower (s : String) : String :=
  String.ofList (lowerFrom [] s.toList)

def upper (s : String) : String :=
  String.ofList (s.toList.flatMap upperChar)

end Text
end Credence
