/-!
# White space

The characters with the White_Space property, and trimming by them.  `Char.isWhitespace` knows six of them only, and a
pasted query may carry a no-break or an ideographic space at its ends.
-/
namespace Credence
namespace Text

/-- The first and last code points of each run of white space. -/
def blankRuns : List (Nat × Nat) :=
  [(0x9, 0xD), (0x20, 0x20), (0x85, 0x85), (0xA0, 0xA0), (0x1680, 0x1680), (0x2000, 0x200A), (0x2028, 0x2029),
   (0x202F, 0x202F), (0x205F, 0x205F), (0x3000, 0x3000)]

def isBlank (c : Char) : Bool :=
  blankRuns.any (fun r => r.1 ≤ c.toNat && c.toNat ≤ r.2)

def trimStart (cs : List Char) : List Char :=
  cs.dropWhile isBlank

def trimEnd (cs : List Char) : List Char :=
  (trimStart cs.reverse).reverse

def trim (s : String) : String :=
  String.ofList (trimEnd (trimStart s.toList))

/-! ## Leading text

Names and constants are told apart by how they start, so the two questions about a leading text are asked on the
characters, where `List.isPrefixOf?` gives both answers at once. -/

/-- What follows `lead` in `s`, when `s` starts with it. -/
def after? (lead s : String) : Option String :=
  (lead.toList.isPrefixOf? s.toList).map String.ofList

def startsWith (lead s : String) : Bool :=
  lead.toList.isPrefixOf s.toList

end Text
end Credence
