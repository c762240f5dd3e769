/-!
# Replacing, splitting and the escapes of quoted text

Replacement and splitting look for the leftmost occurrence and go on behind it.  The escapes of a quoted constant are
undone by six such replacements in turn, so what one of them produces can be read by the next.
-/
namespace Credence
namespace Text

/-- Scans `cs` with `held` in reverse behind it: the pieces between the occurrences of `sep`.  `fuel` bounds the
characters still to scan. -/
def splitFrom (sep : List Char) : Nat → List Char → List Char → List (List Char)
  | 0,        held, cs => [held.reverse ++ cs]
  | _ + 1,    held, [] => [held.reverse]
  | fuel + 1, held, c :: cs =>
    match sep.isPrefixOf? (c :: cs) with
    | some rest => held.reverse :: splitFrom sep fuel [] rest
    | none      => splitFrom sep fuel (c :: held) cs

/-- The pieces of `s` between the occurrences of a separator that is not empty. -/
def splitOn (sep s : String) : List String :=
  (splitFrom sep.toList (s.length + 1) [] s.toList).map String.ofList

/-- Every occurrence of `old`, which is not empty, exchanged for `new`. -/
def replace (old new s : String) : String :=
  String.intercalate new (splitOn old s)

/-- The text a quoted constant stands for. -/
def unescape (s : String) : String :=
  replace "\\\\" "\\"
    (replace "\\'" "'"
      (replace "\\\"" "\""
        (replace "\\r" "\r"
          (replace "\\t" "\t"
            (replace "\\n" "\n" s)))))

end Text
end Credence
