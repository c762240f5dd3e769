/-!
# Writing JSON

Texts, lists and objects on one line.
-/
namespace Credence
namespace Json

def hexDigit (n : Nat) : Char := if n < 10 then Char.ofNat (48 + n) else Char.ofNat (87 + n)

/-- Control characters are escaped, by a letter where there is one. -/
def escapeChar (c : Char) : List Char :=
  if c = '"' then ['\\', '"']
  else if c = '\\' then ['\\', '\\']
  else if c = '\n' then ['\\', 'n']
  else if c = '\r' then ['\\', 'r']
  else if c = '\t' then ['\\', 't']
  else if c.toNat = 8 then ['\\', 'b']
  else if c.toNat = 12 then ['\\', 'f']
  else if c.toNat < 32 then ['\\', 'u', '0', '0', hexDigit (c.toNat / 16), hexDigit (c.toNat % 16)]
  else [c]

def quote (s : String) : String := "\"" ++ String.ofList (s.toList.flatMap escapeChar) ++ "\""

def array (items : List String) : String := "[" ++ String.intercalate "," items ++ "]"

def object (fields : List (String × String)) : String :=
  "\x7b" ++ String.intercalate "," (fields.map (fun (k, v) => quote k ++ ":" ++ v)) ++ "\x7d"

end Json
end Credence
