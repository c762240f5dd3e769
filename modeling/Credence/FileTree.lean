import Credence.Text.Escape
/-!
# Files by path

The files a command can name, and what a path leads to among them.  A path is walked one name at a time: each name but
the last has to be a folder, a slash behind the last one asks for a folder too, and what is read in the end has to be a
file.
-/
namespace Credence

/-- Why a file could not be read. -/
inductive FileError where
  | missing
  | notFolder
  | isFolder
  | nameTooLong
  | denied
  /-- Its bytes are no text. -/
  | notText
  /-- Any other report of the system, with its number. -/
  | other (report : String) (code : Nat)

namespace FileError

def numbered (report : String) (code : Nat) : String := report ++ " (os error " ++ toString code ++ ")"

def message : FileError → String
  | missing           => numbered "No such file or directory" 2
  | notFolder         => numbered "Not a directory" 20
  | isFolder          => numbered "Is a directory" 21
  | nameTooLong       => numbered "File name too long" 36
  | denied            => numbered "Permission denied" 13
  | notText           => "stream did not contain valid UTF-8"
  | other report code => numbered report code

/-- The error that the system has a number for. -/
def ofCode (report : String) : Nat → FileError
  | 2    => missing
  | 13   => denied
  | 20   => notFolder
  | 21   => isFolder
  | 36   => nameTooLong
  | code => other report code

end FileError

/-- Files by their names from the root down, and the folder that relative paths start from.  Every folder holds a file
or is on the way to that one. -/
structure FileTree where
  here  : List String
  files : List (List String × String)

namespace FileTree

/-- The most bytes a name has. -/
def maxName : Nat := 255

/-- The most bytes a path has. -/
def maxPath : Nat := 4095

/-- Where a path starts. -/
def start (t : FileTree) (path : String) : List String :=
  match path.toList with
  | '/' :: _ => []
  | _        => t.here

def isFolder (t : FileTree) (place : List String) : Bool :=
  place.isPrefixOf t.here || t.files.any (fun f => place.isPrefixOf f.1)

/-- Walks on from a folder by the names still ahead; `..` at the root stays there. -/
def walk (t : FileTree) : List String → List String → Except FileError String
  | _,     []            => .error .isFolder
  | place, name :: names =>
    if name = "" ∨ name = "." then walk t place names
    else if name = ".." then walk t place.dropLast names
    else if maxName < name.utf8ByteSize then .error .nameTooLong
    else
      let place := place ++ [name]
      match t.files.lookup place with
      | some text => if names.isEmpty then .ok text else .error .notFolder
      | none      => if t.isFolder place then walk t place names else .error .missing

/-- The text of the file a path leads to. -/
def read (t : FileTree) (path : String) : Except FileError String :=
  if path = "" then .error .missing
  else if maxPath < path.utf8ByteSize then .error .nameTooLong
  else t.walk (t.start path) (Text.splitOn "/" path)

/-- Puts a file where a path leads that never climbs. -/
def add (t : FileTree) (path text : String) : FileTree :=
  let names := (Text.splitOn "/" path).filter (fun name => name != "" && name != ".")
  { t with files := (t.start path ++ names, text) :: t.files }

end FileTree
end Credence
