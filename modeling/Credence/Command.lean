import Credence.FileTree
import Credence.Report
/-!
# The command

What the command line asks for and what is answered to it, given the contents of the files it names.
-/
namespace Credence
namespace Command

structure Options where
  program : String
  config  : Option String
  digits  : Option Nat
  json    : Bool

/-- What was written to the two outputs, and how the command ended. -/
structure Response where
  code   : Nat
  stdout : String
  stderr : String

def usage : String := "usage: problite <program> [--config <file.json>] [--digits <n>] [--json]"

/-! ## Arguments -/

/-- Options found so far, with the program file still open. -/
structure Draft where
  program : Option String
  config  : Option String
  digits  : Option Nat
  json    : Bool

def readArgs : Draft → List String → Except String Draft
  | o, []                   => .ok o
  | o, "--json" :: args     => readArgs { o with json := true } args
  | o, "--config" :: args   =>
    match args with
    | []           => .error "--config needs a file"
    | file :: args => readArgs { o with config := some file } args
  | o, "--digits" :: args   =>
    match args with
    | []        => .error "--digits needs a number"
    | n :: args =>
      match Decimal.readNat? (Decimal.wordBound 32) n with
      | none   => .error ("bad digit count `" ++ n ++ "`")
      | some d => readArgs { o with digits := some d } args
  | o, arg :: args          =>
    if o.program.isNone then readArgs { o with program := some arg } args
    else .error ("unexpected argument `" ++ arg ++ "`")

def Options.read (args : List String) : Except String Options := do
  let o ← readArgs ⟨none, none, none, false⟩ args
  match o.program with
  | none   => throw "missing program file"
  | some p => return ⟨p, o.config, o.digits, o.json⟩

/-! ## Answers -/

/-- The contents of a file, or why there are none. -/
abbrev Contents := Except FileError String

def haltMessage : Run.Halt → String
  | .refused e  => e.message
  | .unfinished => "the query did not come to an end"

/-- The lines printed for some queries, and the message that ended them early if one did. -/
def answers (kb : KnowledgeBase Double) (settings : Settings) (o : Options) :
    List (Literal Double) → List String × Option String
  | []      => ([], none)
  | q :: qs =>
    match Report.ofQuery kb settings o.digits q with
    | .error h => ([], some (haltMessage h))
    | .ok r    =>
      let (lines, trouble) := answers kb settings o qs
      ((if o.json then [r.json] else r.lines) ++ lines, trouble)

def settingsFrom : Option Contents → Except String Settings
  | none          => .ok .default
  | some contents => do (Settings.read (← contents.mapError FileError.message)).mapError Error.message

/-- Reads the settings, then the program, then answers its queries. -/
def outcome (o : Options) (config : Option Contents) (program : Contents) : List String × Option String :=
  let prepared : Except String (Settings × KnowledgeBase Double × List (Literal Double)) := do
    let settings ← settingsFrom config
    let text ← program.mapError FileError.message
    let (queries, kb) := (KnowledgeBase.empty .empty).load text
    return (settings, kb, ← queries.mapError Error.message)
  match prepared with
  | .error e                   => ([], some e)
  | .ok (settings, kb, queries) => answers kb settings o queries

def unlines (lines : List String) : String := String.join (lines.map (fun l => l ++ "\n"))

def respond (o : Options) (config : Option Contents) (program : Contents) : Response :=
  match outcome o config program with
  | (lines, none)         => ⟨0, unlines lines, ""⟩
  | (lines, some trouble) => ⟨1, unlines lines, "problite: " ++ trouble ++ "\n"⟩

/-- The response to arguments that make no sense. -/
def misuse (note : String) : Response := ⟨2, "", note ++ "\n" ++ usage ++ "\n"⟩

end Command
end Credence
