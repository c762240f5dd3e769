import Credence.Command
/-!
# Command line

Reads the files that the arguments name and prints the response.
-/
namespace Credence
namespace Command

/-- The number of an error, which some calls of the system give with a minus. -/
def errorCode (code : UInt32) : Nat := min code.toNat (0 - code).toNat

def fileError : IO.Error → FileError
  | .noFileOrDirectory _ code report => .ofCode report (errorCode code)
  | .permissionDenied _ code report  => .ofCode report (errorCode code)
  | .inappropriateType _ code report => .ofCode report (errorCode code)
  | .invalidArgument _ code report   => .ofCode report (errorCode code)
  | e                                => .ofCode (toString e) 0

def readContents (file : String) : IO Contents := do
  match ← (IO.FS.readBinFile file).toBaseIO with
  | .error e  => return .error (fileError e)
  | .ok bytes => return ((String.fromUTF8? bytes).map .ok).getD (.error .notText)

def execute (args : List String) : IO Response := do
  match Options.read args with
  | .error note => return misuse note
  | .ok o       =>
    let config ← o.config.mapM readContents
    let program ← readContents o.program
    return respond o config program

end Command
end Credence

def main (args : List String) : IO UInt32 := do
  let r ← Credence.Command.execute args
  IO.print r.stdout
  IO.eprint r.stderr
  return UInt32.ofNat r.code
