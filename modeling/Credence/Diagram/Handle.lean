/-!
# Handles

The name of a Boolean function in its diagram.  The two constant functions have the first two names.
-/
namespace Credence

structure Handle where
  index : Nat
deriving DecidableEq, Hashable

namespace Handle

def bot : Handle := ⟨0⟩
def top : Handle := ⟨1⟩

def ofBool (b : Bool) : Handle := if b then top else bot

def isTerminal (f : Handle) : Bool := f.index < 2

end Handle
end Credence
