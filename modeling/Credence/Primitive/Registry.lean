import Credence.Primitive.Builtin
/-!
# Registries

The built-in primitives and the extensions an application adds to them.  A built-in name cannot be taken.
-/
namespace Credence

structure Extension where
  name          : String
  materializing : Bool
  call          : List Constant → Except CallError Output

structure Registry where
  extensions : List Extension

namespace Registry

def empty : Registry := ⟨[]⟩

def extension? (r : Registry) (name : String) : Option Extension :=
  r.extensions.find? (fun e => e.name == name)

/-- Adds an extension, in the place of an earlier one of that name. -/
def register (r : Registry) (e : Extension) : Registry :=
  if (Builtin.ofName? e.name).isSome then r
  else ⟨r.extensions.filter (fun f => f.name != e.name) ++ [e]⟩

/-- Extensions are functions. -/
def kind (_ : Registry) (name : String) : PrimitiveKind :=
  match Builtin.ofName? name with
  | some b => b.kind
  | none   => .function

def isMaterializing (r : Registry) (name : String) : Bool :=
  match Builtin.ofName? name with
  | some b => b.isMaterializing
  | none   => (r.extension? name).any Extension.materializing

def contains (r : Registry) (name : String) : Bool :=
  (Builtin.ofName? name).isSome || (r.extension? name).isSome

def call (r : Registry) (name : String) (args : List Constant) : Except CallError Output :=
  match Builtin.ofName? name with
  | some b => b.call args
  | none   =>
    match r.extension? name with
    | some e => e.call args
    | none   => .error (.unknown name)

/-- The names of the extensions, sorted and quoted. -/
def summary (r : Registry) : String :=
  let names := (r.extensions.map Extension.name).mergeSort (fun a b => a ≤ b)
  "Primitives \x7b extensions: [" ++ String.intercalate ", " (names.map (fun n => "\"" ++ n ++ "\"")) ++ "] \x7d"

end Registry
end Credence
