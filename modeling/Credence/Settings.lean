import Credence.Error
import Credence.Json.Reader
/-!
# Settings

The tunables of the engine.  A document names the ones it changes, or lists them from the first on; the rest keep their
defaults.  Names that are not known are passed over, and a known one stands at most once.
-/
namespace Credence

structure Settings where
  /-- Stop a query once it has this many answers. -/
  maxSamples        : Option Nat
  /-- A negation whose complement rounds to zero at this many decimals is dropped. -/
  negationDigits    : Nat
  /-- Keep only the shortest of the proofs made of certain literals. -/
  pruneCertain      : Bool
  bloomItems        : Nat
  bloomRate         : Float
  cacheCapacity     : Nat
  /-- How much larger than the best a diagram may grow while a variable is sifted. -/
  siftingGrowth     : Float
  siftBeforeCount   : Bool

namespace Settings

def default : Settings :=
  { maxSamples := none
    negationDigits := 6
    pruneCertain := true
    bloomItems := 1024
    bloomRate := 0.01
    cacheCapacity := 65536
    siftingGrowth := 1.2
    siftBeforeCount := false }

/-! ## Fields -/

/-- A natural number that fits a word of so many bits. -/
def natValue? (bits : Nat) : Json.Value → Option Nat
  | .number n => n.nat? (Decimal.wordBound bits)
  | _         => none

def floatValue? : Json.Value → Option Float
  | .number n => n.float?
  | _         => none

def boolValue? : Json.Value → Option Bool
  | .bool b => some b
  | _       => none

def sampleValue? : Json.Value → Option (Option Nat)
  | .null => some none
  | v     => (natValue? 64 v).map some

/-- A named tunable and how a value changes it. -/
structure Field where
  name : String
  set  : Settings → Json.Value → Option Settings

/-- In the order in which a list gives them. -/
def fields : List Field :=
  [⟨"max_samples", fun s v => (sampleValue? v).map (fun n => { s with maxSamples := n })⟩,
   ⟨"negation_digits", fun s v => (natValue? 32 v).map (fun n => { s with negationDigits := n })⟩,
   ⟨"prune_certain_proofs", fun s v => (boolValue? v).map (fun b => { s with pruneCertain := b })⟩,
   ⟨"bloom_expected_items", fun s v => (natValue? 64 v).map (fun n => { s with bloomItems := n })⟩,
   ⟨"bloom_false_positive_rate", fun s v => (floatValue? v).map (fun x => { s with bloomRate := x })⟩,
   ⟨"ite_cache_capacity", fun s v => (natValue? 64 v).map (fun n => { s with cacheCapacity := n })⟩,
   ⟨"sifting_max_growth", fun s v => (floatValue? v).map (fun x => { s with siftingGrowth := x })⟩,
   ⟨"sift_before_count", fun s v => (boolValue? v).map (fun b => { s with siftBeforeCount := b })⟩]

/-! ## Documents -/

/-- One value for each of the first fields. -/
def ofList : List Field → List Json.Value → Settings → Option Settings
  | _,       [],      s => some s
  | [],      _ :: _,  _ => none
  | f :: fs, v :: vs, s => (f.set s v).bind (ofList fs vs)

/-- Named values; `seen` holds the known names so far. -/
def ofMembers : List String → List (List Char × Json.Value) → Settings → Option Settings
  | _,    [],           s => some s
  | seen, (k, v) :: ms, s => do
    let name := String.ofList (← Json.decode k)
    match fields.find? (fun f => f.name == name) with
    | none   => ofMembers seen ms s
    | some f => if seen.contains name then none else ofMembers (name :: seen) ms (← f.set s v)

def ofValue? : Json.Value → Option Settings
  | .list vs   => ofList fields vs default
  | .object ms => ofMembers [] ms default
  | _          => none

def read (text : String) : Except Error Settings :=
  match (Json.read? text).bind ofValue? with
  | some s => .ok s
  | none   => .error .badSettings

end Settings
end Credence
