import Credence.Body.Flow
/-!
# Body order

A rule's body is put into an order in which every literal runs after what it waits for.  The order is built from the
front: of the literals that wait for nothing still unplaced, the least is placed.  Preferences only break ties, so they
never close a cycle; a body whose literals wait for each other is refused.
-/
namespace Credence

/-- A body literal with its position in the rule as written. -/
structure Step (W : Type) where
  position : Nat
  literal  : Literal W
  flow     : Flow

namespace Step

variable {W : Type}

def number (r : Registry) : Nat → List (Literal W) → List (Step W)
  | _, []      => []
  | i, l :: ls => ⟨i, l, .of r l⟩ :: number r (i + 1) ls

/-- Nothing unplaced has to run before `s`. -/
def isFree (pending : List (Step W)) (s : Step W) : Bool :=
  pending.all (fun t => t.position == s.position || !t.flow.precedes s.flow)

/-- The rank decides, and the position between equals. -/
def goesBefore (s t : Step W) : Bool :=
  s.flow.rank < t.flow.rank || (s.flow.rank == t.flow.rank && s.position < t.position)

def least : List (Step W) → Option (Step W)
  | []      => none
  | s :: ss =>
    match least ss with
    | none   => some s
    | some t => some (if t.goesBefore s then t else s)

/-- The step to place next. -/
def next? (pending : List (Step W)) : Option (Step W) := least (pending.filter (isFree pending))

/-- Places at most `count` steps, and all of them or none. -/
def schedule : Nat → List (Step W) → Option (List (Step W))
  | _,         []      => some []
  | 0,         _ :: _  => none
  | count + 1, s :: ss =>
    (next? (s :: ss)).bind (fun t =>
      (schedule count ((s :: ss).filter (fun u => u.position != t.position))).map (t :: ·))

end Step

namespace Clause

variable {W : Type} [Weight W]

/-- The same rule with its body in running order. -/
def reorder (r : Registry) (c : Clause W) : Except Error (Clause W) :=
  match Step.schedule c.body.length (Step.number r 0 c.body) with
  | some steps => .ok { c with body := steps.map Step.literal }
  | none       => .error (.cyclicBody c.text)

end Clause
end Credence
