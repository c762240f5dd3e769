import Credence.Diagram.Basic
/-!
# If-then-else and what is built on it

`ite f g h` splits its operands on the highest variable any of them tests, and goes on with the branches.  Each step
goes at least one level down, so the number of variables bounds the depth; the wrappers pass that bound.
-/
namespace Credence
namespace Diagram

/-- If-then-else for operands that lie less than `depth` levels above the terminals. -/
def iteWithin : Nat → Diagram → Handle → Handle → Handle → Handle × Diagram
  | depth, d, f, g, h =>
    if f = .top then (g, d)
    else if f = .bot then (h, d)
    else if g = h then (g, d)
    else if g = .top ∧ h = .bot then (f, d)
    else
      let (known, cache) := d.cache.get (f, g, h)
      let d := { d with cache := cache }
      match known, depth with
      | some r, _         => (r, d)
      | none,   0         => (h, d)
      | none,   depth + 1 =>
        let v := d.varAt.getD (min (d.level f) (min (d.level g) (d.level h))) 0
        let (f0, f1) := d.cofactors f v
        let (g0, g1) := d.cofactors g v
        let (h0, h1) := d.cofactors h v
        let (high, d) := iteWithin depth d f1 g1 h1
        let (low, d) := iteWithin depth d f0 g0 h0
        let (r, d) := d.make ⟨v, low, high⟩
        (r, { d with cache := d.cache.insert (f, g, h) r })

def ite (d : Diagram) (f g h : Handle) : Handle × Diagram := iteWithin (d.varCount + 1) d f g h

/-! ## Connectives -/

def not (d : Diagram) (f : Handle) : Handle × Diagram := d.ite f .bot .top

def and (d : Diagram) (f g : Handle) : Handle × Diagram := d.ite f g .bot

def or (d : Diagram) (f g : Handle) : Handle × Diagram := d.ite f .top g

/-- The conjunction of a list, from the left. -/
def andAll (d : Diagram) (fs : List Handle) : Handle × Diagram :=
  fs.foldl (fun (acc, d) f => d.and acc f) (.top, d)

/-- The disjunction of a list, from the left. -/
def orAll (d : Diagram) (fs : List Handle) : Handle × Diagram :=
  fs.foldl (fun (acc, d) f => d.or acc f) (.bot, d)

/-! ## Fixing a variable -/

/-- Fixes `v`, which is at `level`, in `f`; `memo` holds the results so far. -/
def restrictWithin (v level : Nat) (value : Bool) :
    Nat → Diagram → Std.HashMap Handle Handle → Handle → Handle × Diagram × Std.HashMap Handle Handle
  | depth, d, memo, f =>
    match d.node? f, depth with
    | none,   _         => (f, d, memo)
    | some _, 0         => (f, d, memo)
    | some n, depth + 1 =>
      if level < d.level f then (f, d, memo)
      else
        match memo[f]? with
        | some r => (r, d, memo)
        | none   =>
          if n.var = v then
            let r := if value then n.high else n.low
            (r, d, memo.insert f r)
          else
            let (low, d, memo) := restrictWithin v level value depth d memo n.low
            let (high, d, memo) := restrictWithin v level value depth d memo n.high
            let (r, d) := d.make ⟨n.var, low, high⟩
            (r, d, memo.insert f r)

/-- Fixes `v` to `value` in `f`. -/
def restrict (d : Diagram) (f : Handle) (v : Nat) (value : Bool) : Handle × Diagram :=
  match d.levelOf[v]? with
  | none       => (f, d)
  | some level =>
    let (r, d, _) := restrictWithin v level value (d.varCount + 1) d ∅ f
    (r, d)

end Diagram
end Credence
