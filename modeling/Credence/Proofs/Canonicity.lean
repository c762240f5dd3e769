import Credence.Proofs.Building
import Credence.Proofs.Reordering
/-!
# Handles as functions

Whatever is done to a diagram that starts out empty, with handles that are live at the time, it stays in order: no node
twice, none with equal branches, one order along every path, free slots free and a memo of true results.  So its handles
are its functions (`canonical_of_reached`).
-/
namespace Credence
namespace Diagram

variable {d : Diagram} {f g : Handle} {n : Node}

/-- What can be done to a diagram. -/
inductive Operation where
  | var (v : Nat)
  | newVar
  | ite (f g h : Handle)
  | not (f : Handle)
  | and (f g : Handle)
  | or (f g : Handle)
  | andAll (fs : List Handle)
  | orAll (fs : List Handle)
  | restrict (f : Handle) (v : Nat) (value : Bool)
  | reduce (graph : Graph) (root : Nat)
  | swap (level : Nat)
  | moveVar (v target : Nat)
  | sift
  | reference (f : Handle)
  | dereference (f : Handle)
  | collect
deriving DecidableEq

namespace Operation

/-- The functions an operation is about. -/
def operands : Operation → List Handle
  | ite f g h      => [f, g, h]
  | and f g        => [f, g]
  | or f g         => [f, g]
  | not f          => [f]
  | restrict f _ _ => [f]
  | reference f    => [f]
  | dereference f  => [f]
  | andAll fs      => fs
  | orAll fs       => fs
  | _              => []

/-- The diagram afterwards.  A swap that is refused changes nothing. -/
def apply (d : Diagram) : Operation → Diagram
  | var v              => (d.var v).2
  | newVar             => d.newVar.2
  | ite f g h          => (d.ite f g h).2
  | not f              => (d.not f).2
  | and f g            => (d.and f g).2
  | or f g             => (d.or f g).2
  | andAll fs          => (d.andAll fs).2
  | orAll fs           => (d.orAll fs).2
  | restrict f v value => (d.restrict f v value).2
  | reduce graph root  => (d.reduce graph root).2
  | swap level         => match d.swap level with
    | .ok d'   => d'
    | .error _ => d
  | moveVar v target   => (d.moveVar v target).2
  | sift               => d.sift.2
  | reference f        => d.reference f
  | dereference f      => d.dereference f
  | collect            => d.collect.2

end Operation

/-- The diagrams that operations on live handles lead to. -/
inductive Reached (capacity : Nat) (growth : Float) : Diagram → Prop
  | empty : Reached capacity growth (.empty capacity growth)
  | step {d : Diagram} (op : Operation) : Reached capacity growth d → (∀ f ∈ op.operands, d.Live f) →
    Reached capacity growth (op.apply d)

theorem apply_swap (hd : d.Ready) (level : Nat) : d.Reorders ((Operation.swap level).apply d) := by
  simp only [Operation.apply]
  split
  · rename_i h
    exact swap_spec hd h
  · exact hd.reorders

/-- **Every operation on live handles keeps a diagram in order.** -/
theorem Ready.apply (hd : d.Ready) (op : Operation) (hop : ∀ f ∈ op.operands, d.Live f) : (op.apply d).Ready := by
  cases op with
  | var v => exact (var_spec hd v).1
  | newVar => exact (var_spec hd d.varCount).1
  | ite f g h =>
    obtain ⟨hf, hg, hh⟩ : d.Live f ∧ d.Live g ∧ d.Live h := by simpa [Operation.operands] using hop
    exact (ite_spec hd hf hg hh).ready
  | not f => exact (not_spec hd (hop f List.mem_cons_self)).ready
  | and f g =>
    obtain ⟨hf, hg⟩ : d.Live f ∧ d.Live g := by simpa [Operation.operands] using hop
    exact (and_spec hd hf hg).ready
  | or f g =>
    obtain ⟨hf, hg⟩ : d.Live f ∧ d.Live g := by simpa [Operation.operands] using hop
    exact (or_spec hd hf hg).ready
  | andAll fs => exact (andAll_spec hd hop).ready
  | orAll fs => exact (orAll_spec hd hop).ready
  | restrict f v value => exact (restrict_spec hd (hop f List.mem_cons_self)).ready
  | reduce graph root => exact (reduce_spec hd graph root).1.ready
  | swap level =>
    exact (apply_swap hd level).ready
  | moveVar v target => exact (moveVar_spec hd v target).ready
  | sift => exact (sift_spec hd).ready
  | reference f => exact hd.setRefs _
  | dereference f => exact hd.setRefs _
  | collect => exact (collect_spec hd).1

theorem Reached.ready {capacity : Nat} {growth : Float} (h : Reached capacity growth d) : d.Ready := by
  induction h with
  | empty => exact ready_empty capacity growth
  | step op _ hop ih => exact ih.apply op hop

/-- **In every diagram that can be reached, live handles are equal exactly when their functions are**, and the diagram
and its memo are in order. -/
theorem canonical_of_reached {capacity : Nat} {growth : Float} (h : Reached capacity growth d) :
    d.Ready ∧ ∀ f g, d.Live f → d.Live g → (f = g ↔ ∀ a, d.eval f a = d.eval g a) := by
  refine ⟨h.ready, fun f g hf hg => ⟨?_, h.ready.valid.canonical hf hg⟩⟩
  rintro rfl a
  rfl

namespace Exchanged

/-- Two variables, their conjunction, and then the other order. -/
def start : Diagram := .empty 4 1.5
def x : Handle × Diagram := start.var 0
def y : Handle × Diagram := x.2.var 1
def xy : Handle × Diagram := y.2.and x.1 y.1
def turned : Diagram := (Operation.swap 0).apply xy.2
def yx : Handle × Diagram := turned.and y.1 x.1

theorem xy_spec : Reached 4 1.5 xy.2 ∧ xy.2.Live xy.1 ∧ xy.2.Live x.1 ∧ xy.2.Live y.1 ∧
    ∀ a, xy.2.eval xy.1 a = (a 0 && a 1) ∧ xy.2.eval x.1 a = a 0 ∧ xy.2.eval y.1 a = a 1 := by
  have h0 : Reached 4 1.5 start := .empty
  obtain ⟨hd₁, -, -, -, hx, hvx⟩ := var_spec h0.ready 0
  have h1 : Reached 4 1.5 x.2 := h0.step (.var 0) (fun f hf => nomatch hf)
  obtain ⟨hd₂, hw, -, -, hy, hvy⟩ := var_spec h1.ready 1
  have h2 : Reached 4 1.5 y.2 := h1.step (.var 1) (fun f hf => nomatch hf)
  have hx₂ : y.2.Live x.1 := hw.live hx
  have hb := and_spec hd₂ hx₂ hy
  have h3 : Reached 4 1.5 xy.2 := h2.step (.and x.1 y.1) (fun f hf => by
    rcases List.mem_cons.1 hf with rfl | hf
    · exact hx₂
    · rcases List.mem_cons.1 hf with rfl | hf
      · exact hy
      · cases hf)
  have hvx₂ : ∀ a, y.2.eval x.1 a = a 0 := fun a =>
    (hw.eval hd₁.valid.sound hd₂.valid.sound hd₁.valid.graded hd₂.valid.graded hx).trans (hvx a)
  refine ⟨h3, hb.live, hb.keeps.within.live hx₂, hb.keeps.within.live hy, fun a => ⟨?_, ?_, ?_⟩⟩
  · rw [← hvx₂ a, ← hvy a]
    exact hb.eval a
  · exact (hb.keeps.eval hd₂.valid hb.ready.valid hx₂).trans (hvx₂ a)
  · exact (hb.keeps.eval hd₂.valid hb.ready.valid hy).trans (hvy a)

/-- The two variables and their conjunction, after the order was turned over. -/
theorem turned_spec : Reached 4 1.5 turned ∧ turned.Live xy.1 ∧ turned.Live x.1 ∧ turned.Live y.1 ∧
    ∀ a, turned.eval xy.1 a = (a 0 && a 1) ∧ turned.eval x.1 a = a 0 ∧ turned.eval y.1 a = a 1 := by
  obtain ⟨h, hxy, hx, hy, hval⟩ := xy_spec
  have hr := apply_swap h.ready 0
  refine ⟨h.step (.swap 0) (fun f hf => nomatch hf), hr.live _ hxy, hr.live _ hx, hr.live _ hy, fun a => ?_⟩
  exact ⟨(hr.same _ hxy a).trans (hval a).1, (hr.same _ hx a).trans (hval a).2.1, (hr.same _ hy a).trans (hval a).2.2⟩

theorem yx_spec : Reached 4 1.5 yx.2 ∧ yx.2.Live xy.1 ∧ yx.2.Live yx.1 ∧ ∀ a, yx.2.eval xy.1 a = yx.2.eval yx.1 a := by
  obtain ⟨h, hxy, hx, hy, hval⟩ := turned_spec
  have hb := and_spec h.ready hy hx
  refine ⟨h.step (.and y.1 x.1) (fun f hf => ?_), hb.keeps.within.live hxy, hb.live, fun a => ?_⟩
  · rcases List.mem_cons.1 hf with rfl | hf
    · exact hy
    · rcases List.mem_cons.1 hf with rfl | hf
      · exact hx
      · cases hf
  · have hleft : yx.2.eval xy.1 a = (a 0 && a 1) := (hb.keeps.eval h.ready.valid hb.ready.valid hxy).trans (hval a).1
    have hright : yx.2.eval yx.1 a = (a 1 && a 0) := by
      rw [← (hval a).2.1, ← (hval a).2.2]
      exact hb.eval a
    rw [hleft, hright, Bool.and_comm]

end Exchanged

/-- A conjunction has the same handle before and after its variables were exchanged. -/
theorem canonical_of_reached_exchanged : Reached 4 1.5 Exchanged.yx.2 ∧ Exchanged.yx.2.Live Exchanged.xy.1 ∧
    Exchanged.yx.2.Live Exchanged.yx.1 ∧ Exchanged.xy.1 = Exchanged.yx.1 := by
  obtain ⟨h, h1, h2, heq⟩ := Exchanged.yx_spec
  exact ⟨h, h1, h2, ((canonical_of_reached h).2 _ _ h1 h2).2 heq⟩

end Diagram
end Credence
