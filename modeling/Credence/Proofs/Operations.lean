import Credence.Proofs.Canonicity
/-!
# What operations compute

In every diagram that can be reached, if-then-else, the connectives and fixing a variable give the function they are
named for, and every handle that was live before still is, with the function it had (`operations_of_reached`).  The order
the variables are in, what the memo holds and which slots are free do not matter.

A variable that was fixed is not tested any more: it does not matter to the result, and in a diagram without needless
nodes only variables that matter are tested (`Valid.not_tests_of_ignores`).
-/
namespace Credence
namespace Diagram

variable {d : Diagram} {f g h : Handle} {n : Node} {v : Nat} {value : Bool}

/-! ## Variables that do not matter -/

/-- A function that tests a variable is a node of it or has a branch that tests it. -/
theorem Tests.node (ht : d.Tests f v) : ∃ n, d.node? f = some n ∧ (n.var = v ∨ d.Tests n.low v ∨ d.Tests n.high v) := by
  obtain ⟨g, m, hr, hg, hv⟩ := ht
  cases hr with
  | refl => exact ⟨m, hg, .inl hv⟩
  | low hn hr => exact ⟨_, hn, .inr (.inl ⟨g, m, hr, hg, hv⟩)⟩
  | high hn hr => exact ⟨_, hn, .inr (.inr ⟨g, m, hr, hg, hv⟩)⟩

/-- What does not matter to a node does not matter to its branches. -/
theorem Valid.ignores_branches (hd : d.Valid) (hn : d.node? f = some n) (hi : d.Ignores f v) (hne : v ≠ n.var) :
    d.Ignores n.low v ∧ d.Ignores n.high v := by
  refine ⟨fun a x => ?_, fun a x => ?_⟩
  · rw [hd.graded.eval_low hn (hd.not_tests_low hn), hd.graded.eval_low hn (hd.not_tests_low hn),
      Function.update_comm hne, hi]
  · rw [hd.graded.eval_high hn (hd.not_tests_high hn), hd.graded.eval_high hn (hd.not_tests_high hn),
      Function.update_comm hne, hi]

/-- **A variable that does not matter is not tested.**  From the terminals up: a node's own variable matters to it. -/
theorem Valid.not_tests_of_ignores (hd : d.Valid) (hi : d.Ignores f v) : ¬ d.Tests f v := by
  induction f using hd.graded.induction with
  | leaf f hn =>
    intro ht
    obtain ⟨n, hn', -⟩ := ht.node
    rw [hn] at hn'
    cases hn'
  | node f n hn ihl ihh =>
    have hne : v ≠ n.var := by
      rintro rfl
      exact hd.not_ignores hn hi
    obtain ⟨hl, hh⟩ := hd.ignores_branches hn hi hne
    intro ht
    obtain ⟨m, hm, h⟩ := ht.node
    rw [hn] at hm
    injection hm with hm
    subst hm
    rcases h with h | h | h
    · exact hne h.symm
    · exact ihl hl h
    · exact ihh hh h

/-- A function with a variable fixed does not test it. -/
theorem restrict_not_tests (hd : d.Ready) (hf : d.Live f) :
    ¬ (d.restrict f v value).2.Tests (d.restrict f v value).1 v := by
  have hb : d.Builds (d.fixed v value f) (d.restrict f v value) := restrict_spec hd hf
  refine hb.ready.valid.not_tests_of_ignores (fun a x => ?_)
  rw [hb.eval, hb.eval, fixed, fixed, Function.update_idem]

/-! ## All operations -/

/-- What was built from `d` has the values of `value`, and the functions of `d` are as they were. -/
structure Computes (d : Diagram) (value : (Nat → Bool) → Bool) (built : Handle × Diagram) : Prop where
  live   : built.2.Live built.1
  eval   : ∀ a, built.2.eval built.1 a = value a
  others : ∀ k, d.Live k → built.2.Live k ∧ ∀ a, built.2.eval k a = d.eval k a

theorem Builds.computes {val : (Nat → Bool) → Bool} {built : Handle × Diagram} (h : d.Builds val built) (hd : d.Ready) :
    d.Computes val built :=
  ⟨h.live, h.eval, fun _ hk => ⟨h.keeps.within.live hk, fun _ => h.keeps.eval hd.valid h.ready.valid hk⟩⟩

/-- **Operations compute their functions and leave the others as they are**, in every diagram that can be reached. -/
theorem operations_of_reached {capacity : Nat} {growth : Float} (hd : Reached capacity growth d) (hf : d.Live f)
    (hg : d.Live g) (hh : d.Live h) {fs : List Handle} (hfs : ∀ f ∈ fs, d.Live f) (v : Nat) (value : Bool) :
    d.Computes (fun a => if d.eval f a then d.eval g a else d.eval h a) (d.ite f g h) ∧
    d.Computes (fun a => !d.eval f a) (d.not f) ∧
    d.Computes (fun a => d.eval f a && d.eval g a) (d.and f g) ∧
    d.Computes (fun a => d.eval f a || d.eval g a) (d.or f g) ∧
    d.Computes (fun a => fs.all (fun f => d.eval f a)) (d.andAll fs) ∧
    d.Computes (fun a => fs.any (fun f => d.eval f a)) (d.orAll fs) ∧
    d.Computes (fun a => d.eval f (Function.update a v value)) (d.restrict f v value) ∧
    ¬ (d.restrict f v value).2.Tests (d.restrict f v value).1 v := by
  have hr := hd.ready
  exact ⟨(ite_spec hr hf hg hh).computes hr, (not_spec hr hf).computes hr, (and_spec hr hf hg).computes hr,
    (or_spec hr hf hg).computes hr, (andAll_spec hr hfs).computes hr, (orAll_spec hr hfs).computes hr,
    (restrict_spec hr hf).computes hr, restrict_not_tests hr hf⟩

open Exchanged in
/-- With `x` true, the conjunction of `x` and `y` is `y`, also after they changed places. -/
theorem operations_of_reached_exchanged : Reached 4 1.5 turned ∧ turned.Live xy.1 ∧ turned.Live x.1 ∧ turned.Live y.1 ∧
    (∀ f ∈ [x.1, y.1], turned.Live f) ∧ (∀ a, (turned.restrict xy.1 0 true).2.eval (turned.restrict xy.1 0 true).1 a = a 1) ∧
    ¬ (turned.restrict xy.1 0 true).2.Tests (turned.restrict xy.1 0 true).1 0 := by
  obtain ⟨h, hxy, hx, hy, hval⟩ := turned_spec
  have hfs : ∀ f ∈ [x.1, y.1], turned.Live f := by
    intro f hf
    simp only [List.mem_cons, List.not_mem_nil, or_false] at hf
    rcases hf with rfl | rfl
    · exact hx
    · exact hy
  obtain ⟨-, -, -, -, -, -, hc, ht⟩ := operations_of_reached h hxy hx hy hfs 0 true
  refine ⟨h, hxy, hx, hy, hfs, fun a => ?_, ht⟩
  rw [hc.eval, (hval _).1]
  simp

end Diagram
end Credence
