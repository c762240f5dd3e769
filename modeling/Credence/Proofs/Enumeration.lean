import Mathlib.Algebra.Order.BigOperators.Ring.Finset
import Credence.Proofs.Counting
import Credence.Proofs.Moves
/-!
# The weighted count as a sum over assignments

In the exact arithmetic of a commutative ring the weighted count of a function is the sum, over the assignments of any
finite set of variables with all that the function tests, of the weights of those that make it true
(`count_of_reached`).  Nothing in that sum is about the order of the variables, so the count is not either.
-/
namespace Credence

/-! ## Weights of choices -/

section

variable {ι R : Type} [DecidableEq ι] [CommRing R] {s A : Finset ι} {w : ι → R} {E : Finset ι → Prop}

theorem choiceWeight_eq_prod (hA : A ⊆ s) : choiceWeight s w A = ∏ i ∈ s, if i ∈ A then w i else 1 - w i := by
  rw [Finset.prod_ite, Finset.filter_mem_eq_inter, Finset.filter_notMem_eq_sdiff, Finset.inter_eq_right.2 hA, choiceWeight]

theorem mass_eq_sum [DecidablePred E] : mass s w E = ∑ A ∈ s.powerset with E A, ∏ i ∈ s, if i ∈ A then w i else 1 - w i := by
  rw [mass, Finset.sum_filter]
  refine Finset.sum_congr rfl (fun A hA => ?_)
  rw [← choiceWeight_eq_prod (Finset.mem_powerset.1 hA)]
  by_cases h : E A
  · rw [if_pos h, if_pos h]
  · rw [if_neg h, if_neg h]

variable [PartialOrder R] [IsOrderedRing R]

theorem choiceWeight_nonneg (hw : ∀ i ∈ s, 0 ≤ w i ∧ w i ≤ 1) (hA : A ⊆ s) : 0 ≤ choiceWeight s w A :=
  mul_nonneg (Finset.prod_nonneg (fun i hi => (hw i (hA hi)).1))
    (Finset.prod_nonneg (fun i hi => sub_nonneg.2 (hw i (Finset.mem_sdiff.1 hi).1).2))

theorem mass_nonneg (hw : ∀ i ∈ s, 0 ≤ w i ∧ w i ≤ 1) : 0 ≤ mass s w E := by
  classical
  refine Finset.sum_nonneg (fun A hA => ?_)
  split
  · exact choiceWeight_nonneg hw (Finset.mem_powerset.1 hA)
  · exact le_rfl

/-- The complement of an event has a mass too. -/
theorem mass_le_one (hw : ∀ i ∈ s, 0 ≤ w i ∧ w i ≤ 1) : mass s w E ≤ 1 := by
  rw [← sub_nonneg, ← mass_not]
  exact mass_nonneg hw

end

/-! ## Counting in a ring -/

/-- The arithmetic of a ring, which tells what is zero and what is one, and neither rounds nor writes its elements. -/
noncomputable abbrev Weight.ofRing (R : Type) [CommRing R] : Weight R :=
  open Classical in
  { isCertain x := decide (x = 1)
    isProper _ := true
    isZero x := decide (x = 0)
    same x y := decide (x = y)
    round _ x := x
    text _ := ""
    read? _ := none }

theorem exact_ofRing (R : Type) [CommRing R] : @Exact R R (Weight.ofRing R) _ id :=
  letI := Weight.ofRing R
  ⟨rfl, rfl, fun _ _ => rfl, fun _ _ => rfl, fun _ _ => rfl⟩

namespace Diagram

variable {R : Type} [CommRing R] {d d' : Diagram} {f g : Handle} {w : Nat → R}

/-- The weighted count, with ring elements for weights. -/
noncomputable def exactProbability (d : Diagram) (f : Handle) (w : Nat → R) : R :=
  letI := Weight.ofRing R
  d.probability f w

theorem Valid.exactProbability_eq (hd : d.Valid) (f : Handle) (w : Nat → R) : d.exactProbability f w = d.chance w f :=
  letI := Weight.ofRing R
  hd.probability_exact (exact_ofRing R) f w

/-- What is not tested may be left out of an assignment. -/
theorem Valid.eval_inter (hd : d.Valid) {s : Finset Nat} (hs : ∀ v, d.Tests f v → v ∈ s) (A : Finset Nat) :
    d.eval f (among A) = true ↔ d.eval f (among (A ∩ s)) = true := by
  rw [hd.graded.eval_congr f (fun v hv => ?_)]
  simp [among, hs v hv]

/-- **Any set with the tested variables will do.** -/
theorem Valid.chance_eq_mass (hd : d.Valid) {s : Finset Nat} (hs : ∀ v, d.Tests f v → v ∈ s) :
    d.chance w f = mass s w (fun A => d.eval f (among A) = true) :=
  mass_eq_of_inter (hd.eval_inter (fun _ hv => Finset.mem_range.2 (hd.le_of_tests hv).1)) (hd.eval_inter hs)

/-- One function, in whatever order and diagram. -/
theorem Valid.chance_congr (hd : d.Valid) (hd' : d'.Valid) (h : ∀ a, d'.eval g a = d.eval f a) :
    d'.chance w g = d.chance w f := by
  rw [hd'.chance_eq_mass (s := Finset.range d'.varCount ∪ Finset.range d.varCount) (fun v hv => ?_),
    hd.chance_eq_mass (s := Finset.range d'.varCount ∪ Finset.range d.varCount) (fun v hv => ?_)]
  · exact mass_congr (fun A _ => by rw [h])
  · exact Finset.mem_union_right _ (Finset.mem_range.2 (hd.le_of_tests hv).1)
  · exact Finset.mem_union_left _ (Finset.mem_range.2 (hd'.le_of_tests hv).1)

theorem Valid.chance_bounds [PartialOrder R] [IsOrderedRing R] (hd : d.Valid)
    (hw : ∀ v, d.Tests f v → 0 ≤ w v ∧ w v ≤ 1) : 0 ≤ d.chance w f ∧ d.chance w f ≤ 1 := by
  classical
  have hw' : ∀ v ∈ (Finset.range d.varCount).filter (d.Tests f), 0 ≤ w v ∧ w v ≤ 1 :=
    fun v hv => hw v (Finset.mem_filter.1 hv).2
  rw [hd.chance_eq_mass (fun v hv => Finset.mem_filter.2 ⟨Finset.mem_range.2 (hd.le_of_tests hv).1, hv⟩)]
  exact ⟨mass_nonneg hw', mass_le_one hw'⟩

/-- **The weighted count of a function is the sum over the assignments that make it true**, those of any finite set of
variables with all that it tests, of the product of the weight of each variable that is true and the complement of the
weight of each other.  So it is the same in every diagram that can be reached and for every handle with these values,
whatever the order there, and it stays between zero and one when the weights do. -/
theorem count_of_reached {capacity : Nat} {growth : Float} (h : Reached capacity growth d) (f : Handle) (w : Nat → R) :
    (∀ s : Finset Nat, (∀ v, d.Tests f v → v ∈ s) → d.exactProbability f w =
      ∑ A ∈ s.powerset with d.eval f (among A) = true, ∏ v ∈ s, if v ∈ A then w v else 1 - w v) ∧
    (∀ (capacity' : Nat) (growth' : Float) (d' : Diagram) (g : Handle), Reached capacity' growth' d' →
      (∀ a, d'.eval g a = d.eval f a) → d'.exactProbability g w = d.exactProbability f w) ∧
    ∀ [PartialOrder R] [IsOrderedRing R], (∀ v, d.Tests f v → 0 ≤ w v ∧ w v ≤ 1) →
      0 ≤ d.exactProbability f w ∧ d.exactProbability f w ≤ 1 := by
  have hd := h.ready.valid
  refine ⟨fun s hs => ?_, fun capacity' growth' d' g h' heval => ?_, fun hw => ?_⟩
  · rw [hd.exactProbability_eq, hd.chance_eq_mass hs, mass_eq_sum]
  · rw [hd.exactProbability_eq, h'.ready.valid.exactProbability_eq, hd.chance_congr h'.ready.valid heval]
  · rw [hd.exactProbability_eq]
    exact hd.chance_bounds hw

/-- A conjunction of two variables counts the product of their weights, in either order of them. -/
theorem count_of_reached_exchanged : Reached 4 1.5 Exchanged.turned ∧
    (∀ v, Exchanged.turned.Tests Exchanged.xy.1 v → v ∈ Finset.range 2) ∧
    Exchanged.turned.exactProbability Exchanged.xy.1 (fun v => (v : ℤ) + 2) = 6 ∧
    Exchanged.xy.2.exactProbability Exchanged.xy.1 (fun v => (v : ℤ) + 2) = 6 ∧
    0 ≤ Exchanged.turned.exactProbability Exchanged.xy.1 (fun _ => (1 / 2 : ℚ)) ∧
    Exchanged.turned.exactProbability Exchanged.xy.1 (fun _ => (1 / 2 : ℚ)) ≤ 1 := by
  obtain ⟨h, -, -, -, hval⟩ := Exchanged.turned_spec
  obtain ⟨h', -, -, -, hval'⟩ := Exchanged.xy_spec
  have htests : ∀ v, Exchanged.turned.Tests Exchanged.xy.1 v → v ∈ Finset.range 2 := fun v hv => by
    have hlt := (h.ready.valid.le_of_tests hv).1
    rwa [Exchanged.turned_varCount, ← Finset.mem_range] at hlt
  obtain ⟨hsum, hsame, -⟩ := count_of_reached h Exchanged.xy.1 (fun v => (v : ℤ) + 2)
  obtain ⟨-, -, hbounds⟩ := count_of_reached h Exchanged.xy.1 (fun _ => (1 / 2 : ℚ))
  have hsix : Exchanged.turned.exactProbability Exchanged.xy.1 (fun v => (v : ℤ) + 2) = 6 := by
    rw [hsum _ htests]
    simp only [(hval _).1]
    decide
  refine ⟨h, htests, hsix, ?_, hbounds (fun _ _ => by norm_num)⟩
  rw [hsame _ _ _ _ h' (fun a => by rw [(hval' a).1, (hval a).1]), hsix]

end Diagram
end Credence
