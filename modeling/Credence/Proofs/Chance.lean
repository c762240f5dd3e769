import Mathlib.Algebra.BigOperators.Ring.Finset
import Mathlib.Algebra.BigOperators.Group.Finset.Powerset
import Mathlib.Algebra.Order.BigOperators.Ring.Finset
import Mathlib.Tactic.Ring
import Mathlib.Tactic.LinearCombination
/-!
# Independent choices

Each element of a finite set is chosen with its weight, whatever becomes of the others.  The mass of an event is the
weight of the choices in which it happens.  An element that does not matter to the event can be left out
(`mass_eq_of_subset`), and one that does splits it in two (`mass_split`).  Where no weight is zero or one, every choice
counts (`mass_eq_zero_iff`).
-/
namespace Credence

variable {ι κ R : Type} [DecidableEq ι] [DecidableEq κ] [CommRing R]

/-- The weight of choosing `A` from `s`. -/
def choiceWeight (s : Finset ι) (w : ι → R) (A : Finset ι) : R := (∏ i ∈ A, w i) * ∏ i ∈ s \ A, (1 - w i)

open Classical in
/-- The weight of the choices from `s` in which an event happens. -/
noncomputable def mass (s : Finset ι) (w : ι → R) (E : Finset ι → Prop) : R :=
  ∑ A ∈ s.powerset, if E A then choiceWeight s w A else 0

variable {s t : Finset ι} {w : ι → R} {E F : Finset ι → Prop} {i : ι}

theorem choiceWeight_insert_left (hi : i ∉ s) {A : Finset ι} (hA : A ⊆ s) :
    choiceWeight (insert i s) w A = (1 - w i) * choiceWeight s w A := by
  have hiA : i ∉ A := fun h => hi (hA h)
  rw [choiceWeight, choiceWeight, Finset.insert_sdiff_of_notMem s hiA,
    Finset.prod_insert (fun h => hi (Finset.mem_sdiff.1 h).1)]
  ring

theorem choiceWeight_insert_both (hi : i ∉ s) {A : Finset ι} (hA : A ⊆ s) :
    choiceWeight (insert i s) w (insert i A) = w i * choiceWeight s w A := by
  have hiA : i ∉ A := fun h => hi (hA h)
  have hs : insert i s \ insert i A = s \ A := by
    ext j
    simp only [Finset.mem_sdiff, Finset.mem_insert]
    constructor
    · rintro ⟨h1 | h1, h2⟩
      · exact absurd (.inl h1) h2
      · exact ⟨h1, fun h => h2 (.inr h)⟩
    · rintro ⟨h1, h2⟩
      refine ⟨.inr h1, ?_⟩
      rintro (rfl | h)
      · exact hi h1
      · exact h2 h
  rw [choiceWeight, choiceWeight, hs, Finset.prod_insert hiA]
  ring

@[simp] theorem mass_empty : mass ∅ w E = open Classical in if E ∅ then 1 else 0 := by
  simp [mass, choiceWeight]

/-- **One more element** is chosen or not. -/
theorem mass_insert (hi : i ∉ s) :
    mass (insert i s) w E = w i * mass s w (fun A => E (insert i A)) + (1 - w i) * mass s w E := by
  classical
  have h0 : ∑ A ∈ s.powerset, (if E A then choiceWeight (insert i s) w A else 0) = (1 - w i) * mass s w E := by
    rw [mass, Finset.mul_sum]
    refine Finset.sum_congr rfl (fun A hA => ?_)
    rw [choiceWeight_insert_left hi (Finset.mem_powerset.1 hA)]
    split
    · congr
    · simp
  have h1 : ∑ A ∈ s.powerset, (if E (insert i A) then choiceWeight (insert i s) w (insert i A) else 0) =
      w i * mass s w (fun A => E (insert i A)) := by
    rw [mass, Finset.mul_sum]
    refine Finset.sum_congr rfl (fun A hA => ?_)
    rw [choiceWeight_insert_both hi (Finset.mem_powerset.1 hA)]
    split
    · congr
    · simp
  rw [mass, Finset.sum_powerset_insert hi, add_comm]
  exact congrArg₂ _ h1 h0

theorem mass_congr (h : ∀ A ⊆ s, E A ↔ F A) : mass s w E = mass s w F := by
  classical
  refine Finset.sum_congr rfl (fun A hA => ?_)
  have heq := h A (Finset.mem_powerset.1 hA)
  by_cases hE : E A
  · rw [if_pos hE, if_pos (heq.1 hE)]
  · rw [if_neg hE, if_neg (mt heq.2 hE)]

/-- Only the weights of the elements matter. -/
theorem mass_congr_weight {w' : ι → R} (h : ∀ i ∈ s, w i = w' i) : mass s w E = mass s w' E := by
  classical
  refine Finset.sum_congr rfl (fun A hA => ?_)
  have hA := Finset.mem_powerset.1 hA
  have h1 : ∏ i ∈ A, w i = ∏ i ∈ A, w' i := Finset.prod_congr rfl (fun i hi => h i (hA hi))
  have h2 : ∏ i ∈ s \ A, (1 - w i) = ∏ i ∈ s \ A, (1 - w' i) :=
    Finset.prod_congr rfl (fun i hi => by rw [h i (Finset.mem_sdiff.1 hi).1])
  rw [choiceWeight, choiceWeight, h1, h2]

theorem mass_true : mass s w (fun _ => True) = 1 := by
  induction s using Finset.induction_on with
  | empty => simp
  | insert i s hi ih =>
    rw [mass_insert hi, ih]
    ring

theorem mass_false : mass s w (fun _ => False) = 0 := by simp [mass]

/-- The event and its complement share the whole weight. -/
theorem mass_not : mass s w (fun A => ¬ E A) = 1 - mass s w E := by
  classical
  rw [← mass_true (s := s) (w := w)]
  rw [mass, mass, mass, ← Finset.sum_sub_distrib]
  refine Finset.sum_congr rfl (fun A _ => ?_)
  by_cases h : E A
  · simp [h]
  · simp [h]

theorem mass_insert_of_ignores (hi : i ∉ s) (h : ∀ A ⊆ s, E (insert i A) ↔ E A) : mass (insert i s) w E = mass s w E := by
  rw [mass_insert hi, mass_congr h]
  ring

/-- **Elements that do not matter can be left out.** -/
theorem mass_eq_of_subset (hst : s ⊆ t) (h : ∀ A ⊆ t, E A ↔ E (A ∩ s)) : mass t w E = mass s w E := by
  have key : ∀ u : Finset ι, Disjoint s u → s ∪ u ⊆ t → mass (s ∪ u) w E = mass s w E := by
    intro u
    induction u using Finset.induction_on with
    | empty => simp
    | insert i u hi ih =>
      intro hd hsub
      rw [Finset.disjoint_insert_right] at hd
      rw [Finset.union_insert] at hsub ⊢
      have hsub' : s ∪ u ⊆ t := (Finset.subset_insert i (s ∪ u)).trans hsub
      rw [mass_insert_of_ignores (by simp [hd.1, hi]), ih hd.2 hsub']
      intro A hA
      have hA' : insert i A ⊆ t := (Finset.insert_subset_insert i hA).trans hsub
      rw [h _ hA', h A (hA.trans hsub'), Finset.insert_inter_of_notMem hd.1]
  have := key (t \ s) Finset.disjoint_sdiff (by rw [Finset.union_sdiff_of_subset hst])
  rwa [Finset.union_sdiff_of_subset hst] at this

/-- Two sets that each have all that matters. -/
theorem mass_eq_of_inter (hs : ∀ A, E A ↔ E (A ∩ s)) (ht : ∀ A, E A ↔ E (A ∩ t)) : mass s w E = mass t w E := by
  rw [← mass_eq_of_subset (t := s ∪ t) Finset.subset_union_left (fun A _ => hs A),
    ← mass_eq_of_subset (t := s ∪ t) Finset.subset_union_right (fun A _ => ht A)]

/-- **An element splits an event** into what it becomes with it and without it. -/
theorem mass_split (hi : i ∈ s) {F G : Finset ι → Prop} (hE : ∀ A ⊆ s, E A ↔ if i ∈ A then F A else G A)
    (hF : ∀ A ⊆ s, F (insert i A) ↔ F A) (hG : ∀ A ⊆ s, G (insert i A) ↔ G A) :
    mass s w E = w i * mass s w F + (1 - w i) * mass s w G := by
  obtain ⟨u, hu, rfl⟩ : ∃ u, i ∉ u ∧ insert i u = s := ⟨s.erase i, Finset.notMem_erase i s, Finset.insert_erase hi⟩
  have hsub : ∀ {A}, A ⊆ u → A ⊆ insert i u := fun h => h.trans (Finset.subset_insert i u)
  rw [mass_insert hu, mass_insert_of_ignores hu (fun A hA => hF A (hsub hA)),
    mass_insert_of_ignores hu (fun A hA => hG A (hsub hA))]
  congr 2
  · refine mass_congr (fun A hA => ?_)
    rw [hE _ (Finset.insert_subset_insert i hA), if_pos (Finset.mem_insert_self i A), hF A (hsub hA)]
  · refine mass_congr (fun A hA => ?_)
    rw [hE A (hsub hA), if_neg (fun h => hu (hA h))]

/-- Elements under other names. -/
theorem mass_image {f : ι → κ} (hf : Set.InjOn f s) {w : κ → R} {E : Finset κ → Prop} :
    mass (s.image f) w E = mass s (fun i => w (f i)) (fun A => E (A.image f)) := by
  induction s using Finset.induction_on generalizing E with
  | empty =>
    by_cases h : E ∅
    · simp [h]
    · simp [h]
  | insert i s hi ih =>
    have hinj : Set.InjOn f s := hf.mono (by simp)
    have hout : f i ∉ s.image f := by
      intro h
      obtain ⟨j, hj, e⟩ := Finset.mem_image.1 h
      have := hf (by simp [hj]) (by simp) e
      rw [this] at hj
      exact hi hj
    rw [Finset.image_insert, mass_insert hout, mass_insert hi, ih hinj, ih hinj]
    simp only [Finset.image_insert]

/-! ## Weights between zero and one -/

section Ordered

variable {s : Finset ι} [LinearOrder R] [IsStrictOrderedRing R] {w : ι → R} {E : Finset ι → Prop}

theorem choiceWeight_pos (hw : ∀ i ∈ s, 0 < w i ∧ w i < 1) {A : Finset ι} (hA : A ⊆ s) : 0 < choiceWeight s w A := by
  refine mul_pos (Finset.prod_pos fun i hi => (hw i (hA hi)).1) (Finset.prod_pos fun i hi => sub_pos.2 ?_)
  exact (hw i (Finset.mem_sdiff.1 hi).1).2

open Classical in
theorem summand_nonneg (hw : ∀ i ∈ s, 0 < w i ∧ w i < 1) {A : Finset ι} (hA : A ∈ s.powerset) :
    0 ≤ if E A then choiceWeight s w A else 0 := by
  split
  · exact (choiceWeight_pos hw (Finset.mem_powerset.1 hA)).le
  · exact le_rfl

/-- An event weighs no less than each choice in which it happens. -/
theorem choiceWeight_le_mass (hw : ∀ i ∈ s, 0 < w i ∧ w i < 1) {A : Finset ι} (hA : A ⊆ s) (hE : E A) :
    choiceWeight s w A ≤ mass s w E := by
  classical
  have hle := Finset.single_le_sum (f := fun A => if E A then choiceWeight s w A else 0)
    (fun B hB => summand_nonneg hw hB) (Finset.mem_powerset.2 hA)
  rwa [if_pos hE] at hle

/-- **An event has no weight exactly when it never happens.** -/
theorem mass_eq_zero_iff (hw : ∀ i ∈ s, 0 < w i ∧ w i < 1) : mass s w E = 0 ↔ ∀ A ⊆ s, ¬ E A := by
  classical
  rw [mass, Finset.sum_eq_zero_iff_of_nonneg (fun A hA => summand_nonneg hw hA)]
  simp only [Finset.mem_powerset]
  refine forall₂_congr (fun A hA => ?_)
  split
  · rename_i hE
    exact iff_of_false (choiceWeight_pos hw hA).ne' (not_not_intro hE)
  · rename_i hE
    exact iff_of_true rfl hE

theorem mass_eq_one_iff (hw : ∀ i ∈ s, 0 < w i ∧ w i < 1) : mass s w E = 1 ↔ ∀ A ⊆ s, E A := by
  have h := mass_eq_zero_iff (E := fun A => ¬ E A) hw
  rw [mass_not, sub_eq_zero] at h
  simp only [not_not] at h
  exact eq_comm.trans h

end Ordered

end Credence
