import Credence.Proofs.Chance
import Credence.Proofs.Connectives
import Credence.Proofs.Weight
/-!
# Weighted counts

The count of a function is the mass of the assignments that make it true (`probability_exact`): a node splits that event
on its variable, which its branches do not test.  All it takes of the weights is that they stand for elements of a
commutative ring.
-/
namespace Credence

/-- The weights stand for elements of a ring, and what is computed from them for what the ring has for it. -/
structure Exact {W R : Type} [Weight W] [CommRing R] (φ : W → R) : Prop where
  zero : φ 0 = 0
  one  : φ 1 = 1
  add  : ∀ x y, φ (x + y) = φ x + φ y
  sub  : ∀ x y, φ (x - y) = φ x - φ y
  mul  : ∀ x y, φ (x * y) = φ x * φ y

theorem exact_rat : Exact (id : ℚ → ℚ) := ⟨rfl, rfl, fun _ _ => rfl, fun _ _ => rfl, fun _ _ => rfl⟩

namespace Diagram

variable {W R : Type} [Weight W] [CommRing R] {φ : W → R} {w : Nat → R} {weight : Nat → W}
variable {d : Diagram} {f : Handle} {n : Node}

/-- The variables in `A` are true. -/
def among (A : Finset Nat) (v : Nat) : Bool := decide (v ∈ A)

theorem among_insert (A : Finset Nat) (v : Nat) : among (insert v A) = Function.update (among A) v true := by
  funext u
  by_cases e : u = v
  · simp [among, e]
  · simp [among, e]

/-- The mass of the assignments that make a function true. -/
noncomputable def chance (d : Diagram) (w : Nat → R) (f : Handle) : R :=
  mass (Finset.range d.varCount) w (fun A => d.eval f (among A) = true)

theorem chance_terminal (hf : d.node? f = none) : d.chance w f = if f = .top then 1 else 0 := by
  have heval : ∀ A : Finset Nat, d.eval f (among A) = true ↔ f = .top := fun A => by rw [eval_of_none hf, decide_eq_true_iff]
  rw [chance, mass_congr (fun A _ => heval A)]
  by_cases e : f = .top
  · simp [e, mass_true]
  · simp [e, mass_false]

/-- A node weighs its branches. -/
theorem Valid.chance_node (hd : d.Valid) (hn : d.node? f = some n) :
    d.chance w f = w n.var * d.chance w n.high + (1 - w n.var) * d.chance w n.low := by
  refine mass_split (Finset.mem_range.2 (hd.sound.var f n hn)) (fun A _ => ?_) (fun A _ => ?_) (fun A _ => ?_)
  · rw [hd.graded.eval_node hn]
    by_cases hv : n.var ∈ A
    · simp [among, hv]
    · simp [among, hv]
  · rw [among_insert, hd.graded.eval_update (hd.not_tests_high hn)]
  · rw [among_insert, hd.graded.eval_update (hd.not_tests_low hn)]

/-- Every remembered count is right. -/
def Counted (d : Diagram) (φ : W → R) (weight : Nat → W) (memo : Std.HashMap Handle W) : Prop :=
  ∀ (f : Handle) (p : W), memo[f]? = some p → φ p = d.chance (φ ∘ weight) f

theorem Valid.countWithin_spec (hd : d.Valid) (hφ : Exact φ) : ∀ (depth : Nat) (memo : Std.HashMap Handle W) (f : Handle),
    d.varCount < depth + d.level f → d.Counted φ weight memo →
    φ (d.countWithin weight depth memo f).1 = d.chance (φ ∘ weight) f ∧
    d.Counted φ weight (d.countWithin weight depth memo f).2
  | depth, memo, f, hdepth, hm => by
    cases hn : d.node? f with
    | none =>
      unfold countWithin
      simp only [hn]
      refine ⟨?_, hm⟩
      rw [chance_terminal hn, apply_ite φ, hφ.one, hφ.zero]
    | some n =>
      have hlt := hd.graded.bound f n hn
      obtain ⟨hl, hh⟩ := hd.below f n hn
      cases depth with
      | zero => omega
      | succ depth =>
        unfold countWithin
        simp only [hn]
        cases hk : memo[f]? with
        | some p => exact ⟨hm f p hk, hm⟩
        | none =>
          simp only
          obtain ⟨h1, h2⟩ := hd.countWithin_spec hφ depth memo n.high (by omega) hm
          obtain ⟨h3, h4⟩ := hd.countWithin_spec hφ depth _ n.low (by omega) h2
          have hp : φ (weight n.var * (d.countWithin weight depth memo n.high).1 +
              (1 - weight n.var) * (d.countWithin weight depth (d.countWithin weight depth memo n.high).2 n.low).1) =
              d.chance (φ ∘ weight) f := by
            rw [hφ.add, hφ.mul, hφ.mul, hφ.sub, hφ.one, h1, h3, hd.chance_node hn]
            rfl
          refine ⟨hp, fun g p hg => ?_⟩
          rw [Std.HashMap.getElem?_insert] at hg
          split at hg
          · rename_i e
            injection hg with hg
            rw [← hg, ← eq_of_beq e]
            exact hp
          · exact h4 g p hg

/-- **The weighted count of a function** stands for the mass of the assignments that make it true. -/
theorem Valid.probability_exact (hd : d.Valid) (hφ : Exact φ) (f : Handle) (weight : Nat → W) :
    φ (d.probability f weight) = d.chance (φ ∘ weight) f :=
  (hd.countWithin_spec hφ _ ∅ f (by omega) (fun f p h => by simp at h)).1

theorem Valid.probability_eq_mass (hd : d.Valid) (f : Handle) (w : Nat → ℚ) : d.probability f w = d.chance w f :=
  hd.probability_exact exact_rat f w

end Diagram
end Credence
