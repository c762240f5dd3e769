import Credence.Clause
import Credence.Proofs.Instance
/-!
# What follows from facts and rules

A theory says which atoms are stated, which rules there are, and which negations hold.  Its atoms are those that every
model has (`holds_iff_forall_model`): the ones reached by rules in finitely many steps.  A negation is known by its
predicate and by the values its arguments have, a wildcard having none.
-/
namespace Credence

variable {W : Type}

/-- What a negation is about. -/
def Predicate.positive (p : Predicate) : Predicate := ⟨p.base, p.arity⟩

structure Theory (W : Type) where
  fact   : Atom → Prop
  rule   : Clause W → Prop
  /-- The negations that hold. -/
  denied : Predicate → List (Option Constant) → Prop

namespace Theory

/-- An instance of a rule under a valuation: `pick` gives the atom of each positive body literal. -/
structure Instance (T : Theory W) (c : Clause W) (ν : Valuation) (pick : Literal W → Atom) (a : Atom) : Prop where
  rule   : T.rule c
  head   : c.head.Admits ν a
  body   : ∀ l ∈ c.body, l.isNegated = false → l.Admits ν (pick l)
  denied : ∀ l ∈ c.body, l.isNegated = true → T.denied l.predicate (l.values ν)

/-- The least model. -/
inductive Holds (T : Theory W) : Atom → Prop
  | fact {a : Atom} : T.fact a → Holds T a
  | rule {c : Clause W} {ν : Valuation} {pick : Literal W → Atom} {a : Atom} : T.Instance c ν pick a →
    (∀ l ∈ c.body, l.isNegated = false → Holds T (pick l)) → Holds T a

/-- Some rule gives the atom in the least model. -/
def Fires (T : Theory W) (a : Atom) : Prop :=
  ∃ c ν pick, T.Instance c ν pick a ∧ ∀ l ∈ c.body, l.isNegated = false → T.Holds (pick l)

/-- A set of atoms with all facts that no rule leads out of. -/
structure IsModel (T : Theory W) (M : Atom → Prop) : Prop where
  fact : ∀ a, T.fact a → M a
  rule : ∀ c ν pick a, T.Instance c ν pick a → (∀ l ∈ c.body, l.isNegated = false → M (pick l)) → M a

variable {T T' : Theory W}

theorem Fires.holds {a : Atom} (h : T.Fires a) : T.Holds a := by
  obtain ⟨c, ν, pick, hi, hb⟩ := h
  exact .rule hi hb

theorem isModel_holds (T : Theory W) : T.IsModel T.Holds :=
  ⟨fun _ h => .fact h, fun _ _ _ _ hi hb => .rule hi hb⟩

theorem Holds.mem_model {M : Atom → Prop} (hM : T.IsModel M) {a : Atom} (h : T.Holds a) : M a := by
  induction h with
  | fact h => exact hM.fact _ h
  | rule hi _ ih => exact hM.rule _ _ _ _ hi ih

/-- **The atoms that hold are those of every model.** -/
theorem holds_iff_forall_model {a : Atom} : T.Holds a ↔ ∀ M, T.IsModel M → M a :=
  ⟨fun h _ hM => h.mem_model hM, fun h => h T.Holds (isModel_holds T)⟩

/-- More facts, rules and negations hold no less. -/
theorem Holds.mono (hf : ∀ a, T.fact a → T'.fact a) (hr : ∀ c, T.rule c → T'.rule c)
    (hd : ∀ p vs, T.denied p vs → T'.denied p vs) {a : Atom} (h : T.Holds a) : T'.Holds a := by
  induction h with
  | fact h => exact .fact (hf _ h)
  | rule hi _ ih => exact .rule ⟨hr _ hi.rule, hi.head, hi.body, fun l hl hn => hd _ _ (hi.denied l hl hn)⟩ ih

end Theory
end Credence
