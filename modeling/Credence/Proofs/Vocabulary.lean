import Credence.KnowledgeBase.Basic
import Credence.Proofs.Keys
import Credence.Proofs.Model
import Credence.Proofs.Renaming
import Mathlib.Data.Set.Finite.Basic
/-!
# The words of a program

A vocabulary has the finitely many predicates, constants and weights that a program and a query are written in.
Unification, substitution and renaming make no new ones, so a run never leaves its vocabulary.  A program is regular
over a vocabulary when it is written in it, without primitives, and every rule binds its variables in time: a variable
of the head stands in a positive body literal, and one of a negation stands in a positive literal before it.
-/
namespace Credence

variable {W : Type}

/-- Finitely many names, constants and weights of the language. -/
structure Vocabulary (W : Type) [Weight W] where
  predicates : Finset Predicate
  constants  : Finset Constant
  weights    : Set W
  finite     : weights.Finite
  plain      : ∀ p ∈ predicates, p.isPlain = true
  ordinary   : ∀ p ∈ predicates, p.isPrimitive = false
  base       : ∀ p ∈ predicates, (⟨p.base, p.arity⟩ : Predicate) ∈ predicates
  constant   : ∀ c ∈ constants, c.isPlain = true
  proper     : ∀ w ∈ weights, Weight.isProper w = true
  certain    : 1 ∈ weights

namespace Vocabulary

variable [Weight W] (V : Vocabulary W)

/-- A constant of the vocabulary, or a variable whose number is below `n`. -/
def HasTerm (n : Nat) : Term → Prop
  | .const c => c ∈ V.constants
  | .var v   => v.wildcard = true ∨ v.id < n

structure HasLiteral (n : Nat) (l : Literal W) : Prop where
  predicate  : l.predicate ∈ V.predicates
  wellFormed : l.isWellFormed = true
  terms      : ∀ t ∈ l.terms, V.HasTerm n t

variable {V}

theorem HasTerm.mono {m n : Nat} (hmn : m ≤ n) {t : Term} (h : V.HasTerm m t) : V.HasTerm n t := by
  cases t with
  | const c => exact h
  | var v => exact h.imp (fun hw => hw) (fun hlt => Nat.lt_of_lt_of_le hlt hmn)

theorem HasLiteral.mono {m n : Nat} (hmn : m ≤ n) {l : Literal W} (h : V.HasLiteral m l) : V.HasLiteral n l :=
  ⟨h.predicate, h.wellFormed, fun t ht => (h.terms t ht).mono hmn⟩

theorem HasLiteral.isPlain {n : Nat} {l : Literal W} (h : V.HasLiteral n l) : l.isPlain = true := by
  simp only [Literal.isPlain, Bool.and_eq_true]
  refine ⟨⟨V.plain _ h.predicate, h.wellFormed⟩, List.all_eq_true.2 (fun t ht => ?_)⟩
  cases t with
  | const c => exact V.constant c (h.terms _ ht)
  | var v => rfl

theorem HasLiteral.not_isPrimitive {n : Nat} {l : Literal W} (h : V.HasLiteral n l) : l.isPrimitive = false :=
  V.ordinary _ h.predicate

theorem HasLiteral.id_lt {n : Nat} {l : Literal W} (h : V.HasLiteral n l) {v : Var} (hv : VarsOf l.terms v) : v.id < n := by
  rcases h.terms _ hv.2 with hw | hlt
  · rw [hv.1] at hw
    cases hw
  · exact hlt

/-- An atom of the vocabulary. -/
theorem HasLiteral.wellFormed_atom {n : Nat} {a : Atom} {w : W} (h : V.HasLiteral n (a.literal w)) : a.WellFormed := by
  have := Literal.isWellFormed_iff.1 h.wellFormed
  simpa [Atom.literal, Atom.WellFormed] using this

theorem HasLiteral.subst {n : Nat} {l : Literal W} {s : Subst} (h : V.HasLiteral n l) (hs : Subst.Triangular s.bindings)
    (hb : ∀ b ∈ s.bindings, V.HasTerm n b.2) : V.HasLiteral n (l.subst s) := by
  refine ⟨?_, ?_, Literal.subst_closed hs hb h.terms⟩
  · rw [Literal.subst_predicate]
    exact h.predicate
  · rw [Literal.isWellFormed_iff, Literal.subst_predicate, Literal.subst_terms, List.length_map]
    exact Literal.isWellFormed_iff.1 h.wellFormed

theorem HasLiteral.copy {n low high : Nat} {S : Var → Prop} {f : Var → Var} {l l' : Literal W} (h : V.HasLiteral n l)
    (hc : Literal.Copy f l l') (hf : Relabeling S f low high) (hS : ∀ v, VarsOf l.terms v → S v) :
    V.HasLiteral high l' := by
  refine ⟨hc.predicate ▸ h.predicate, ?_, fun u hu => ?_⟩
  · rw [Literal.isWellFormed_iff, hc.predicate, ← hc.terms.length_eq]
    exact Literal.isWellFormed_iff.1 h.wellFormed
  · rcases hc.mem_terms hu with ⟨c, rfl, hm⟩ | ⟨v, hv, rfl⟩ | hw
    · exact h.terms _ hm
    · exact .inr (hf.lt_high v (hS v hv))
    · cases u with
      | const c => cases hw
      | var v => exact .inl hw

/-- What a negation of the vocabulary negates is in the vocabulary. -/
theorem HasLiteral.negate {n : Nat} {l : Literal W} (h : V.HasLiteral n l) (hn : l.isNegated = true) :
    ∃ base : Literal W, l.negate = .ok base ∧ base = ⟨1, ⟨l.predicate.base, l.predicate.arity⟩, l.terms⟩ ∧
      base.isNegated = false ∧ V.HasLiteral n base := by
  have hname : Predicate.isName l.predicate.base = true := V.plain _ h.predicate
  have hpos : (⟨l.predicate.base, l.predicate.arity⟩ : Predicate).isNegated = false := Predicate.isName.not_negated hname
  refine ⟨_, ?_, rfl, hpos, ⟨V.base _ h.predicate, h.wellFormed, h.terms⟩⟩
  have hneg : l.predicate.isNegated = true := hn
  simp only [Literal.negate, Predicate.negate, hneg, if_true, Predicate.check, hpos, Bool.false_and, Bool.false_eq_true,
    if_false]
  rfl

end Vocabulary

/-! ## Variables under a substitution -/

theorem Subst.varsOf_map_chase {s : Subst} (h : Triangular s.bindings) {ts : List Term} {y : Var} :
    VarsOf (ts.map s.chase) y ↔ y.wildcard = false ∧ ∃ x, VarsOf ts x ∧ s.chase (.var x) = .var y := by
  constructor
  · rintro ⟨hy, hm⟩
    obtain ⟨t, ht, e⟩ := List.mem_map.1 hm
    refine ⟨hy, ?_⟩
    cases t with
    | const c =>
      rw [chase_eq_resolve h, resolve_const] at e
      cases e
    | var x =>
      refine ⟨x, ⟨?_, ht⟩, e⟩
      have hw := resolve_isWildcard h (.var x)
      rw [← chase_eq_resolve h, e] at hw
      exact hw.symm.trans hy
  · rintro ⟨hy, x, ⟨-, hx⟩, e⟩
    exact ⟨hy, List.mem_map.2 ⟨.var x, hx, e⟩⟩

namespace Literal

theorem varsOf_subst_iff {l : Literal W} {s : Subst} (h : Subst.Triangular s.bindings) {y : Var} :
    VarsOf (l.subst s).terms y ↔ y.wildcard = false ∧ ∃ x, VarsOf l.terms x ∧ s.chase (.var x) = .var y := by
  rw [subst_terms]
  exact Subst.varsOf_map_chase h

end Literal

/-! ## Literals without variables -/

theorem Term.unifyAll_semiGrounded : ∀ (as bs : List Term), (∀ t ∈ as, (t.isConst || t.isWildcard) = true) →
    (∀ t ∈ bs, (t.isConst || t.isWildcard) = true) → (Term.unifyAll as bs .empty).2 = .empty
  | [], _, _, _ => by simp [Term.unifyAll]
  | _ :: _, [], _, _ => by simp [Term.unifyAll]
  | a :: as, b :: bs, ha, hb => by
    have ih := unifyAll_semiGrounded as bs (fun t ht => ha t (List.mem_cons_of_mem _ ht))
      (fun t ht => hb t (List.mem_cons_of_mem _ ht))
    have hu : (Term.unify a b .empty).2 = .empty := by
      have h1 := ha a List.mem_cons_self
      have h2 := hb b List.mem_cons_self
      cases a <;> cases b <;>
        simp_all [Term.unify, Subst.chase, Subst.chaseFor, Subst.size, Subst.empty, Term.isConst, Term.isWildcard]
    rw [Term.unifyAll]
    cases hr : Term.unify a b .empty with
    | mk ok s =>
      rw [hr] at hu
      cases ok with
      | true => rw [show s = .empty from hu]; exact ih
      | false => exact hu

namespace Literal

theorem subst_empty (l : Literal W) : l.subst .empty = l := rfl

theorem unify_semiGrounded {l m : Literal W} {s : Subst} (hl : l.isSemiGrounded = true) (hm : m.isSemiGrounded = true)
    (h : l.unify m = some s) : s = .empty := by
  unfold unify unifyInto at h
  split at h
  · rename_i s' e
    injection h with h
    rw [← h]
    split at e
    · have := Term.unifyAll_semiGrounded l.terms m.terms (List.all_eq_true.1 hl) (List.all_eq_true.1 hm)
      rw [e] at this
      exact this
    · injection e with e1 e2
      cases e1
  · cases h

theorem unify_of_values_eq {l m : Literal W} (hp : l.predicate = m.predicate) {ν : Valuation}
    (hv : l.values ν = m.values ν) : ∃ s, l.unify m = some s := by
  cases h : l.unify m with
  | some s => exact ⟨s, rfl⟩
  | none =>
    refine absurd (fun p hp => ?_) (unify_eq_none h hp ν)
    have key : ∀ (ts us : List Term), ts.map (Term.value? ν) = us.map (Term.value? ν) →
        ∀ p ∈ ts.zip us, p.1.value? ν = p.2.value? ν := by
      intro ts
      induction ts with
      | nil => intro us _ p hp; simp at hp
      | cons t ts ih =>
        intro us e p hp
        cases us with
        | nil => simp at hp
        | cons u us =>
          simp only [List.map_cons, List.cons.injEq] at e
          rw [List.zip_cons_cons, List.mem_cons] at hp
          rcases hp with rfl | hp
          · exact e.1
          · exact ih us e.2 p hp
    exact .inr (.inr (key _ _ hv p hp))

end Literal

/-! ## Rules that bind their variables in time -/

namespace Clause

structure RangeRestricted (c : Clause W) : Prop where
  head     : ∀ v, VarsOf c.head.terms v → ∃ l ∈ c.body, l.isNegated = false ∧ VarsOf l.terms v
  negation : ∀ pre n post, c.body = pre ++ n :: post → n.isNegated = true → ∀ v, VarsOf n.terms v →
    ∃ l ∈ pre, l.isNegated = false ∧ VarsOf l.terms v

theorem subst_isNegated (l : Literal W) (s : Subst) : (l.subst s).isNegated = l.isNegated := by
  rw [Literal.isNegated, Literal.subst_predicate]
  rfl

theorem RangeRestricted.subst {c : Clause W} (h : c.RangeRestricted) {s : Subst} (hs : Subst.Triangular s.bindings) :
    (c.subst s).RangeRestricted := by
  constructor
  · intro y hy
    obtain ⟨hw, x, hx, e⟩ := (Literal.varsOf_subst_iff hs).1 hy
    obtain ⟨l, hl, hn, hv⟩ := h.head x hx
    exact ⟨l.subst s, List.mem_map.2 ⟨l, hl, rfl⟩, (subst_isNegated l s).trans hn,
      (Literal.varsOf_subst_iff hs).2 ⟨hw, x, hv, e⟩⟩
  · intro pre n post hb hn y hy
    obtain ⟨pre', tl, hbody, hpre, htl⟩ := List.map_eq_append_iff.1 hb
    obtain ⟨m, post', htl', rfl, hpost⟩ := List.map_eq_cons_iff.1 htl
    obtain ⟨hw, x, hx, e⟩ := (Literal.varsOf_subst_iff hs).1 hy
    obtain ⟨l, hl, hn', hv⟩ := h.negation pre' m post' (hbody.trans (by rw [htl'])) ((subst_isNegated m s).symm.trans hn) x hx
    exact ⟨l.subst s, hpre ▸ List.mem_map.2 ⟨l, hl, rfl⟩, (subst_isNegated l s).trans hn',
      (Literal.varsOf_subst_iff hs).2 ⟨hw, x, hv, e⟩⟩

/-- What is left of a rule once its first literal has met an atom: the variables of that literal have become
constants, so every other one is still bound in time. -/
theorem RangeRestricted.resolve {c : Clause W} (h : c.RangeRestricted) {first : Literal W} {rest : List (Literal W)}
    (hbody : c.body = first :: rest) (hwf : first.isWellFormed = true) {a : Atom} (ha : a.WellFormed) {w : W} {s : Subst}
    (hs : first.unify (a.literal w) = some s) :
    RangeRestricted (⟨c.head.subst s, rest.map (fun l => l.subst s)⟩ : Clause W) := by
  have ht := (Literal.unify_eq_some hs).2.1
  have hconst : ∀ {x y : Var}, VarsOf first.terms x → s.chase (.var x) ≠ .var y := by
    intro x y hx e
    have := Literal.chase_isConst_of_mem hwf ha hs hx.2 hx.1
    rw [e] at this
    cases this
  constructor
  · intro y hy
    obtain ⟨hw, x, hx, e⟩ := (Literal.varsOf_subst_iff ht).1 hy
    obtain ⟨l, hl, hn, hv⟩ := h.head x hx
    rw [hbody] at hl
    rcases List.mem_cons.1 hl with rfl | hl
    · exact absurd e (hconst hv)
    · exact ⟨l.subst s, List.mem_map.2 ⟨l, hl, rfl⟩, (subst_isNegated l s).trans hn,
        (Literal.varsOf_subst_iff ht).2 ⟨hw, x, hv, e⟩⟩
  · intro pre n post hb hn y hy
    obtain ⟨pre', tl, hrest, hpre, htl⟩ := List.map_eq_append_iff.1 hb
    obtain ⟨m, post', htl', rfl, hpost⟩ := List.map_eq_cons_iff.1 htl
    obtain ⟨hw, x, hx, e⟩ := (Literal.varsOf_subst_iff ht).1 hy
    obtain ⟨l, hl, hn', hv⟩ := h.negation (first :: pre') m post' (by rw [hbody, hrest, htl']; rfl)
      ((subst_isNegated m s).symm.trans hn) x hx
    rcases List.mem_cons.1 hl with rfl | hl
    · exact absurd e (hconst hv)
    · exact ⟨l.subst s, hpre ▸ List.mem_map.2 ⟨l, hl, rfl⟩, (subst_isNegated l s).trans hn',
        (Literal.varsOf_subst_iff ht).2 ⟨hw, x, hv, e⟩⟩

/-- A negation binds nothing, so what comes behind it is bound without it. -/
theorem RangeRestricted.dropNegation {c : Clause W} (h : c.RangeRestricted) {first : Literal W} {rest : List (Literal W)}
    (hbody : c.body = first :: rest) (hn : first.isNegated = true) : RangeRestricted (⟨c.head, rest⟩ : Clause W) := by
  have hpos : ∀ {l : Literal W} {ls : List (Literal W)}, l ∈ first :: ls → l.isNegated = false → l ∈ ls := by
    intro l ls hl hl'
    rcases List.mem_cons.1 hl with rfl | hl
    · rw [hn] at hl'
      cases hl'
    · exact hl
  constructor
  · intro v hv
    obtain ⟨l, hl, hl', hv'⟩ := h.head v hv
    rw [hbody] at hl
    exact ⟨l, hpos hl hl', hl', hv'⟩
  · intro pre n post hb hn' v hv
    obtain ⟨l, hl, hl', hv'⟩ := h.negation (first :: pre) n post (by rw [hbody, show rest = _ from hb]; rfl) hn' v hv
    exact ⟨l, hpos hl hl', hl', hv'⟩

/-- The first literal of a rule, when it is a negation, has no variables. -/
theorem RangeRestricted.first_semiGrounded {c : Clause W} (h : c.RangeRestricted) {first : Literal W}
    {rest : List (Literal W)} (hbody : c.body = first :: rest) (hn : first.isNegated = true) :
    first.isSemiGrounded = true := by
  refine List.all_eq_true.2 (fun t ht => ?_)
  cases t with
  | const c => rfl
  | var v =>
    cases hw : v.wildcard with
    | true => simp [Term.isWildcard, hw]
    | false =>
      obtain ⟨l, hl, -⟩ := h.negation [] first rest hbody hn v ⟨hw, ht⟩
      cases hl

/-- A finished rule has no variables left in its head. -/
theorem RangeRestricted.head_isGrounded {c : Clause W} (h : c.RangeRestricted) (hbody : c.body = [])
    (hw : ∀ t ∈ c.head.terms, t.isWildcard = false) : c.head.isGrounded = true := by
  refine List.all_eq_true.2 (fun t ht => ?_)
  cases t with
  | const c => rfl
  | var v =>
    obtain ⟨l, hl, -⟩ := h.head v ⟨hw _ ht, ht⟩
    rw [hbody] at hl
    cases hl

variable [Weight W]

/-- **A rule in order**: certain, of the vocabulary, with a body, no wildcard in the head, and bound in time. -/
structure Regular (V : Vocabulary W) (c : Clause W) : Prop where
  head       : ∃ n, V.HasLiteral n c.head
  positive   : c.head.isNegated = false
  certain    : c.head.weight = 1
  closed     : ∀ t ∈ c.head.terms, t.isWildcard = false
  nonempty   : c.body ≠ []
  body       : ∀ l ∈ c.body, (∃ n, V.HasLiteral n l) ∧ l.weight = 1
  restricted : c.RangeRestricted

end Clause

/-! ## Programs -/

namespace Shelf

/-- Every clause stands under its predicate, and no predicate stands twice. -/
structure Sorted (s : Shelf W) : Prop where
  nodup : s.predicates.Nodup
  under : ∀ e ∈ s.entries, ∀ c ∈ e.2, c.head.predicate = e.1

theorem Sorted.get_of_mem {s : Shelf W} (h : s.Sorted) {e : Predicate × List (Clause W)} (he : e ∈ s.entries) :
    s.get e.1 = e.2 := by
  obtain ⟨l₁, l₂, hsplit⟩ := List.append_of_mem he
  have hl : s.entries.lookup e.1 = some e.2 := by
    refine List.lookup_eq_some_iff.2 ⟨l₁, l₂, hsplit, fun x hx => ?_⟩
    have hnd := h.nodup
    rw [predicates, hsplit, List.map_append, List.map_cons, List.nodup_append] at hnd
    have := hnd.2.2 x.1 (List.mem_map_of_mem hx) e.1 List.mem_cons_self
    simpa using fun e => this e.symm
  rw [get, hl]
  rfl

theorem Sorted.mem_get_iff {s : Shelf W} (h : s.Sorted) {p : Predicate} {c : Clause W} :
    c ∈ s.get p ↔ c ∈ s.clauses ∧ c.head.predicate = p := by
  constructor
  · intro hc
    unfold get at hc
    cases hl : s.entries.lookup p with
    | none => rw [hl] at hc; cases hc
    | some cs =>
      rw [hl] at hc
      have hm := Renaming.mem_of_lookup hl
      exact ⟨List.mem_flatMap.2 ⟨_, hm, hc⟩, h.under _ hm c hc⟩
  · rintro ⟨hc, hp⟩
    obtain ⟨e, he, hc⟩ := List.mem_flatMap.1 hc
    have hk : e.1 = p := (h.under e he c hc).symm.trans hp
    rw [← hk, h.get_of_mem he]
    exact hc

end Shelf

namespace KnowledgeBase

variable [Weight W]

/-- **A program in order.** -/
structure Regular (V : Vocabulary W) (kb : KnowledgeBase W) : Prop where
  facts  : kb.facts.Sorted
  rules  : kb.rules.Sorted
  fact   : ∀ c ∈ kb.facts.clauses, ∃ (a : Atom) (w : W), c = .fact (a.literal w) ∧ V.HasLiteral 0 (a.literal w) ∧
    w ∈ V.weights ∧ a.predicate.isNegated = false
  rule   : ∀ c ∈ kb.rules.clauses, c.Regular V

/-- An atom is stated with a weight. -/
def States (kb : KnowledgeBase W) (a : Atom) (w : W) : Prop := Clause.fact (a.literal w) ∈ kb.facts.clauses

/-- What a program says when some negations are taken to hold; the weights of its facts do not matter. -/
def theory (kb : KnowledgeBase W) (denied : Predicate → List (Option Constant) → Prop) : Theory W where
  fact a   := ∃ w, kb.States a w
  rule c   := c ∈ kb.rules.clauses
  denied   := denied

end KnowledgeBase
end Credence
