import Credence.Proofs.Unification
/-!
# Atoms and the literals that cover them

An atom is a predicate with constants.  A literal admits an atom under a valuation when its values are the atom's
constants, with any constant in the place of a wildcard, and covers it when it admits it under some valuation.  For a
literal and an atom, unification decides exactly that (`unify_literal_isSome_iff`), and its bindings are solved by the
valuations under which the atom is admitted (`solves_iff_admits`).
-/
namespace Credence

variable {W : Type}

structure Atom where
  predicate : Predicate
  args      : List Constant
deriving DecidableEq

/-- The literal that states an atom with a weight. -/
def Atom.literal (a : Atom) (w : W) : Literal W := ⟨w, a.predicate, a.args.map .const⟩

theorem Atom.literal_inj {a b : Atom} {v w : W} (h : a.literal v = b.literal w) : a = b ∧ v = w := by
  cases a; cases b
  simp only [literal, Literal.mk.injEq] at h
  obtain ⟨h1, h2, h3⟩ := h
  subst h2
  have hargs := List.map_injective_iff.2 (fun _ _ e => by injection e) h3
  exact ⟨by rw [hargs], h1⟩

theorem Atom.literal_isSemiGrounded (a : Atom) (w : W) : (a.literal w).isSemiGrounded = true := by
  refine List.all_eq_true.2 (fun t ht => ?_)
  obtain ⟨c, -, rfl⟩ := List.mem_map.1 ht
  rfl

/-- As many constants as the predicate has arguments. -/
def Atom.WellFormed (a : Atom) : Prop := a.args.length = a.predicate.arity

/-- A value, or the lack of one, leaves room for a constant. -/
def Allows (x : Option Constant) (c : Constant) : Prop := x = none ∨ x = some c

namespace Literal

def values (l : Literal W) (ν : Valuation) : List (Option Constant) := l.terms.map (Term.value? ν)

/-- The atom is what the literal says under a valuation. -/
def Admits (l : Literal W) (ν : Valuation) (a : Atom) : Prop :=
  l.predicate = a.predicate ∧ List.Forall₂ Allows (l.values ν) a.args

def Covers (l : Literal W) (a : Atom) : Prop := ∃ ν, l.Admits ν a

theorem Admits.length_eq {l : Literal W} {ν : Valuation} {a : Atom} (h : l.Admits ν a) :
    l.terms.length = a.args.length := by
  have := h.2.length_eq
  simpa [values] using this

@[simp] theorem values_length (l : Literal W) (ν : Valuation) : (l.values ν).length = l.terms.length := by
  simp [values]

theorem isWellFormed_iff {l : Literal W} : l.isWellFormed = true ↔ l.terms.length = l.predicate.arity := by
  simp [isWellFormed]

theorem exists_atom {l : Literal W} (h : l.isGrounded = true) : ∃ a : Atom, l = a.literal l.weight := by
  have key : ∀ ts : List Term, (∀ t ∈ ts, t.isConst = true) → ∃ cs : List Constant, ts = cs.map .const := by
    intro ts
    induction ts with
    | nil => exact fun _ => ⟨[], rfl⟩
    | cons t ts ih =>
      intro ht
      obtain ⟨cs, rfl⟩ := ih (fun t' ht' => ht t' (List.mem_cons_of_mem _ ht'))
      cases t with
      | const c => exact ⟨c :: cs, rfl⟩
      | var v => cases ht (.var v) List.mem_cons_self
  obtain ⟨cs, hcs⟩ := key l.terms (List.all_eq_true.1 h)
  refine ⟨⟨l.predicate, cs⟩, ?_⟩
  rw [Atom.literal, ← hcs]

/-! ## Substitution -/

theorem subst_predicate (l : Literal W) (s : Subst) : (l.subst s).predicate = l.predicate := by
  unfold subst; split <;> rfl

theorem subst_weight (l : Literal W) (s : Subst) : (l.subst s).weight = l.weight := by
  unfold subst; split <;> rfl

theorem subst_terms (l : Literal W) (s : Subst) : (l.subst s).terms = l.terms.map s.chase := by
  unfold subst
  split
  · rename_i h
    have hs : s.bindings = [] := List.isEmpty_iff.1 h
    have hc : s.chase = fun t => t := by
      funext t
      rw [Subst.chase, Subst.size, hs]
      rfl
    rw [hc, List.map_id']
  · rfl

theorem values_subst {s : Subst} (h : Subst.Triangular s.bindings) (l : Literal W) (ν : Valuation) :
    (l.subst s).values ν = l.values (s.extend ν) := by
  rw [values, values, subst_terms, List.map_map]
  exact List.map_congr_left (fun t _ => (Subst.value?_extend h ν t).symm)

/-- Under a solution of the bindings a substitution changes no value. -/
theorem values_subst_of_solves {s : Subst} {ν : Valuation} (h : Subst.Triangular s.bindings) (hs : Subst.Solves ν s)
    (l : Literal W) : (l.subst s).values ν = l.values ν := by
  rw [values, values, subst_terms, List.map_map]
  exact List.map_congr_left (fun t _ => Subst.value?_chase h hs t)

/-! ## Unification of literals -/

theorem unify_eq_some {l m : Literal W} {s : Subst} (h : l.unify m = some s) :
    l.predicate = m.predicate ∧ Subst.Triangular s.bindings ∧
      ∀ ν, Subst.Solves ν s ↔ AgreeAll ν l.terms m.terms := by
  unfold unify unifyInto at h
  by_cases hp : l.predicate = m.predicate
  · have hu := Term.unifyAll_spec l.terms m.terms (s := .empty) trivial
    rw [if_pos hp] at h
    cases hr : Term.unifyAll l.terms m.terms .empty with
    | mk ok s' =>
      rw [hr] at h hu
      cases ok with
      | false => cases h
      | true =>
        injection h with h
        subst h
        refine ⟨hp, hu.triangular, fun ν => ?_⟩
        have := hu.solves_iff ν
        simp only [true_and] at this
        rw [this]
        exact and_iff_right (fun b hb => by cases hb)
  · rw [if_neg hp] at h
    cases h

theorem unify_eq_none {l m : Literal W} (h : l.unify m = none) (hp : l.predicate = m.predicate) (ν : Valuation) :
    ¬ AgreeAll ν l.terms m.terms := by
  unfold unify unifyInto at h
  have hu := Term.unifyAll_spec l.terms m.terms (s := .empty) trivial
  rw [if_pos hp] at h
  cases hr : Term.unifyAll l.terms m.terms .empty with
  | mk ok s' =>
    rw [hr] at h hu
    cases ok with
    | true => cases h
    | false =>
      intro hag
      have := (hu.solves_iff ν).2 ⟨fun b hb => (by cases hb), hag⟩
      cases this.1

/-- **Two literals unify exactly when some valuation makes them agree.** -/
theorem unify_isSome_iff {l m : Literal W} :
    (l.unify m).isSome = true ↔ l.predicate = m.predicate ∧ ∃ ν, AgreeAll ν l.terms m.terms := by
  cases h : l.unify m with
  | some s =>
    obtain ⟨hp, ht, hsol⟩ := unify_eq_some h
    exact ⟨fun _ => ⟨hp, _, (hsol _).1 (Subst.solves_extend ht (fun _ => ⟨""⟩))⟩, fun _ => rfl⟩
  | none => exact ⟨fun e => (nomatch e), fun ⟨hp, ν, hν⟩ => absurd hν (unify_eq_none h hp ν)⟩

/-- What unifies passes the cheap test. -/
theorem isRelevant_of_unify {l m : Literal W} (h : (l.unify m).isSome = true) : l.isRelevant m = true := by
  obtain ⟨hp, ν, hν⟩ := unify_isSome_iff.1 h
  rw [isRelevant, Bool.and_eq_true, decide_eq_true_iff, List.all_eq_true]
  refine ⟨hp, fun p hm => ?_⟩
  split
  · rename_i c d
    have hag : Agree ((Term.const c).value? ν) ((Term.const d).value? ν) := hν _ hm
    simpa [Agree, Term.value?] using hag
  · rfl

/-- Nothing is bound to but what stood in the two literals. -/
theorem unify_closed {l m : Literal W} {s : Subst} (h : l.unify m = some s) {P : Term → Prop} (hl : ∀ t ∈ l.terms, P t)
    (hm : ∀ t ∈ m.terms, P t) : ∀ b ∈ s.bindings, P b.2 := by
  unfold unify unifyInto at h
  by_cases hp : l.predicate = m.predicate
  · rw [if_pos hp] at h
    have hc := Term.unifyAll_closed (P := P) l.terms m.terms (s := .empty) trivial hl hm (fun b hb => by cases hb)
    cases hr : Term.unifyAll l.terms m.terms .empty with
    | mk ok s' =>
      rw [hr] at h hc
      cases ok with
      | false => cases h
      | true => injection h with h; rw [← h]; exact hc
  · rw [if_neg hp] at h
    cases h

/-- A substitution puts nothing into a literal but what unification bound to. -/
theorem subst_closed {l : Literal W} {s : Subst} (h : Subst.Triangular s.bindings) {P : Term → Prop}
    (hs : ∀ b ∈ s.bindings, P b.2) (hl : ∀ t ∈ l.terms, P t) : ∀ t ∈ (l.subst s).terms, P t := by
  intro t ht
  rw [subst_terms] at ht
  obtain ⟨u, hu, rfl⟩ := List.mem_map.1 ht
  exact Subst.chase_closed h hs (hl u hu)

theorem agree_const_iff {x : Option Constant} {c : Constant} {ν : Valuation} :
    Agree x ((Term.const c).value? ν) ↔ Allows x c := by
  simp [Agree, Allows, Term.value?]

theorem agreeAll_literal_iff {ν : Valuation} : ∀ (ts : List Term) (cs : List Constant), ts.length = cs.length →
    (AgreeAll ν ts (cs.map .const) ↔ List.Forall₂ Allows (ts.map (Term.value? ν)) cs)
  | [],      [],      _ => by simp [AgreeAll]
  | t :: ts, c :: cs, h => by
    have ih := agreeAll_literal_iff (ν := ν) ts cs (by simpa using h)
    rw [List.map_cons, agreeAll_cons, ih, agree_const_iff, List.map_cons, List.forall₂_cons]

/-- **The bindings from meeting an atom are solved by the valuations that admit it.** -/
theorem solves_iff_admits {l : Literal W} {a : Atom} {w : W} {s : Subst} (hl : l.isWellFormed = true)
    (ha : a.WellFormed) (h : l.unify (a.literal w) = some s) (ν : Valuation) :
    Subst.Solves ν s ↔ l.Admits ν a := by
  obtain ⟨hp, -, hs⟩ := unify_eq_some h
  have hlen : l.terms.length = a.args.length := by
    rw [isWellFormed_iff.1 hl, ha, hp]; rfl
  rw [hs ν, Atom.literal, agreeAll_literal_iff l.terms a.args hlen]
  exact (and_iff_right hp).symm

/-- **A literal meets an atom exactly when it covers it.** -/
theorem unify_literal_isSome_iff {l : Literal W} {a : Atom} {w : W} (hl : l.isWellFormed = true) (ha : a.WellFormed) :
    (l.unify (a.literal w)).isSome = true ↔ l.Covers a := by
  constructor
  · intro h
    obtain ⟨s, hs⟩ := Option.isSome_iff_exists.1 h
    have ht := (unify_eq_some hs).2.1
    exact ⟨s.extend (fun _ => ⟨""⟩), (solves_iff_admits hl ha hs _).1 (Subst.solves_extend ht _)⟩
  · rintro ⟨ν, hp, hv⟩
    cases h : l.unify (a.literal w) with
    | some s => rfl
    | none =>
      have hlen : l.terms.length = a.args.length := by simpa [values] using hv.length_eq
      exact absurd ((agreeAll_literal_iff l.terms a.args hlen).2 hv) (unify_eq_none h hp ν)

theorem admits_atom (a : Atom) (w : W) (ν : Valuation) : (a.literal w).Admits ν a := by
  refine ⟨rfl, ?_⟩
  rw [values, Atom.literal, List.map_map]
  induction a.args with
  | nil => exact .nil
  | cons c cs ih => exact .cons (.inr rfl) ih

theorem agree_of_allows {x y : Option Constant} {c : Constant} (hx : Allows x c) (hy : Allows y c) : Agree x y := by
  rcases hx with hx | hx
  · exact .inl hx
  · rcases hy with hy | hy
    · exact .inr (.inl hy)
    · exact .inr (.inr (hx.trans hy.symm))

/-- What stands at one place of two lists goes with one element of a third. -/
theorem exists_of_mem_zip {α β γ : Type} {R : α → γ → Prop} {S : β → γ → Prop} {as : List α} {bs : List β} {cs : List γ}
    (ha : List.Forall₂ R as cs) (hb : List.Forall₂ S bs cs) {p : α × β} (hp : p ∈ as.zip bs) : ∃ c, R p.1 c ∧ S p.2 c := by
  induction ha generalizing bs with
  | nil => simp at hp
  | cons hac _ ih =>
    cases hb with
    | cons hbc hbs =>
      rcases List.mem_cons.1 hp with rfl | hp
      · exact ⟨_, hac, hbc⟩
      · exact ih hbs hp

/-- Terms at one place of two literals that say the same atom leave room for one constant. -/
theorem Admits.exists_allows {ν μ : Valuation} {l m : Literal W} {a : Atom} (hl : l.Admits ν a) (hm : m.Admits μ a)
    {p : Term × Term} (hp : p ∈ l.terms.zip m.terms) : ∃ c, Allows (p.1.value? ν) c ∧ Allows (p.2.value? μ) c :=
  exists_of_mem_zip (List.forall₂_map_left_iff.1 hl.2) (List.forall₂_map_left_iff.1 hm.2) hp

theorem agreeAll_of_admits {ν : Valuation} {l m : Literal W} {a : Atom} (hl : l.Admits ν a) (hm : m.Admits ν a) :
    AgreeAll ν l.terms m.terms := fun p hp => by
  obtain ⟨c, hlc, hmc⟩ := hl.exists_allows hm hp
  exact agree_of_allows hlc hmc

/-- Literals that say the same atom pass the cheap test. -/
theorem isRelevant_of_admits {ν μ : Valuation} {l m : Literal W} {a : Atom} (hl : l.Admits ν a) (hm : m.Admits μ a) :
    l.isRelevant m = true := by
  simp only [isRelevant, Bool.and_eq_true, decide_eq_true_eq]
  refine ⟨hl.1.trans hm.1.symm, List.all_eq_true.2 (fun p hp => ?_)⟩
  obtain ⟨e, hle, hme⟩ := hl.exists_allows hm hp
  rcases p with ⟨t, u⟩
  cases t with
  | var v => rfl
  | const c =>
    cases u with
    | var v => rfl
    | const d =>
      simp only [Allows, Term.value?, reduceCtorEq, Option.some.injEq, false_or] at hle hme
      exact decide_eq_true (hle.trans hme.symm)

/-- A literal without variables says the same under every valuation. -/
theorem values_of_isSemiGrounded {l : Literal W} (h : l.isSemiGrounded = true) (ν μ : Valuation) :
    l.values ν = l.values μ := by
  refine List.map_congr_left (fun t ht => ?_)
  have := List.all_eq_true.1 h t ht
  cases t with
  | const c => rfl
  | var v =>
    have hv : v.wildcard = true := by simpa [Term.isConst, Term.isWildcard] using this
    simp [Term.value?, hv]

/-- Whatever a ground fact meets is bound to constants. -/
theorem chase_isConst_of_mem {l : Literal W} {a : Atom} {w : W} {s : Subst} (hl : l.isWellFormed = true)
    (ha : a.WellFormed) (h : l.unify (a.literal w) = some s) {v : Var} (hv : Term.var v ∈ l.terms)
    (hw : v.wildcard = false) : (s.chase (.var v)).isConst = true := by
  have ht := (unify_eq_some h).2.1
  -- a value that is the same under every valuation cannot hang on a variable
  have key : ∀ ν μ : Valuation, (s.chase (.var v)).value? ν = (s.chase (.var v)).value? μ := by
    intro ν μ
    have hν := (solves_iff_admits hl ha h _).1 (Subst.solves_extend ht ν)
    have hμ := (solves_iff_admits hl ha h _).1 (Subst.solves_extend ht μ)
    obtain ⟨i, hi⟩ := List.mem_iff_getElem?.1 hv
    have hpos : ∀ κ, l.Admits (s.extend κ) a → (a.args[i]?).map some = some ((s.chase (.var v)).value? κ) := by
      intro κ hκ
      have hval : (l.values (s.extend κ))[i]? = some ((s.chase (.var v)).value? κ) := by
        rw [values, List.getElem?_map, hi, ← Subst.value?_extend ht]
        rfl
      obtain ⟨hi', hval⟩ := List.getElem?_eq_some_iff.1 hval
      have hi'' : i < a.args.length := hκ.2.length_eq ▸ hi'
      have hal := hκ.2.get hi' hi''
      simp only [List.get_eq_getElem, hval] at hal
      rw [List.getElem?_eq_getElem hi'', Option.map_some]
      rcases hal with hal | hal
      · rw [← Subst.value?_extend ht, Term.value?_var hw] at hal
        cases hal
      · rw [hal]
    have e1 := hpos ν hν
    have e2 := hpos μ hμ
    rw [e1] at e2
    injection e2
  cases hc : s.chase (.var v) with
  | const c => rfl
  | var y =>
    exfalso
    have hyw : y.wildcard = false := by
      have := Subst.resolve_isWildcard ht (.var v)
      rw [← Subst.chase_eq_resolve ht, hc] at this
      exact this.trans hw
    have := key (fun _ => ⟨"a"⟩) (fun _ => ⟨"b"⟩)
    rw [hc, Term.value?_var hyw, Term.value?_var hyw] at this
    exact absurd this (by decide)

end Literal
end Credence
