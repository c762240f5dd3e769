import Credence.Proofs.Instance
/-!
# Most general unifiers

A literal says an atom once every variable has a constant and every occurrence of a wildcard has one of its own
(`Literal.ground`).  Two literals unify exactly when they say one atom for some constants of the variables they share,
and the constants with which they do are those that factor through the bindings found (`unify_mostGeneral`).

Bindings are followed for as long as there are any.  That this comes to an end is a statement about the bindings alone
(`Subst.Ends`), and the bindings have it at every position of the two literals, not only behind the last.
-/
namespace Credence

variable {W : Type}

/-! ## Where bindings end -/

namespace Subst

variable {s : Subst} {v : Var}

/-- From the one term the bindings lead to the other, and no further. -/
inductive Ends (s : Subst) : Term → Term → Prop
  | const (c : Constant) : Ends s (.const c) (.const c)
  | free {v : Var} : s.get? v = none → Ends s (.var v) (.var v)
  | bound {v : Var} {t u : Term} : s.get? v = some t → Ends s t u → Ends s (.var v) u

/-- Steps enough to leave no bound variable are all the steps that there are. -/
theorem ends_chaseFor : ∀ (steps : Nat) (t : Term), (∀ v, s.chaseFor steps t = .var v → s.get? v = none) →
    s.Ends t (s.chaseFor steps t)
  | 0,         .const c, _ => .const c
  | 0,         .var v,   h => .free (h v rfl)
  | _ + 1,     .const c, _ => .const c
  | steps + 1, .var v,   h => by
    cases hv : s.get? v with
    | none =>
      simp only [chaseFor, hv]
      exact .free hv
    | some t =>
      simp only [chaseFor, hv] at h ⊢
      exact .bound hv (ends_chaseFor steps t h)

theorem get?_eq_none (h : ∀ b ∈ s.bindings, b.1 ≠ v) : s.get? v = none :=
  List.lookup_eq_none_iff.2 (fun b hb => bne_iff_ne.2 (h b hb).symm)

theorem Triangular.ends (h : Triangular s.bindings) (t : Term) : s.Ends t (s.chase t) := by
  refine ends_chaseFor s.size t (fun v hv => get?_eq_none (fun b hb e => ?_))
  refine resolve_ne_bound h t b hb ?_
  rw [← chase_eq_resolve h, e]
  exact hv

/-- **The solutions factor through the bindings.** -/
theorem Triangular.solves_iff_factors (h : Triangular s.bindings) (ν : Valuation) :
    Solves ν s ↔ ∃ μ : Valuation, ∀ v, v.wildcard = false → (s.chase (.var v)).value? μ = some (ν v) := by
  constructor
  · exact fun hs => ⟨ν, fun v hv => by rw [value?_chase h hs, Term.value?_var hv]⟩
  · rintro ⟨μ, hμ⟩ b hb
    have hsame : ∀ t : Term, t.value? ν = t.value? (s.extend μ) := fun t => by
      cases t with
      | const c => rfl
      | var v =>
        cases hv : v.wildcard with
        | true => rw [Term.value?_wildcard hv, Term.value?_wildcard hv]
        | false => rw [value?_extend h, hμ v hv, Term.value?_var hv]
    have hw := bound_not_wildcard h b hb
    rw [hsame b.2, solves_extend h μ b hb, ← Term.value?_var hw, ← hsame, Term.value?_var hw]

end Subst

/-! ## Terms that always agree -/

theorem Agree.eq {x y : Option Constant} (h : Agree x y) (hx : x ≠ none) (hy : y ≠ none) : x = y :=
  (h.resolve_left hx).resolve_left hy

theorem Term.eq_of_agree {t u : Term} (ht : t.isWildcard = false) (hu : u.isWildcard = false)
    (h : ∀ ν : Valuation, Agree (t.value? ν) (u.value? ν)) : t = u := by
  have heq : ∀ ν : Valuation, t.value? ν = u.value? ν := fun ν =>
    (h ν).eq (value?_ne_none ht ν) (value?_ne_none hu ν)
  cases t with
  | var v => exact (eq_var_of_value? (fun ν => (heq ν).symm.trans (value?_var ht ν))).symm
  | const c =>
    cases u with
    | var w => exact eq_var_of_value? (fun ν => (heq ν).trans (value?_var hu ν))
    | const d => exact congrArg Term.const (Option.some.inj (heq (fun _ => c)))

/-! ## Saying an atom -/

/-- The constant a term stands for, where a wildcard stands for `c`. -/
def Term.fill (ν : Valuation) (c : Constant) : Term → Constant
  | .const d => d
  | .var v   => if v.wildcard then c else ν v

instance : Nonempty Constant := ⟨⟨""⟩⟩

theorem Term.allows_iff {t : Term} {ν : Valuation} {c : Constant} : Allows (t.value? ν) c ↔ ∃ d, t.fill ν d = c := by
  cases t with
  | const d => simp [Allows, value?, fill]
  | var v =>
    cases hv : v.wildcard with
    | true => simp [Allows, value?, fill, hv]
    | false => simp [Allows, value?, fill, hv]

theorem Agree.exists_allows {x y : Option Constant} (h : Agree x y) : ∃ c, Allows x c ∧ Allows y c := by
  cases x with
  | some c =>
    rcases h with h | h | h
    · cases h
    · exact ⟨c, .inr rfl, .inl h⟩
    · exact ⟨c, .inr rfl, .inr h.symm⟩
  | none =>
    cases y with
    | some d => exact ⟨d, .inl rfl, .inr rfl⟩
    | none => exact ⟨⟨""⟩, .inl rfl, .inl rfl⟩

namespace Literal

variable {a b : Literal W} {ν : Valuation}

/-- The atom that a literal says with `ν` for its variables and `ω` for its wildcards, position by position. -/
def ground (l : Literal W) (ν : Valuation) (ω : Nat → Constant) : Atom :=
  ⟨l.predicate, l.terms.mapIdx (fun i t => t.fill ν (ω i))⟩

theorem exists_mapIdx_fill : ∀ (ts : List Term) (cs : List Constant),
    List.Forall₂ Allows (ts.map (Term.value? ν)) cs ↔ ∃ ω : Nat → Constant, ts.mapIdx (fun i t => t.fill ν (ω i)) = cs
  | [],      [] => by simp
  | [],      c :: cs => by simp
  | t :: ts, [] => by simp
  | t :: ts, c :: cs => by
    rw [List.map_cons, List.forall₂_cons, Term.allows_iff, exists_mapIdx_fill ts cs]
    constructor
    · rintro ⟨⟨d, hd⟩, ω, hω⟩
      refine ⟨fun i => i.casesOn d ω, ?_⟩
      rw [List.mapIdx_cons]
      exact congrArg₂ _ hd hω
    · rintro ⟨ω, hω⟩
      rw [List.mapIdx_cons] at hω
      obtain ⟨hhead, htail⟩ := List.cons.inj hω
      exact ⟨⟨ω 0, hhead⟩, fun i => ω (i + 1), htail⟩

theorem admits_iff_ground {l : Literal W} {x : Atom} : l.Admits ν x ↔ ∃ ω, l.ground ν ω = x := by
  rw [Admits, values, exists_mapIdx_fill]
  cases x
  simp [ground]

/-- Where two literals agree, there are constants for their wildcards that make them say one atom. -/
theorem exists_forall₂_allows : ∀ {ts us : List Term}, ts.length = us.length → AgreeAll ν ts us →
    ∃ cs, List.Forall₂ Allows (ts.map (Term.value? ν)) cs ∧ List.Forall₂ Allows (us.map (Term.value? ν)) cs
  | [],      [],      _,    _   => ⟨[], .nil, .nil⟩
  | t :: ts, u :: us, hlen, hag => by
    obtain ⟨hag, hags⟩ := agreeAll_cons.1 hag
    obtain ⟨c, ht, hu⟩ := Agree.exists_allows hag
    obtain ⟨cs, hts, hus⟩ := exists_forall₂_allows (by simpa using hlen) hags
    exact ⟨c :: cs, .cons ht hts, .cons hu hus⟩

theorem ground_eq_iff (ha : a.isWellFormed = true) (hb : b.isWellFormed = true) :
    (∃ α β, a.ground ν α = b.ground ν β) ↔ a.predicate = b.predicate ∧ AgreeAll ν a.terms b.terms := by
  constructor
  · rintro ⟨α, β, heq⟩
    have hadmits : a.Admits ν (a.ground ν α) := admits_iff_ground.2 ⟨α, rfl⟩
    have hadmits' : b.Admits ν (a.ground ν α) := admits_iff_ground.2 ⟨β, heq.symm⟩
    exact ⟨hadmits.1.trans hadmits'.1.symm, agreeAll_of_admits hadmits hadmits'⟩
  · rintro ⟨hp, hag⟩
    have hlen : a.terms.length = b.terms.length := by rw [isWellFormed_iff.1 ha, isWellFormed_iff.1 hb, hp]
    obtain ⟨cs, hcs, hcs'⟩ := exists_forall₂_allows hlen hag
    obtain ⟨α, hα⟩ := admits_iff_ground.1 (show a.Admits ν ⟨a.predicate, cs⟩ from ⟨rfl, hcs⟩)
    obtain ⟨β, hβ⟩ := admits_iff_ground.1 (show b.Admits ν ⟨a.predicate, cs⟩ from ⟨hp.symm, hcs'⟩)
    exact ⟨α, β, hα.trans hβ.symm⟩

/-! ## Unifiers -/

/-- What has been bound ends also before all positions are done, and where they do not unify. -/
theorem ends_unifyAll (ts us : List Term) (t : Term) :
    (Term.unifyAll ts us .empty).2.Ends t ((Term.unifyAll ts us .empty).2.chase t) :=
  (Term.unifyAll_spec ts us (s := .empty) trivial).triangular.ends t

theorem subst_agree {s : Subst} (h : a.unify b = some s) {i : Nat} {t u : Term} (ht : (a.subst s).terms[i]? = some t)
    (hu : (b.subst s).terms[i]? = some u) (htw : t.isWildcard = false) (huw : u.isWildcard = false) : t = u := by
  obtain ⟨-, htri, hsol⟩ := unify_eq_some h
  rw [subst_terms, List.getElem?_map, Option.map_eq_some_iff] at ht hu
  obtain ⟨x, hx, rfl⟩ := ht
  obtain ⟨y, hy, rfl⟩ := hu
  refine Term.eq_of_agree htw huw (fun ν => ?_)
  have hmem : (x, y) ∈ a.terms.zip b.terms := by
    refine List.mem_of_getElem? (i := i) ?_
    rw [List.getElem?_zip_eq_some]
    exact ⟨hx, hy⟩
  rw [← Subst.value?_extend htri, ← Subst.value?_extend htri]
  exact (hsol _).1 (Subst.solves_extend htri ν) _ hmem

/-- **Unification finds a most general unifier, if there is one.**  Two literals unify exactly when they are about one
predicate and say one atom for some constants of their variables and of each occurrence of a wildcard.  What is bound
are no wildcards; following the bindings ends on every term, at every position on the way; the literals become the same
but for wildcards; the constants for which they say one atom are those that factor through the bindings; and the cheap
test passes. -/
theorem unify_mostGeneral (ha : a.isWellFormed = true) (hb : b.isWellFormed = true) :
    ((a.unify b).isSome = true ↔ a.predicate = b.predicate ∧ ∃ ν α β, a.ground ν α = b.ground ν β) ∧
    (∀ n t, (Term.unifyAll (a.terms.take n) (b.terms.take n) .empty).2.Ends t
      ((Term.unifyAll (a.terms.take n) (b.terms.take n) .empty).2.chase t)) ∧
    ∀ s, a.unify b = some s →
      (∀ v t, (v, t) ∈ s.bindings → v.wildcard = false) ∧
      (∀ t, s.Ends t (s.chase t)) ∧
      (∀ (i : Nat) (t u : Term), (a.subst s).terms[i]? = some t → (b.subst s).terms[i]? = some u →
        t.isWildcard = false → u.isWildcard = false → t = u) ∧
      (∀ ν, (∃ α β, a.ground ν α = b.ground ν β) ↔
        ∃ μ : Valuation, ∀ v, v.wildcard = false → (s.chase (.var v)).value? μ = some (ν v)) ∧
      a.isRelevant b = true := by
  refine ⟨?_, fun n t => ends_unifyAll _ _ t, fun s hs => ?_⟩
  · rw [unify_isSome_iff]
    refine and_congr_right (fun hp => exists_congr (fun ν => ?_))
    rw [ground_eq_iff ha hb, and_iff_right hp]
  · obtain ⟨hp, htri, hsol⟩ := unify_eq_some hs
    refine ⟨fun v t hvt => Subst.bound_not_wildcard htri (v, t) hvt, htri.ends, fun i t u => subst_agree hs, fun ν => ?_,
      isRelevant_of_unify (by rw [hs]; rfl)⟩
    rw [ground_eq_iff ha hb, and_iff_right hp, ← hsol ν, htri.solves_iff_factors]

namespace Chained

def x (n : Nat) : Term := .var ⟨n, false⟩
def blank : Term := .var ⟨9, true⟩
def k : Constant := ⟨"k"⟩
def left : Literal Double := ⟨.ofFloat 1.0, ⟨"r", 5⟩, [x 0, x 1, x 0, blank, blank]⟩
def right : Literal Double := ⟨.ofFloat 1.0, ⟨"r", 5⟩, [x 1, x 2, .const k, x 2, .const ⟨"m"⟩]⟩
def found : Subst := ⟨[(⟨0, false⟩, x 1), (⟨1, false⟩, x 2), (⟨2, false⟩, .const k)]⟩

theorem unify_found : left.unify right = some found := by
  rw [unify, unifyInto, if_pos (show left.predicate = right.predicate from rfl)]
  rfl

end Chained

open Chained in
/-- A variable bound to a second, that to a third, and that to the constant that the first one met; and a wildcard that
stands for two constants. -/
theorem unify_mostGeneral_chained : left.isWellFormed = true ∧ right.isWellFormed = true ∧
    left.unify right = some found ∧ found.Ends (x 0) (.const k) ∧
    (∃ α β, left.ground (fun _ => k) α = right.ground (fun _ => k) β) ∧
    (left.unify right).isSome = true ∧ left.isRelevant right = true := by
  obtain ⟨hsome, -, hgeneral⟩ := unify_mostGeneral (a := left) (b := right) rfl rfl
  obtain ⟨-, hends, -, hfactors, hrelevant⟩ := hgeneral found unify_found
  have hk : ∀ v : Var, v.wildcard = false → (found.chase (.var v)).value? (fun _ => k) = some k := fun v hv =>
    Subst.chase_closed (P := fun t => t.value? (fun _ => k) = some k) (unify_eq_some unify_found).2.1
      (by simp [found, x, Term.value?]) (Term.value?_var hv _)
  have hground := (hfactors (fun _ => k)).2 ⟨fun _ => k, hk⟩
  exact ⟨rfl, rfl, unify_found, hends (x 0), hground, hsome.2 ⟨rfl, _, hground⟩, hrelevant⟩

end Literal
end Credence
