import Credence.Clause
import Mathlib.Data.List.Forall2
/-!
# Unification solves equations

A valuation gives every variable a constant, and a term its value; a wildcard has none in particular.  Unification is
read as solving equations between terms: the valuations that satisfy the bindings it returns are exactly those that
satisfied the bindings it was given and make the two sides agree, where a wildcard agrees with anything
(`unifyAll_spec`).  Bindings are triangular: none leads back to a variable bound before it, so following them ends
(`chase_eq_resolve`), and every valuation of the free variables extends to one that satisfies them (`solves_extend`).
-/
namespace Credence

abbrev Valuation := Var → Constant

/-- The value of a term; a wildcard has none in particular. -/
def Term.value? (ν : Valuation) : Term → Option Constant
  | .const c => some c
  | .var v   => if v.wildcard then none else some (ν v)

/-- Two values that can be of the same thing. -/
def Agree (x y : Option Constant) : Prop := x = none ∨ y = none ∨ x = y

namespace Subst

/-! ## Following bindings

`resolve` follows a list of bindings from the front to the back once.  For triangular bindings that is the whole way. -/

def resolve : List (Var × Term) → Term → Term
  | [],           t => t
  | (x, u) :: bs, t => if t = .var x then resolve bs u else resolve bs t

/-- **No binding leads back**: a bound variable occurs in no binding behind its own, and no wildcard is bound or bound
to. -/
def Triangular : List (Var × Term) → Prop
  | []           => True
  | (x, u) :: bs =>
    (x.wildcard = false ∧ u.isWildcard = false ∧ u ≠ .var x ∧ ∀ b ∈ bs, b.1 ≠ x ∧ b.2 ≠ .var x) ∧ Triangular bs

/-- The valuation satisfies every binding. -/
def Solves (ν : Valuation) (s : Subst) : Prop := ∀ b ∈ s.bindings, b.2.value? ν = some (ν b.1)

theorem lookup_cons_ne {x y : Var} (u : Term) (bs : List (Var × Term)) (h : y ≠ x) :
    List.lookup y ((x, u) :: bs) = List.lookup y bs := by
  rw [List.lookup_cons, beq_eq_false_iff_ne.2 h]

theorem chaseFor_skip (x : Var) (u : Term) (bs : List (Var × Term)) (h : ∀ b ∈ bs, b.2 ≠ .var x) :
    ∀ (n : Nat) (t : Term), t ≠ .var x → chaseFor ⟨(x, u) :: bs⟩ n t = chaseFor ⟨bs⟩ n t
  | 0,     t,        _ => rfl
  | _ + 1, .const c, _ => rfl
  | n + 1, .var y,   ht => by
    have hy : y ≠ x := fun e => ht (by rw [e])
    simp only [chaseFor, get?, lookup_cons_ne u bs hy]
    cases hl : List.lookup y bs with
    | none => rfl
    | some t' =>
      obtain ⟨l₁, l₂, rfl, -⟩ := List.lookup_eq_some_iff.1 hl
      exact chaseFor_skip x u _ h n t' (h (y, t') (by simp))

theorem chaseFor_eq_resolve : ∀ (bs : List (Var × Term)), Triangular bs → ∀ (n : Nat) (t : Term),
    bs.length ≤ n → chaseFor ⟨bs⟩ n t = resolve bs t
  | [], _, n, t, _ => by
    cases n with
    | zero => rfl
    | succ n => cases t <;> rfl
  | (x, u) :: bs, ⟨⟨_, _, hu, hbs⟩, ht⟩, n, t, hn => by
    have hskip := chaseFor_skip x u bs (fun b hb => (hbs b hb).2)
    by_cases htx : t = .var x
    · obtain ⟨m, rfl⟩ : ∃ m, n = m + 1 := ⟨n - 1, by simp at hn; omega⟩
      subst htx
      have hl : List.lookup x ((x, u) :: bs) = some u := by simp
      simp only [chaseFor, get?, hl, resolve, if_pos]
      rw [hskip m u hu]
      exact chaseFor_eq_resolve bs ht m u (by simpa using hn)
    · rw [hskip n t htx, resolve, if_neg htx]
      exact chaseFor_eq_resolve bs ht n t (by simp at hn; omega)

theorem chase_eq_resolve {s : Subst} (h : Triangular s.bindings) (t : Term) : s.chase t = resolve s.bindings t :=
  chaseFor_eq_resolve s.bindings h s.size t (Nat.le_refl _)

theorem resolve_const (bs : List (Var × Term)) (c : Constant) : resolve bs (.const c) = .const c := by
  induction bs with
  | nil => rfl
  | cons b bs ih => simp [resolve, ih]

/-- What is found at the end of the bindings is not bound. -/
theorem resolve_ne_bound : ∀ {bs : List (Var × Term)}, Triangular bs → ∀ (t : Term),
    ∀ b ∈ bs, resolve bs t ≠ .var b.1
  | (x, u) :: bs, ⟨⟨_, _, hu, hbs⟩, ht⟩, t, b, hb => by
    have hx : ∀ t', t' ≠ .var x → resolve bs t' ≠ .var x := by
      intro t' ht'
      clear hb ht
      induction bs generalizing t' with
      | nil => exact ht'
      | cons b bs ih =>
        have hbs' := fun b' hb' => hbs b' (List.mem_cons_of_mem b hb')
        rw [resolve]
        split
        · exact ih hbs' _ (hbs b List.mem_cons_self).2
        · exact ih hbs' _ ht'
    rw [resolve]
    rcases List.mem_cons.1 hb with rfl | hb
    · split
      · exact hx u hu
      · rename_i h
        exact hx t h
    · split
      · exact resolve_ne_bound ht u b hb
      · exact resolve_ne_bound ht t b hb

theorem resolve_isWildcard : ∀ {bs : List (Var × Term)}, Triangular bs → ∀ (t : Term),
    (resolve bs t).isWildcard = t.isWildcard
  | [], _, t => rfl
  | (x, u) :: bs, ⟨⟨hx, hw, _, _⟩, ht⟩, t => by
    rw [resolve]
    split
    · rename_i h
      rw [resolve_isWildcard ht u, hw, h]
      exact hx.symm
    · exact resolve_isWildcard ht t

/-- A solution gives a term and what it is bound to one value. -/
theorem value?_resolve {ν : Valuation} : ∀ {bs : List (Var × Term)}, Triangular bs → Solves ν ⟨bs⟩ → ∀ (t : Term),
    (resolve bs t).value? ν = t.value? ν
  | [], _, _, t => rfl
  | (x, u) :: bs, ⟨⟨hx, _, _, _⟩, ht⟩, hs, t => by
    have hs' : Solves ν ⟨bs⟩ := fun b hb => hs b (List.mem_cons_of_mem _ hb)
    rw [resolve]
    split
    · rename_i h
      rw [value?_resolve ht hs' u, hs (x, u) List.mem_cons_self, h]
      simp [Term.value?, hx]
    · exact value?_resolve ht hs' t

theorem value?_chase {ν : Valuation} {s : Subst} (h : Triangular s.bindings) (hs : Solves ν s) (t : Term) :
    (s.chase t).value? ν = t.value? ν := by
  rw [chase_eq_resolve h]
  exact value?_resolve h hs t

/-- The valuation that follows the bindings and takes the value of what stands at their end. -/
def extend (s : Subst) (ν : Valuation) : Valuation := fun v => ((s.chase (.var v)).value? ν).getD (ν v)

theorem value?_extend {s : Subst} (h : Triangular s.bindings) (ν : Valuation) (t : Term) :
    t.value? (s.extend ν) = (s.chase t).value? ν := by
  cases t with
  | const c => rw [chase_eq_resolve h, resolve_const]; rfl
  | var v =>
    have hw := resolve_isWildcard h (.var v)
    rw [← chase_eq_resolve h] at hw
    cases hv : v.wildcard with
    | true =>
      rw [show (Term.var v).isWildcard = true from hv] at hw
      simp only [Term.value?, hv, if_true]
      cases hc : s.chase (.var v) with
      | const c => rw [hc] at hw; cases hw
      | var w => rw [hc] at hw; simp [show w.wildcard = true from hw]
    | false =>
      rw [show (Term.var v).isWildcard = false from hv] at hw
      simp only [Term.value?, hv, extend]
      cases hc : s.chase (.var v) with
      | const c => rfl
      | var w =>
        rw [hc] at hw
        simp [show w.wildcard = false from hw]

/-- A bound variable ends where what it is bound to ends. -/
theorem resolve_bound : ∀ {bs : List (Var × Term)}, Triangular bs → ∀ b ∈ bs, resolve bs (.var b.1) = resolve bs b.2
  | (x, u) :: bs, ⟨⟨_, _, hu, hbs⟩, ht⟩, b, hb => by
    rcases List.mem_cons.1 hb with rfl | hb
    · simp [resolve, hu]
    · have h1 : Term.var b.1 ≠ .var x := fun e => (hbs b hb).1 (by injection e)
      rw [resolve, resolve, if_neg h1, if_neg (hbs b hb).2]
      exact resolve_bound ht b hb

theorem bound_not_wildcard : ∀ {bs : List (Var × Term)}, Triangular bs → ∀ b ∈ bs, b.1.wildcard = false
  | (x, u) :: bs, ⟨⟨hx, _, _, _⟩, ht⟩, b, hb => by
    rcases List.mem_cons.1 hb with rfl | hb
    · exact hx
    · exact bound_not_wildcard ht b hb

/-- **Every valuation of the free variables extends to a solution.** -/
theorem solves_extend {s : Subst} (h : Triangular s.bindings) (ν : Valuation) : Solves (s.extend ν) s := by
  intro b hb
  have hw := bound_not_wildcard h b hb
  have hv : (Term.var b.1).value? (s.extend ν) = some (s.extend ν b.1) := by simp [Term.value?, hw]
  rw [← hv, value?_extend h, value?_extend h, chase_eq_resolve h, chase_eq_resolve h, resolve_bound h b hb]

/-! ## Binding one more variable -/

theorem put_of_unbound (v : Var) (t : Term) : ∀ (bs : List (Var × Term)), (∀ b ∈ bs, b.1 ≠ v) → put v t bs = bs ++ [(v, t)]
  | [],      _ => rfl
  | b :: bs, h => by
    rw [put, if_neg (h b List.mem_cons_self), put_of_unbound v t bs (fun b' hb => h b' (List.mem_cons_of_mem _ hb))]
    rfl

theorem triangular_append {v : Var} {t : Term} (hv : v.wildcard = false) (ht : t.isWildcard = false) (hne : t ≠ .var v) :
    ∀ {bs : List (Var × Term)}, Triangular bs → (∀ b ∈ bs, b.1 ≠ v) → (∀ b ∈ bs, t ≠ .var b.1) →
      Triangular (bs ++ [(v, t)])
  | [], _, _, _ => ⟨⟨hv, ht, hne, fun _ h => by cases h⟩, trivial⟩
  | (x, u) :: bs, ⟨⟨hx, hw, hu, hbs⟩, h⟩, hb, htb => by
    refine ⟨⟨hx, hw, hu, fun b hb' => ?_⟩, triangular_append hv ht hne h
      (fun b hb' => hb b (List.mem_cons_of_mem _ hb')) (fun b hb' => htb b (List.mem_cons_of_mem _ hb'))⟩
    rcases List.mem_append.1 hb' with hb' | hb'
    · exact hbs b hb'
    · rw [List.mem_singleton] at hb'
      subst hb'
      exact ⟨(hb (x, u) List.mem_cons_self).symm, htb (x, u) List.mem_cons_self⟩

theorem bind_eq {s : Subst} {v : Var} {t : Term} (hv : v.wildcard = false) (hb : ∀ b ∈ s.bindings, b.1 ≠ v) :
    s.bind v t = ⟨s.bindings ++ [(v, t)]⟩ := by
  rw [bind, hv]
  simp [put_of_unbound v t s.bindings hb]

theorem solves_bind_iff {ν : Valuation} {s : Subst} {v : Var} {t : Term} (hv : v.wildcard = false)
    (hb : ∀ b ∈ s.bindings, b.1 ≠ v) : Solves ν (s.bind v t) ↔ Solves ν s ∧ t.value? ν = some (ν v) := by
  rw [bind_eq hv hb]
  constructor
  · intro h
    exact ⟨fun b hb' => h b (List.mem_append_left _ hb'), h (v, t) (by simp)⟩
  · rintro ⟨hs, ht⟩ b hb'
    rcases List.mem_append.1 hb' with hb' | hb'
    · exact hs b hb'
    · rw [List.mem_singleton] at hb'
      rw [hb']
      exact ht

/-- Whatever holds of the terms that are bound to holds of the end of the bindings. -/
theorem resolve_closed {P : Term → Prop} : ∀ {bs : List (Var × Term)}, (∀ b ∈ bs, P b.2) → ∀ (t : Term), P t → P (resolve bs t)
  | [], _, t, ht => ht
  | b :: bs, h, t, ht => by
    have h' := fun b' hb => h b' (List.mem_cons_of_mem _ hb)
    rw [resolve]
    split
    · exact resolve_closed h' _ (h b List.mem_cons_self)
    · exact resolve_closed h' _ ht

theorem chase_closed {P : Term → Prop} {s : Subst} (h : Triangular s.bindings) (hP : ∀ b ∈ s.bindings, P b.2) {t : Term}
    (ht : P t) : P (s.chase t) := by
  rw [chase_eq_resolve h]
  exact resolve_closed hP t ht

end Subst

/-! ## Unifying terms -/

open Subst

/-- What unification returns: bindings that are triangular, and solved by exactly those solutions of what it was given
that satisfy `E`. -/
structure Unified (E : Valuation → Prop) (s : Subst) (r : Bool × Subst) : Prop where
  triangular : Triangular r.2.bindings
  solves_iff : ∀ ν, r.1 = true ∧ Solves ν r.2 ↔ Solves ν s ∧ E ν

theorem Unified.unchanged {E : Valuation → Prop} {s : Subst} (h : Triangular s.bindings) (hE : ∀ ν, Solves ν s → E ν) :
    Unified E s (true, s) :=
  ⟨h, fun ν => ⟨fun hs => ⟨hs.2, hE ν hs.2⟩, fun hs => ⟨rfl, hs.1⟩⟩⟩

theorem Unified.bound {E : Valuation → Prop} {s : Subst} {v : Var} {t : Term} (h : Triangular s.bindings)
    (hv : v.wildcard = false) (hb : ∀ b ∈ s.bindings, b.1 ≠ v) (ht : t.isWildcard = false) (hne : t ≠ .var v)
    (htb : ∀ b ∈ s.bindings, t ≠ .var b.1) (hE : ∀ ν, Solves ν s → (t.value? ν = some (ν v) ↔ E ν)) :
    Unified E s (true, s.bind v t) := by
  refine ⟨?_, fun ν => ?_⟩
  · show Triangular (s.bind v t).bindings
    rw [bind_eq hv hb]
    exact triangular_append hv ht hne h hb htb
  · simp only [true_and, solves_bind_iff hv hb]
    exact and_congr_right (hE ν)

theorem Term.value?_wildcard {v : Var} (h : v.wildcard = true) (ν : Valuation) : (Term.var v).value? ν = none := by
  simp [Term.value?, h]

theorem Term.value?_var {v : Var} (h : v.wildcard = false) (ν : Valuation) : (Term.var v).value? ν = some (ν v) := by
  simp [Term.value?, h]

theorem Term.value?_ne_none {t : Term} (h : t.isWildcard = false) (ν : Valuation) : t.value? ν ≠ none := by
  cases t with
  | const c => simp [Term.value?]
  | var v => simp [Term.value?_var h]

/-- A term that has the value of a variable, whatever that is, is the variable. -/
theorem Term.eq_var_of_value? {t : Term} {y : Var} (h : ∀ ν : Valuation, t.value? ν = some (ν y)) : t = .var y := by
  cases t with
  | const c =>
    have ha := h (fun _ => ⟨"a"⟩)
    have hb := h (fun _ => ⟨"b"⟩)
    exact absurd (ha.symm.trans hb) (by decide)
  | var z =>
    by_contra hne
    have hzy : z ≠ y := fun e => hne (by rw [e])
    have hv := h (fun v => if v = y then ⟨"a"⟩ else ⟨"b"⟩)
    cases hz : z.wildcard with
    | true =>
      rw [Term.value?_wildcard hz] at hv
      cases hv
    | false =>
      rw [Term.value?_var hz, if_neg hzy, if_pos rfl] at hv
      exact absurd hv (by decide)

theorem Term.unify_spec {s : Subst} (h : Triangular s.bindings) (a b : Term) :
    Unified (fun ν => Agree (a.value? ν) (b.value? ν)) s (Term.unify a b s) := by
  have hval : ∀ t ν, Solves ν s → t.value? ν = (s.chase t).value? ν := fun t ν hs => (value?_chase h hs t).symm
  have hend : ∀ t, ∀ b ∈ s.bindings, s.chase t ≠ .var b.1 := by
    intro t b hb
    rw [chase_eq_resolve h]
    exact resolve_ne_bound h t b hb
  have hfree : ∀ {t v}, s.chase t = .var v → ∀ b ∈ s.bindings, b.1 ≠ v := by
    intro t v ht b hb e
    exact hend t b hb (by rw [ht, e])
  unfold Term.unify
  split
  · -- two ends without a constant: the first is bound to the second, unless there is nothing to say
    rename_i x y hx hy
    split
    · rename_i hc
      refine .unchanged h (fun ν hs => ?_)
      simp only [hval a ν hs, hval b ν hs, hx, hy]
      simp only [Bool.or_eq_true, decide_eq_true_eq] at hc
      rcases hc with (hc | hc) | hc
      · exact .inl (Term.value?_wildcard hc ν)
      · exact .inr (.inl (Term.value?_wildcard hc ν))
      · exact .inr (.inr (by rw [hc]))
    · rename_i hc
      simp only [Bool.or_eq_true, decide_eq_true_eq, not_or, Bool.not_eq_true] at hc
      obtain ⟨⟨hxw, hyw⟩, hne⟩ := hc
      refine .bound h hxw (hfree hx) hyw (fun e => hne (by injection e with e; exact e.symm))
        (fun b' hb' => by rw [← hy]; exact hend b b' hb') (fun ν hs => ?_)
      simp only [hval a ν hs, hval b ν hs, hx, hy, Term.value?_var hxw, Term.value?_var hyw, Agree]
      simp [eq_comm]
  · rename_i x d hx hd
    split
    · rename_i hw
      refine .unchanged h (fun ν hs => ?_)
      simp only [hval a ν hs, hx]
      exact .inl (Term.value?_wildcard hw ν)
    · rename_i hw
      have hxw : x.wildcard = false := by simpa using hw
      refine .bound h hxw (hfree hx) rfl (fun e => by cases e) (fun b' hb' e => by cases e) (fun ν hs => ?_)
      simp only [hval a ν hs, hval b ν hs, hx, hd, Term.value?_var hxw, Agree]
      simp [Term.value?, eq_comm]
  · rename_i c y hc hy
    split
    · rename_i hw
      refine .unchanged h (fun ν hs => ?_)
      simp only [hval b ν hs, hy]
      exact .inr (.inl (Term.value?_wildcard hw ν))
    · rename_i hw
      have hyw : y.wildcard = false := by simpa using hw
      refine .bound h hyw (hfree hy) rfl (fun e => by cases e) (fun b' hb' e => by cases e) (fun ν hs => ?_)
      simp only [hval a ν hs, hval b ν hs, hc, hy, Term.value?_var hyw, Agree]
      simp [Term.value?]
  · rename_i c d hc hd
    refine ⟨h, fun ν => ?_⟩
    simp only [decide_eq_true_eq]
    constructor
    · rintro ⟨e, hs⟩
      refine ⟨hs, .inr (.inr ?_)⟩
      rw [hval a ν hs, hval b ν hs, hc, hd, e]
    · rintro ⟨hs, he⟩
      rw [hval a ν hs, hval b ν hs, hc, hd] at he
      exact ⟨by simpa [Agree, Term.value?] using he, hs⟩

/-- The values of two lists agree position by position, as far as both go. -/
def AgreeAll (ν : Valuation) (as bs : List Term) : Prop := ∀ p ∈ as.zip bs, Agree (p.1.value? ν) (p.2.value? ν)

theorem agreeAll_cons {ν : Valuation} {a b : Term} {as bs : List Term} :
    AgreeAll ν (a :: as) (b :: bs) ↔ Agree (a.value? ν) (b.value? ν) ∧ AgreeAll ν as bs := by
  simp [AgreeAll]

/-- **Unification returns a most general solution**: the valuations that solve the result are those that solve the
start and make the lists agree, and it fails only when there are none. -/
theorem Term.unifyAll_spec : ∀ (as bs : List Term) {s : Subst}, Triangular s.bindings →
    Unified (fun ν => AgreeAll ν as bs) s (Term.unifyAll as bs s)
  | [], bs, s, h => by
    simp only [unifyAll]
    exact .unchanged h (fun ν _ p hp => by simp at hp)
  | a :: as, [], s, h => by
    simp only [unifyAll]
    exact .unchanged h (fun ν _ p hp => by simp at hp)
  | a :: as, b :: bs, s, h => by
    have h1 := Term.unify_spec h a b
    rw [unifyAll]
    cases hr : Term.unify a b s with
    | mk ok s' =>
      rw [hr] at h1
      cases ok with
      | true =>
        have h2 := unifyAll_spec as bs h1.triangular
        refine ⟨h2.triangular, fun ν => ?_⟩
        have e1 := h1.solves_iff ν
        simp only [true_and] at e1
        simp only [h2.solves_iff ν, e1, agreeAll_cons, and_assoc]
      | false =>
        refine ⟨h1.triangular, fun ν => ?_⟩
        have e1 := h1.solves_iff ν
        simp only [Bool.false_eq_true, false_and, false_iff] at e1 ⊢
        rintro ⟨hs, hag⟩
        exact e1 ⟨hs, (agreeAll_cons.1 hag).1⟩

/-! ### What unification leaves alone -/

theorem bind_closed {P : Term → Prop} {s : Subst} {v : Var} {t : Term} (hs : ∀ b ∈ s.bindings, P b.2) (ht : P t) :
    ∀ b ∈ (s.bind v t).bindings, P b.2 := by
  have hput : ∀ bs : List (Var × Term), (∀ b ∈ bs, P b.2) → ∀ b ∈ put v t bs, P b.2 := by
    intro bs
    induction bs with
    | nil => intro _ b hb; simp only [put, List.mem_singleton] at hb; rw [hb]; exact ht
    | cons b bs ih =>
      intro h b' hb'
      rw [put] at hb'
      split at hb'
      · rcases List.mem_cons.1 hb' with rfl | hb'
        · exact ht
        · exact h b' (List.mem_cons_of_mem _ hb')
      · rcases List.mem_cons.1 hb' with rfl | hb'
        · exact h b' List.mem_cons_self
        · exact ih (fun c hc => h c (List.mem_cons_of_mem _ hc)) b' hb'
  unfold Subst.bind
  split
  · exact hs
  · exact hput s.bindings hs

/-- Nothing is bound to but what stood in the two lists. -/
theorem Term.unifyAll_closed {P : Term → Prop} : ∀ (as bs : List Term) {s : Subst}, Triangular s.bindings →
    (∀ t ∈ as, P t) → (∀ t ∈ bs, P t) → (∀ b ∈ s.bindings, P b.2) → ∀ b ∈ (Term.unifyAll as bs s).2.bindings, P b.2
  | [],      _,       _, _, _,  _,  hs => by simpa only [unifyAll] using hs
  | _ :: _,  [],      _, _, _,  _,  hs => by simpa only [unifyAll] using hs
  | a :: as, b :: bs, s, h, ha, hb, hs => by
    have ha' := chase_closed h hs (ha a List.mem_cons_self)
    have hb' := chase_closed h hs (hb b List.mem_cons_self)
    have h1 : ∀ b' ∈ (Term.unify a b s).2.bindings, P b'.2 := by
      unfold Term.unify
      split
      · rename_i x y hx hy
        split
        · exact hs
        · rw [hy] at hb'
          exact bind_closed hs hb'
      · rename_i x d hx hd
        rw [hd] at hb'
        dsimp only
        split
        · exact hs
        · exact bind_closed hs hb'
      · rename_i c y hc hy
        rw [hc] at ha'
        dsimp only
        split
        · exact hs
        · exact bind_closed hs ha'
      · exact hs
    have h2 := (Term.unify_spec h a b).triangular
    rw [unifyAll]
    cases hr : Term.unify a b s with
    | mk ok s' =>
      rw [hr] at h1 h2
      cases ok with
      | true =>
        exact unifyAll_closed as bs h2 (fun t ht => ha t (List.mem_cons_of_mem _ ht))
          (fun t ht => hb t (List.mem_cons_of_mem _ ht)) h1
      | false => exact h1

end Credence
