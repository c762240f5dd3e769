import Credence.Proofs.Variant
import Credence.Proofs.Vocabulary
/-!
# Rules part way through their bodies

A derivation starts as a fresh copy of a rule whose head has met a goal, and each resolved literal leaves its bindings
to the rest.  Whatever such a residual rule says under a valuation, the rule of the program it came from says under
another, with the resolved literals in front (`Residual.trace`).  Starting a rule makes a residual rule
(`Residual.start`), and meeting a fact makes another (`Residual.resolve`, `Residual.resolve_negation`).
-/
namespace Credence

variable {W : Type}

/-! ## Literals that say the same -/

/-- `l` says under `ν` what `b` says under `μ`. -/
structure Literal.Says (ν μ : Valuation) (l b : Literal W) : Prop where
  weight    : l.weight = b.weight
  predicate : l.predicate = b.predicate
  values    : l.values ν = b.values μ

theorem Literal.Says.isNegated {ν μ : Valuation} {l b : Literal W} (h : l.Says ν μ b) : l.isNegated = b.isNegated :=
  congrArg Predicate.isNegated h.predicate

theorem Literal.Says.admits {ν μ : Valuation} {l b : Literal W} (h : l.Says ν μ b) {a : Atom} (ha : l.Admits ν a) :
    b.Admits μ a :=
  ⟨h.predicate ▸ ha.1, h.values ▸ ha.2⟩

/-- A resolved literal is what a body literal says: an atom for a positive one, the same values for a negation. -/
structure Literal.Meets (μ : Valuation) (p b : Literal W) : Prop where
  predicate : p.predicate = b.predicate
  atom      : b.isNegated = false → ∃ (a : Atom) (w : W), p = a.literal w ∧ b.Admits μ a
  negation  : b.isNegated = true → p.isSemiGrounded = true ∧ ∀ ν, p.values ν = b.values μ

theorem forall₂_split {α β : Type} {R : α → β → Prop} {l : List α} {pre : List β} {b : β} {post : List β}
    (h : List.Forall₂ R l (pre ++ b :: post)) :
    ∃ pre' a post', l = pre' ++ a :: post' ∧ List.Forall₂ R pre' pre ∧ R a b ∧ List.Forall₂ R post' post := by
  induction pre generalizing l with
  | nil =>
    cases h with
    | cons hab hpost => exact ⟨[], _, _, rfl, .nil, hab, hpost⟩
  | cons c pre ih =>
    cases h with
    | cons hac hrest =>
      obtain ⟨pre', a, post', rfl, h1, h2, h3⟩ := ih hrest
      exact ⟨_ :: pre', a, post', rfl, .cons hac h1, h2, h3⟩

theorem forall₂_exists_left {α β : Type} {R : α → β → Prop} {l : List α} {l' : List β} (h : List.Forall₂ R l l') {b : β}
    (hb : b ∈ l') : ∃ a ∈ l, R a b := by
  induction h with
  | nil => cases hb
  | cons hab _ ih =>
    rcases List.mem_cons.1 hb with rfl | hb
    · exact ⟨_, List.mem_cons_self, hab⟩
    · obtain ⟨a, ha, hr⟩ := ih hb
      exact ⟨a, List.mem_cons_of_mem _ ha, hr⟩

theorem forall₂_exists_right {α β : Type} {R : α → β → Prop} {l : List α} {l' : List β} (h : List.Forall₂ R l l') {a : α}
    (ha : a ∈ l) : ∃ b ∈ l', R a b := forall₂_exists_left h.flip ha

theorem forall₂_getElem?_right {α β : Type} {R : α → β → Prop} {l : List α} {l' : List β} (h : List.Forall₂ R l l')
    {i : Nat} {a : α} (ha : l[i]? = some a) : ∃ b, l'[i]? = some b ∧ R a b := by
  induction h generalizing i with
  | nil => cases ha
  | cons hab _ ih =>
    cases i with
    | zero => exact ⟨_, rfl, Option.some.inj ha ▸ hab⟩
    | succ i => exact ih ha

theorem forall₂_getElem?_left {α β : Type} {R : α → β → Prop} {l : List α} {l' : List β} (h : List.Forall₂ R l l')
    {i : Nat} {b : β} (hb : l'[i]? = some b) : ∃ a, l[i]? = some a ∧ R a b := forall₂_getElem?_right h.flip hb

/-! ## Copies of rules -/

section Copy

variable {S : Var → Prop} {f : Var → Var} {low high : Nat} {l l' : Literal W}

theorem Literal.Copy.varsOf_iff (h : Copy f l l') (hf : Relabeling S f low high) (hS : ∀ v, VarsOf l.terms v → S v) {w : Var} :
    VarsOf l'.terms w ↔ ∃ v, VarsOf l.terms v ∧ f v = w := by
  constructor
  · rintro ⟨hw, hm⟩
    rcases h.mem_terms hm with ⟨c, e, -⟩ | ⟨v, hv, e⟩ | hwild
    · cases e
    · injection e with e
      exact ⟨v, hv, e.symm⟩
    · rw [show (Term.var w).isWildcard = w.wildcard from rfl, hw] at hwild
      cases hwild
  · rintro ⟨v, hv, rfl⟩
    refine ⟨hf.named v (hS v hv), ?_⟩
    obtain ⟨u, hu, hr⟩ := forall₂_exists_right h.terms hv.2
    simp only [Relabeled, hv.1, Bool.false_eq_true, if_false] at hr
    exact hr ▸ hu

theorem Literal.Copy.closed (h : Copy f l l') (hf : Relabeling S f low high) (hS : ∀ v, VarsOf l.terms v → S v)
    (hc : ∀ t ∈ l.terms, t.isWildcard = false) : ∀ u ∈ l'.terms, u.isWildcard = false := by
  intro u hu
  obtain ⟨t, ht, hr⟩ := forall₂_exists_left h.terms hu
  cases t with
  | const c => rw [show u = .const c from hr]; rfl
  | var v =>
    have hw : v.wildcard = false := hc _ ht
    simp only [Relabeled, hw, Bool.false_eq_true, if_false] at hr
    rw [hr]
    exact hf.named v (hS v ⟨hw, ht⟩)

theorem Clause.RangeRestricted.copy {c c' : Clause W} (h : c.RangeRestricted) (hf : Relabeling c.VarsIn f low high)
    (hh : Literal.Copy f c.head c'.head) (hb : List.Forall₂ (Literal.Copy f) c.body c'.body) : c'.RangeRestricted := by
  have hS : ∀ l ∈ c.body, ∀ v, VarsOf l.terms v → c.VarsIn v := fun l hl v hv => .inr ⟨l, hl, hv⟩
  constructor
  · intro w hw
    obtain ⟨v, hv, rfl⟩ := (hh.varsOf_iff hf (fun v hv => .inl hv)).1 hw
    obtain ⟨l, hl, hn, hv⟩ := h.head v hv
    obtain ⟨l', hl', hcp⟩ := forall₂_exists_right hb hl
    exact ⟨l', hl', (congrArg Predicate.isNegated hcp.predicate).trans hn,
      (hcp.varsOf_iff hf (hS l hl)).2 ⟨v, hv, rfl⟩⟩
  · intro pre' n' post' hsplit hn w hw
    rw [hsplit] at hb
    obtain ⟨pre, n, post, hbody, hpre, hcn, -⟩ := forall₂_split hb
    have hmem : n ∈ c.body := by rw [hbody]; simp
    obtain ⟨v, hv, rfl⟩ := (hcn.varsOf_iff hf (hS n hmem)).1 hw
    obtain ⟨l, hl, hln, hv⟩ := h.negation pre n post hbody ((congrArg Predicate.isNegated hcn.predicate).symm.trans hn) v hv
    obtain ⟨l', hl', hcp⟩ := forall₂_exists_right hpre hl
    exact ⟨l', hl', (congrArg Predicate.isNegated hcp.predicate).trans hln,
      (hcp.varsOf_iff hf (hS l (by rw [hbody]; simp [hl]))).2 ⟨v, hv, rfl⟩⟩

end Copy

/-- A head without wildcards and a goal that agree on their terms under a valuation: what the head says is in the goal. -/
theorem admits_of_agreeAll {ν : Valuation} {h l : Literal W} {a : Atom} (hp : h.predicate = l.predicate)
    (hh : h.isWellFormed = true) (hl : l.isWellFormed = true) (hc : ∀ t ∈ h.terms, t.isWildcard = false)
    (hag : AgreeAll ν h.terms l.terms) (ha : h.Admits ν a) : l.Admits ν a := by
  have hlen : h.terms.length = l.terms.length := by
    rw [Literal.isWellFormed_iff.1 hh, Literal.isWellFormed_iff.1 hl, hp]
  refine ⟨hp ▸ ha.1, ?_⟩
  have key : ∀ (ts us : List Term) (cs : List Constant), ts.length = us.length → (∀ t ∈ ts, t.isWildcard = false) →
      AgreeAll ν ts us → List.Forall₂ Allows (ts.map (Term.value? ν)) cs → List.Forall₂ Allows (us.map (Term.value? ν)) cs := by
    intro ts
    induction ts with
    | nil =>
      intro us cs hlen _ _ hf
      cases us with
      | nil => exact hf
      | cons u us => simp at hlen
    | cons t ts ih =>
      intro us cs hlen hc hag hf
      cases us with
      | nil => simp at hlen
      | cons u us =>
        cases cs with
        | nil => cases hf
        | cons d cs =>
          rw [List.map_cons, List.forall₂_cons] at hf ⊢
          obtain ⟨hag', hags⟩ := agreeAll_cons.1 hag
          refine ⟨?_, ih us cs (by simpa using hlen) (fun t ht => hc t (List.mem_cons_of_mem _ ht)) hags hf.2⟩
          have hsome := Term.value?_ne_none (hc t List.mem_cons_self) ν
          rcases hf.1 with h1 | h1
          · exact absurd h1 hsome
          · rcases hag' with h2 | h2 | h2
            · exact absurd h2 hsome
            · exact .inl h2
            · exact .inr (h2 ▸ h1)
  exact key _ _ _ hlen hc hag ha.2

theorem subst_closed_wildcard {h : Literal W} {s : Subst} (hs : Subst.Triangular s.bindings)
    (hc : ∀ t ∈ h.terms, t.isWildcard = false) : ∀ t ∈ (h.subst s).terms, t.isWildcard = false := by
  intro t ht
  rw [Literal.subst_terms] at ht
  obtain ⟨u, hu, rfl⟩ := List.mem_map.1 ht
  rw [Subst.chase_eq_resolve hs, Subst.resolve_isWildcard hs]
  exact hc u hu

/-! ## Residual rules -/

variable [Weight W]

/-- **What holds of a derivation of a goal `l`** whose resolved literals are `π` and whose rest is `c`, when variables up
to `n` have been used: it is a rule in order, its head stays within the goal, and it traces a rule of the program. -/
structure Residual (V : Vocabulary W) (kb : KnowledgeBase W) (l : Literal W) (n : Nat) (π : List (Literal W))
    (c : Clause W) : Prop where
  head       : V.HasLiteral n c.head
  certain    : c.head.weight = 1
  closed     : ∀ t ∈ c.head.terms, t.isWildcard = false
  body       : ∀ b ∈ c.body, V.HasLiteral n b ∧ b.weight = 1
  restricted : c.RangeRestricted
  cover      : ∀ ν a, c.head.Admits ν a → l.Covers a
  trace      : ∃ r ∈ kb.rules.clauses, ∃ done rest, r.body = done ++ rest ∧ c.head.predicate = r.head.predicate ∧
    ∀ ν, ∃ μ, c.head.values ν = r.head.values μ ∧ List.Forall₂ (Literal.Meets μ) π done ∧
      List.Forall₂ (Literal.Says ν μ) c.body rest

variable {V : Vocabulary W} {kb : KnowledgeBase W} {l : Literal W} {n : Nat} {π : List (Literal W)} {c : Clause W}

theorem Residual.mono {m : Nat} (h : Residual V kb l n π c) (hnm : n ≤ m) : Residual V kb l m π c :=
  ⟨h.head.mono hnm, h.certain, h.closed, fun b hb => ⟨(h.body b hb).1.mono hnm, (h.body b hb).2⟩, h.restricted, h.cover,
    h.trace⟩

theorem Residual.start (hkb : kb.Regular V) {r : Clause W} (hr : r ∈ kb.rules.clauses) {pool : VarPool}
    (hl : V.HasLiteral pool.issued l) {s : Subst} (hs : (r.rename pool).1.head.unify l = some s) :
    Residual V kb l (r.rename pool).2.issued [] ((r.rename pool).1.subst s) := by
  have hreg := hkb.rule r hr
  obtain ⟨f, hf, hh, hb⟩ := Clause.rename_spec r pool
  obtain ⟨hp, ht, hsol⟩ := Literal.unify_eq_some hs
  have hS : ∀ b ∈ r.body, ∀ v, VarsOf b.terms v → r.VarsIn v := fun b hb v hv => .inr ⟨b, hb, hv⟩
  obtain ⟨n₀, hhead⟩ := hreg.head
  have hhead' : V.HasLiteral (r.rename pool).2.issued (r.rename pool).1.head := hhead.copy hh hf (fun v hv => .inl hv)
  have hl' := hl.mono hf.le
  have hbind : ∀ b ∈ s.bindings, V.HasTerm (r.rename pool).2.issued b.2 := Literal.unify_closed hs hhead'.terms hl'.terms
  have hclosed := hh.closed hf (fun v hv => .inl hv) hreg.closed
  refine ⟨hhead'.subst ht hbind, ?_, ?_, ?_, ?_, ?_, ?_⟩
  · rw [Clause.subst, Literal.subst_weight, hh.weight, hreg.certain]
  · exact subst_closed_wildcard ht hclosed
  · intro b hmem
    obtain ⟨b', hb', rfl⟩ := List.mem_map.1 hmem
    obtain ⟨b₀, hb₀, hcp⟩ := forall₂_exists_left hb hb'
    obtain ⟨⟨n₁, hlit⟩, hw⟩ := hreg.body b₀ hb₀
    exact ⟨(hlit.copy hcp hf (hS b₀ hb₀)).subst ht hbind, by rw [Literal.subst_weight, hcp.weight, hw]⟩
  · exact (hreg.restricted.copy hf hh hb).subst ht
  · intro ν a ha
    have ha' : (r.rename pool).1.head.Admits (s.extend ν) a :=
      ⟨(Literal.subst_predicate _ s).symm.trans ha.1, Literal.values_subst ht _ ν ▸ ha.2⟩
    exact ⟨_, admits_of_agreeAll hp hhead'.wellFormed hl.wellFormed hclosed
      ((hsol _).1 (Subst.solves_extend ht ν)) ha'⟩
  · refine ⟨r, hr, [], r.body, rfl, (Literal.subst_predicate _ s).trans hh.predicate, fun ν => ?_⟩
    refine ⟨fun v => s.extend ν (f v), ?_, .nil, ?_⟩
    · rw [Clause.subst, Literal.values_subst ht, hh.values_eq hf (fun v hv => .inl hv)]
    · rw [Clause.subst, List.forall₂_map_left_iff]
      have key : ∀ {bs bs' : List (Literal W)}, (∀ b ∈ bs, ∀ v, VarsOf b.terms v → r.VarsIn v) →
          List.Forall₂ (Literal.Copy f) bs bs' →
          List.Forall₂ (fun b' b => (b'.subst s).Says ν (fun v => s.extend ν (f v)) b) bs' bs := by
        intro bs bs' hS hcp
        induction hcp with
        | nil => exact .nil
        | cons hcp _ ih =>
          refine .cons ⟨?_, ?_, ?_⟩ (ih (fun b hb => hS b (List.mem_cons_of_mem _ hb)))
          · rw [Literal.subst_weight, hcp.weight]
          · rw [Literal.subst_predicate, hcp.predicate]
          · rw [Literal.values_subst ht, hcp.values_eq hf (hS _ List.mem_cons_self)]
      exact key hS hb

/-- **A rule and a goal that say the same atom meet**, and what the rule says there its fresh copy says after they met. -/
theorem exists_start {r : Clause W} {pool : VarPool} (hl : V.HasLiteral pool.issued l) {μ : Valuation} {a : Atom}
    (hr : r.head.Admits μ a) (ha : l.Covers a) :
    ∃ s ν, (r.rename pool).1.head.unify l = some s ∧ ((r.rename pool).1.subst s).head.Says ν μ r.head ∧
      List.Forall₂ (Literal.Says ν μ) ((r.rename pool).1.subst s).body r.body := by
  obtain ⟨κ, hκ⟩ := ha
  obtain ⟨f, hf, hh, hb⟩ := Clause.rename_spec r pool
  let ν := Relabeling.transport r.VarsIn f μ κ
  have hhead : (r.rename pool).1.head.values ν = r.head.values μ := hh.values_transport hf (fun v hv => .inl hv) μ κ
  -- the variables of the goal are older than the copy, so the goal says under the new valuation what it said before
  have hgoal : l.values ν = l.values κ := by
    refine List.map_congr_left (fun t ht => ?_)
    cases t with
    | const c => rfl
    | var v =>
      cases hw : v.wildcard with
      | true => rw [Term.value?_wildcard hw, Term.value?_wildcard hw]
      | false =>
        rw [Term.value?_var hw, Term.value?_var hw]
        exact congrArg some (hf.transport_old μ κ (hl.id_lt ⟨hw, ht⟩))
  have h1 : (r.rename pool).1.head.Admits ν a := ⟨hh.predicate.trans hr.1, hhead ▸ hr.2⟩
  have h2 : l.Admits ν a := ⟨hκ.1, hgoal ▸ hκ.2⟩
  have hag := Literal.agreeAll_of_admits h1 h2
  cases hs : (r.rename pool).1.head.unify l with
  | none => exact absurd hag (Literal.unify_eq_none hs (h1.1.trans h2.1.symm) ν)
  | some s =>
    obtain ⟨-, ht, hsol⟩ := Literal.unify_eq_some hs
    have hν := (hsol ν).2 hag
    refine ⟨s, ν, rfl, ⟨?_, ?_, ?_⟩, ?_⟩
    · rw [Clause.subst, Literal.subst_weight, hh.weight]
    · rw [Clause.subst, Literal.subst_predicate, hh.predicate]
    · rw [Clause.subst, Literal.values_subst_of_solves ht hν, hhead]
    · rw [Clause.subst, List.forall₂_map_left_iff]
      have key : ∀ {bs bs' : List (Literal W)}, (∀ b ∈ bs, ∀ v, VarsOf b.terms v → r.VarsIn v) →
          List.Forall₂ (Literal.Copy f) bs bs' → List.Forall₂ (fun b' b => (b'.subst s).Says ν μ b) bs' bs := by
        intro bs bs' hS hcp
        induction hcp with
        | nil => exact .nil
        | cons hcp _ ih =>
          refine .cons ⟨?_, ?_, ?_⟩ (ih (fun b hb => hS b (List.mem_cons_of_mem _ hb)))
          · rw [Literal.subst_weight, hcp.weight]
          · rw [Literal.subst_predicate, hcp.predicate]
          · rw [Literal.values_subst_of_solves ht hν, hcp.values_transport hf (hS _ List.mem_cons_self)]
      exact key (fun b hb v hv => .inr ⟨b, hb, hv⟩) hb

/-- The rule traced has a literal for the first one of the rest, whatever the valuation. -/
theorem Residual.trace_cons (h : Residual V kb l n π c) {first : Literal W} {rest : List (Literal W)}
    (hbody : c.body = first :: rest) :
    ∃ r ∈ kb.rules.clauses, ∃ done b bs, r.body = done ++ b :: bs ∧ c.head.predicate = r.head.predicate ∧
      ∀ ν, ∃ μ, c.head.values ν = r.head.values μ ∧ List.Forall₂ (Literal.Meets μ) π done ∧ first.Says ν μ b ∧
        List.Forall₂ (Literal.Says ν μ) rest bs := by
  obtain ⟨r, hr, done, tl, hsplit, hp, htr⟩ := h.trace
  rw [hbody] at htr
  cases tl with
  | nil =>
    obtain ⟨μ, -, -, hf⟩ := htr (fun _ => ⟨""⟩)
    cases hf
  | cons b bs =>
    refine ⟨r, hr, done, b, bs, hsplit, hp, fun ν => ?_⟩
    obtain ⟨μ, h1, h2, h3⟩ := htr ν
    exact ⟨μ, h1, h2, (List.forall₂_cons.1 h3).1, (List.forall₂_cons.1 h3).2⟩

/-- **A positive literal meets an atom.** -/
theorem Residual.resolve (h : Residual V kb l n π c) {first : Literal W} {rest : List (Literal W)}
    (hbody : c.body = first :: rest) (hpos : first.isNegated = false) {a : Atom} {w : W}
    (ha : V.HasLiteral n (a.literal w)) {s : Subst} (hs : first.unify (a.literal w) = some s) :
    Residual V kb l n (π ++ [a.literal w]) ⟨c.head.subst s, rest.map (fun b => b.subst s)⟩ := by
  obtain ⟨hp, ht, -⟩ := Literal.unify_eq_some hs
  have hfirst := (h.body first (by rw [hbody]; exact List.mem_cons_self)).1
  have hbind : ∀ b ∈ s.bindings, V.HasTerm n b.2 := Literal.unify_closed hs hfirst.terms ha.terms
  refine ⟨h.head.subst ht hbind, ?_, subst_closed_wildcard ht h.closed, ?_, ?_, ?_, ?_⟩
  · rw [Literal.subst_weight, h.certain]
  · intro b hb
    obtain ⟨b', hb', rfl⟩ := List.mem_map.1 hb
    obtain ⟨h1, h2⟩ := h.body b' (by rw [hbody]; exact List.mem_cons_of_mem _ hb')
    exact ⟨h1.subst ht hbind, by rw [Literal.subst_weight, h2]⟩
  · exact h.restricted.resolve hbody hfirst.wellFormed ha.wellFormed_atom hs
  · intro ν b hb
    exact h.cover (s.extend ν) b ⟨(Literal.subst_predicate _ s).symm.trans hb.1, Literal.values_subst ht _ ν ▸ hb.2⟩
  · obtain ⟨r, hr, done, b, bs, hsplit, hpr, htr⟩ := h.trace_cons hbody
    refine ⟨r, hr, done ++ [b], bs, by simp [hsplit], (Literal.subst_predicate _ s).trans hpr, fun ν => ?_⟩
    obtain ⟨μ, h1, h2, h3, h4⟩ := htr (s.extend ν)
    have hadm : first.Admits (s.extend ν) a :=
      (Literal.solves_iff_admits hfirst.wellFormed ha.wellFormed_atom hs _).1 (Subst.solves_extend ht ν)
    refine ⟨μ, by rw [Literal.values_subst ht, h1], List.rel_append h2 (.cons ⟨?_, ?_, ?_⟩ .nil), ?_⟩
    · exact hp.symm.trans h3.predicate
    · exact fun _ => ⟨a, w, rfl, h3.admits hadm⟩
    · intro hn
      rw [← h3.isNegated, hpos] at hn
      cases hn
    · rw [List.forall₂_map_left_iff]
      refine h4.imp (fun x y hxy => ⟨?_, ?_, ?_⟩)
      · rw [Literal.subst_weight, hxy.weight]
      · rw [Literal.subst_predicate, hxy.predicate]
      · rw [Literal.values_subst ht, hxy.values]

/-- **A negation meets a literal of the same values**, and nothing is bound. -/
theorem Residual.resolve_negation (h : Residual V kb l n π c) {first : Literal W} {rest : List (Literal W)}
    (hbody : c.body = first :: rest) (hneg : first.isNegated = true) {p : Literal W} (hp : p.predicate = first.predicate)
    (hsg : p.isSemiGrounded = true) (hv : ∀ ν, p.values ν = first.values ν) :
    Residual V kb l n (π ++ [p]) ⟨c.head, rest⟩ := by
  refine ⟨h.head, h.certain, h.closed, fun b hb => h.body b (by rw [hbody]; exact List.mem_cons_of_mem _ hb),
    h.restricted.dropNegation hbody hneg, h.cover, ?_⟩
  obtain ⟨r, hr, done, b, bs, hsplit, hpr, htr⟩ := h.trace_cons hbody
  refine ⟨r, hr, done ++ [b], bs, by simp [hsplit], hpr, fun ν => ?_⟩
  obtain ⟨μ, h1, h2, h3, h4⟩ := htr ν
  refine ⟨μ, h1, List.rel_append h2 (.cons ⟨?_, ?_, ?_⟩ .nil), h4⟩
  · exact hp.trans h3.predicate
  · intro hn
    rw [← h3.isNegated, hneg] at hn
    cases hn
  · intro _
    refine ⟨hsg, fun ν' => ?_⟩
    rw [Literal.values_of_isSemiGrounded hsg ν' ν, hv ν, h3.values]

end Credence
