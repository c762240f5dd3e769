import Credence.Proofs.Derivation
import Credence.Proofs.Keeping
/-!
# Negations that come up bound

A rule that was checked and put in order has, for every variable of a negation, a literal in front of it that binds it:
one that is not negated, or a primitive (`Clause.timely_of_reorder`).  Such a literal meets facts without variables and
leaves none of its own behind (`Literal.chase_isConst_of_grounded`), so what is left of the rule is still in time
(`Clause.Timely.resolve`), and a negation that comes to the front has no variables (`Clause.Timely.first_semiGrounded`).
All this takes heads without wildcards: a fact from a rule with a wildcard in its head binds nothing there.
-/
namespace Credence

variable {W : Type}

/-! ## Meeting what has no variables -/

/-- Unification does not look behind the end of its first side. -/
theorem Term.unifyAll_take : ∀ (as bs : List Term) (s : Subst),
    Term.unifyAll as (bs.take as.length) s = Term.unifyAll as bs s
  | [],      _,       _ => by simp [Term.unifyAll]
  | _ :: _,  [],      _ => by simp
  | a :: as, b :: bs, s => by
    simp only [List.length_cons, List.take_succ_cons, Term.unifyAll]
    split
    · exact unifyAll_take as bs _
    · rfl

namespace Literal

theorem IsGrounded.isSemiGrounded {l : Literal W} (h : l.isGrounded = true) : l.isSemiGrounded = true :=
  List.all_eq_true.2 (fun t ht => by rw [List.all_eq_true.1 h t ht, Bool.true_or])

theorem isSemiGrounded_of_vars {l : Literal W} (h : ∀ v, ¬ VarsOf l.terms v) : l.isSemiGrounded = true := by
  refine List.all_eq_true.2 (fun t ht => ?_)
  cases t with
  | const c => rfl
  | var v =>
    cases hw : v.wildcard with
    | true => simp [Term.isWildcard, hw]
    | false => exact absurd ⟨hw, ht⟩ (h v)

/-- Constants for every term leave no variable of a literal unbound. -/
theorem chase_isConst_of_grounded {l m : Literal W} {s : Subst} (hm : m.isGrounded = true)
    (hlen : l.terms.length ≤ m.terms.length) (h : l.unify m = some s) {v : Var} (hv : VarsOf l.terms v) :
    (s.chase (.var v)).isConst = true := by
  -- both are cut to the length of `l`, where the predicate may be taken to have as many arguments
  have hcut : (m.terms.take l.terms.length).all Term.isConst = true :=
    List.all_eq_true.2 (fun t ht => List.all_eq_true.1 hm t (List.mem_of_mem_take ht))
  obtain ⟨a, ha⟩ := exists_atom (l := ⟨l.weight, ⟨l.name, l.terms.length⟩, m.terms.take l.terms.length⟩) hcut
  injection ha with _ hp hargs
  have hwf : a.WellFormed := by
    rw [Atom.WellFormed, ← hp, ← List.length_map (f := Term.const), ← hargs, List.length_take]
    exact Nat.min_eq_left hlen
  have hunify : (⟨l.weight, ⟨l.name, l.terms.length⟩, l.terms⟩ : Literal W).unify (a.literal l.weight) = some s := by
    unfold unify unifyInto at h ⊢
    simp only [Atom.literal, if_pos hp, ← hargs, Term.unifyAll_take]
    split at h
    · rename_i s' e
      split at e
      · rw [e]
        exact h
      · cases e
    · cases h
  exact chase_isConst_of_mem (l := ⟨l.weight, ⟨l.name, l.terms.length⟩, l.terms⟩) (by simp [isWellFormed]) hwf hunify
    hv.2 hv.1

end Literal

/-! ## Rules in time -/

/-- What leaves no variables behind once it has been resolved. -/
def Literal.Binds (l : Literal W) : Prop := l.isNegated = false ∨ l.isPrimitive = true

theorem Literal.Binds.congr {l m : Literal W} (h : l.Binds) (hp : m.predicate = l.predicate) : m.Binds := by
  unfold Binds isNegated isPrimitive at h ⊢
  rwa [hp]

namespace Clause

/-- No wildcard in the head, and whatever a negation needs is bound in front of it. -/
structure Timely (c : Clause W) : Prop where
  head     : ∀ t ∈ c.head.terms, t.isWildcard = false
  negation : ∀ pre n post, c.body = pre ++ n :: post → ¬ n.Binds → ∀ v, VarsOf n.terms v →
    ∃ l ∈ pre, l.Binds ∧ VarsOf l.terms v

variable {c c' : Clause W}

theorem Timely.subst (h : c.Timely) {s : Subst} (hs : Subst.Triangular s.bindings) : (c.subst s).Timely := by
  refine ⟨subst_closed_wildcard hs h.head, fun pre n post hb hn y hy => ?_⟩
  obtain ⟨pre', tl, hbody, hpre, htl⟩ := List.map_eq_append_iff.1 hb
  obtain ⟨m, post', htl', rfl, -⟩ := List.map_eq_cons_iff.1 htl
  obtain ⟨hw, x, hx, e⟩ := (Literal.varsOf_subst_iff hs).1 hy
  have hm : ¬ m.Binds := fun hb => hn (hb.congr (Literal.subst_predicate m s))
  obtain ⟨l, hl, hbinds, hv⟩ := h.negation pre' m post' (hbody.trans (by rw [htl'])) hm x hx
  exact ⟨l.subst s, hpre ▸ List.mem_map_of_mem hl, hbinds.congr (Literal.subst_predicate l s),
    (Literal.varsOf_subst_iff hs).2 ⟨hw, x, hv, e⟩⟩

theorem Timely.copy {f : Var → Var} {low high : Nat} (h : c.Timely) (hf : Relabeling c.VarsIn f low high)
    (hh : Literal.Copy f c.head c'.head) (hb : List.Forall₂ (Literal.Copy f) c.body c'.body) : c'.Timely := by
  have hS : ∀ l ∈ c.body, ∀ v, VarsOf l.terms v → c.VarsIn v := fun l hl v hv => .inr ⟨l, hl, hv⟩
  refine ⟨hh.closed hf (fun v hv => .inl hv) h.head, fun pre' n' post' hsplit hn w hw => ?_⟩
  rw [hsplit] at hb
  obtain ⟨pre, n, post, hbody, hpre, hcn, -⟩ := forall₂_split hb
  obtain ⟨v, hv, rfl⟩ := (hcn.varsOf_iff hf (hS n (by rw [hbody]; simp))).1 hw
  obtain ⟨l, hl, hbinds, hv⟩ := h.negation pre n post hbody (fun hb => hn (hb.congr hcn.predicate)) v hv
  obtain ⟨l', hl', hcp⟩ := forall₂_exists_right hpre hl
  exact ⟨l', hl', hbinds.congr hcp.predicate, (hcp.varsOf_iff hf (hS l (by rw [hbody]; simp [hl]))).2 ⟨v, hv, rfl⟩⟩

theorem Timely.rename (h : c.Timely) (pool : VarPool) : (c.rename pool).1.Timely := by
  obtain ⟨f, hf, hhead, hbody⟩ := c.rename_spec pool
  exact h.copy hf hhead hbody

/-- **A negation that comes to the front has no variables.** -/
theorem Timely.first_semiGrounded (h : c.Timely) {first : Literal W} {rest : List (Literal W)}
    (hbody : c.body = first :: rest) (hn : ¬ first.Binds) : first.isSemiGrounded = true := by
  refine Literal.isSemiGrounded_of_vars (fun v hv => ?_)
  obtain ⟨l, hl, -⟩ := h.negation [] first rest hbody hn v hv
  cases hl

/-- What is left of a rule once its first literal has met a fact is in time, if a literal that binds meets constants. -/
theorem Timely.resolve (h : c.Timely) {m : Literal W} (hs : c.resolve m = some c')
    (hground : ∀ first ∈ c.body.head?, first.Binds → first.predicate = m.predicate →
      first.terms.length ≤ m.terms.length ∧ m.isGrounded = true) : c'.Timely := by
  unfold Clause.resolve at hs
  split at hs
  · cases hs
  · rename_i first rest hbody
    obtain ⟨s, hunify, rfl⟩ := Option.map_eq_some_iff.1 hs
    obtain ⟨hpred, ht, -⟩ := Literal.unify_eq_some hunify
    have hconst : ∀ {x y : Var}, first.Binds → VarsOf first.terms x → s.chase (.var x) ≠ .var y := by
      intro x y hb hx e
      obtain ⟨hlen, hgr⟩ := hground first (by rw [hbody]; rfl) hb hpred
      have := Literal.chase_isConst_of_grounded hgr hlen hunify hx
      rw [e] at this
      cases this
    refine ⟨subst_closed_wildcard ht h.head, fun pre n post hb hn y hy => ?_⟩
    obtain ⟨pre', tl, hrest, hpre, htl⟩ := List.map_eq_append_iff.1 hb
    obtain ⟨n', post', htl', rfl, -⟩ := List.map_eq_cons_iff.1 htl
    obtain ⟨hw, x, hx, e⟩ := (Literal.varsOf_subst_iff ht).1 hy
    have hn' : ¬ n'.Binds := fun hb => hn (hb.congr (Literal.subst_predicate n' s))
    obtain ⟨l, hl, hbinds, hv⟩ := h.negation (first :: pre') n' post' (by rw [hbody, hrest, htl']; rfl) hn' x hx
    rcases List.mem_cons.1 hl with rfl | hl
    · exact absurd e (hconst hbinds hv)
    · exact ⟨l.subst s, hpre ▸ List.mem_map_of_mem hl, hbinds.congr (Literal.subst_predicate l s),
        (Literal.varsOf_subst_iff ht).2 ⟨hw, x, hv, e⟩⟩

/-- A head that is left without variables has constants only. -/
theorem Timely.head_isGrounded (h : c.Timely) (hc : c.head.isSemiGrounded = true) : c.head.isGrounded = true := by
  refine List.all_eq_true.2 (fun t ht => ?_)
  have := List.all_eq_true.1 hc t ht
  rwa [h.head t ht, Bool.or_false] at this

/-- A literal at the end that is not a negation needs nothing. -/
theorem Timely.concat (h : c.Timely) {head : Literal W} (hh : ∀ t ∈ head.terms, t.isWildcard = false) {l : Literal W}
    (hl : l.Binds) : (⟨head, c.body ++ [l]⟩ : Clause W).Timely := by
  refine ⟨hh, fun pre n post hsplit hn v hv => ?_⟩
  rcases List.eq_nil_or_concat post with rfl | ⟨post', last, rfl⟩
  · have e := List.append_inj_right' hsplit rfl
    injection e with e _
    exact absurd (e ▸ hl) hn
  · have e : c.body ++ [l] = (pre ++ n :: post') ++ [last] := by simpa using hsplit
    exact h.negation pre n post' (List.append_inj_left' e rfl) hn v hv

end Clause

/-! ## What the order of a body gives -/

theorem Flow.of_not_binds (r : Registry) {l : Literal W} (h : ¬ l.Binds) :
    Flow.of r l = ⟨.negated, false, [], l.vars⟩ := by
  unfold Literal.Binds at h
  rw [not_or, Bool.not_eq_false, Bool.not_eq_true] at h
  rw [Flow.of_ordinary r h.2, if_pos h.1]

/-- Only what binds gives a variable, and only one of its own. -/
theorem Flow.binds_of_mem_produces {r : Registry} {l : Literal W} {v : Var} (h : v ∈ (Flow.of r l).produces) :
    l.Binds ∧ VarsOf l.terms v := by
  refine ⟨by_contra (fun hn => ?_), Flow.varsOf_of_mem_produces h⟩
  rw [Flow.of_not_binds r hn] at h
  cases h

namespace Clause

variable [Weight W] {c c' : Clause W}

/-- **A rule that was checked and put in order is in time**, wildcards in its head apart. -/
theorem timely_of_reorder {r : Registry} (hc : c.checkRule r = .ok ()) (h : c.reorder r = .ok c')
    (hw : ∀ t ∈ c.head.terms, t.isWildcard = false) : c'.Timely := by
  refine ⟨by rw [(mem_reorder h).1]; exact hw, fun pre n post hsplit hn v hv => ?_⟩
  have hneeds : v ∈ (Flow.of r n).consumes := by
    rw [Flow.of_not_binds r hn]
    exact Literal.mem_vars_iff.2 hv
  obtain ⟨l, hl, hvl⟩ := (produces_of_reorder hc h hsplit hneeds).1
  exact ⟨l, hl, Flow.binds_of_mem_produces hvl⟩

/-- Every literal has as many terms as its predicate has arguments. -/
def IsWellFormed (c : Clause W) : Prop := c.head.isWellFormed = true ∧ ∀ l ∈ c.body, l.isWellFormed = true

/-- What a clause has to be like to be kept among the facts. -/
structure Stated (c : Clause W) : Prop where
  positive : c.head.isNegated = false
  body     : c.body = []
  grounded : c.head.isGrounded = true

/-- What a clause has to be like to be kept among the rules. -/
structure Ruled (c : Clause W) : Prop where
  positive : c.head.isNegated = false
  body     : c.body ≠ []
  timely   : (∀ t ∈ c.head.terms, t.isWildcard = false) → c.Timely

end Clause

/-! ## Programs that were accepted -/

namespace KnowledgeBase

variable [Weight W]

/-- The knowledge bases that come of telling clauses, whatever they are made of, and of loading texts. -/
inductive Accepted : KnowledgeBase W → Prop
  | empty (registry : Registry) : Accepted (.empty registry)
  | tell {kb kb' : KnowledgeBase W} {c : Clause W} {isNew : Bool} : Accepted kb → kb.tell c = .ok (isNew, kb') → Accepted kb'
  | load {kb : KnowledgeBase W} (text : String) : Accepted kb → Accepted (kb.load text).2

theorem Built.accepted {kb : KnowledgeBase W} (h : kb.Built) : kb.Accepted := by
  induction h with
  | empty registry => exact .empty registry
  | tell _ _ ht ih => exact .tell ih ht
  | load text _ ih => exact .load text ih

/-- **What acceptance has seen to.** -/
structure Checked (kb : KnowledgeBase W) : Prop where
  fact : ∀ c ∈ kb.facts.clauses, c.Stated
  rule : ∀ c ∈ kb.rules.clauses, c.Ruled

variable {kb kb' : KnowledgeBase W} {c : Clause W}

/-- What is left after a clause was told. -/
theorem tell_cases {isNew : Bool} (h : kb.tell c = .ok (isNew, kb')) :
    kb' = kb ∨ c.head.isPrimitive = false ∧ c.head.isNegated = false ∧
      (c.body = [] ∧ c.head.isGrounded = true ∧ kb' = (kb.storeFact c).2 ∨
        c.body ≠ [] ∧ c.checkRule kb.registry = .ok () ∧
          ∃ d, c.reorder kb.registry = .ok d ∧ kb' = (kb.keepRule d).2) := by
  obtain ⟨-, e⟩ | ⟨hprim, hadm, ⟨hbody, hground, e⟩ | ⟨hne, hcheck, d, hord, e⟩⟩ := tell_eq_ok_iff.1 h
  · exact .inl (congrArg Prod.snd e)
  · exact .inr ⟨hprim, hadm.positive, .inl ⟨hbody, hground, congrArg Prod.snd e⟩⟩
  · exact .inr ⟨hprim, hadm.positive, .inr ⟨hne, hcheck, d, hord, congrArg Prod.snd e⟩⟩

theorem Checked.storeFact (h : kb.Checked) (hc : c.Stated) : (kb.storeFact c).2.Checked := by
  unfold KnowledgeBase.storeFact
  split
  · exact h
  · refine ⟨fun d hd => ?_, h.rule⟩
    rcases Shelf.mem_push.1 hd with rfl | hd
    · exact hc
    · exact h.fact d hd

theorem Checked.storeRule (h : kb.Checked) (hc : c.Ruled) : (kb.storeRule c).Checked := by
  refine ⟨h.fact, fun d hd => ?_⟩
  rcases Shelf.mem_push.1 hd with rfl | hd
  · exact hc
  · exact h.rule d hd

theorem Checked.keepRule (h : kb.Checked) (hc : c.Ruled) : (kb.keepRule c).2.Checked := by
  unfold KnowledgeBase.keepRule
  split
  · exact h
  · split
    · exact Checked.storeRule ⟨h.fact, h.rule⟩ hc
    · exact Checked.storeRule (Checked.storeFact ⟨h.fact, h.rule⟩ ⟨(isPlain_weightLiteral _ _).2.1, rfl, rfl⟩)
        ⟨hc.positive, by simp, fun hw => (hc.timely hw).concat hw (.inl (isPlain_weightLiteral _ 1).2.1)⟩

theorem Checked.tell {isNew : Bool} (h : kb.Checked) (ht : kb.tell c = .ok (isNew, kb')) : kb'.Checked := by
  rcases tell_cases ht with rfl | ⟨-, hpos, ⟨hbody, hg, rfl⟩ | ⟨hbody, hcheck, d, hord, rfl⟩⟩
  · exact h
  · exact h.storeFact ⟨hpos, hbody, hg⟩
  · obtain ⟨hhead, hmem⟩ := Clause.mem_reorder hord
    refine h.keepRule ⟨by rw [hhead]; exact hpos, fun hd => hbody ?_, fun hw => ?_⟩
    · exact List.eq_nil_iff_forall_not_mem.2 (fun l hl => by simpa [hd] using (hmem l).2 hl)
    · exact Clause.timely_of_reorder hcheck hord (by rw [← hhead]; exact hw)

theorem Checked.load (h : kb.Checked) (text : String) : (kb.load text).2.Checked :=
  load_induction (fun h _ ht => h.tell ht) h text

theorem Accepted.checked (h : Accepted kb) : kb.Checked := by
  induction h with
  | empty registry => exact ⟨(fun _ hc => nomatch hc), (fun _ hc => nomatch hc)⟩
  | tell _ ht ih => exact ih.tell ht
  | load text _ ih => exact ih.load text

end KnowledgeBase
end Credence
