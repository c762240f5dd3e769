import Credence.Proofs.Draws
import Credence.Proofs.Odds
/-!
# One coin for every rule

A rule with a weight is stored as a certain rule and a stated fact that carries the weight.  In proofs the fact goes by
the names that were drawn for it, one for every recorded clause.  Where the rules with weights have no variables and no
atom has two weights, each of them is recorded as one clause at most (`Agenda.drawsOnce`), so each weight has one name in
the end (`Run.name`), and is there exactly when the stated fact is (`Valid.trueAt_mark`).
-/
namespace Credence

open Prover (isRuleWeight mark Closed)

/-! ## Programs -/

/-- **A program that draws every rule weight once.**  A weight belongs to one rule, which is about single atoms; an atom
has one weight, and a stated one no rules. -/
structure KnowledgeBase.DrawsOnce (kb : KnowledgeBase ℚ) : Prop where
  arity : ∀ c ∈ kb.facts.clauses, isRuleWeight c.head = true → c.head.predicate.arity = 1
  head  : ∀ c ∈ kb.rules.clauses, isRuleWeight c.head = false
  owner : ∀ c ∈ kb.rules.clauses, ∀ d ∈ kb.rules.clauses, ∀ l ∈ c.body, ∀ m ∈ d.body, isRuleWeight l = true →
    l.predicate = m.predicate → c = d
  bare  : ∀ c ∈ kb.rules.clauses, ∀ l ∈ c.body, isRuleWeight l = true → ∀ m ∈ c.head :: c.body, m.isGrounded = true
  one   : ∀ a v w, kb.States a v → kb.States a w → v = w
  apart : ∀ a w, kb.States a w → ∀ c ∈ kb.rules.clauses, c.head.predicate ≠ a.predicate

/-! ## What is drawn -/

namespace Prover

variable {m m' : Literal ℚ} {k k' : Nat}

theorem isNegated_of_isRuleWeight (hm : isRuleWeight m = true) : m.isNegated = false := by
  rw [isRuleWeight, Bool.and_eq_true, Bool.not_eq_true'] at hm
  exact hm.1

theorem mark_of_weight (hm : isRuleWeight m = true) (k : Nat) : mark k m = m.extend (.const ⟨"r" ++ toString k⟩) := by
  rw [mark, if_pos hm]

theorem arity_mark (hm : isRuleWeight m = true) (hw : m.isWellFormed = true) (k : Nat) :
    (mark k m).predicate.arity = m.predicate.arity + 1 := by
  rw [mark_of_weight hm, ← Literal.isWellFormed_iff.1 hw, Literal.extend]

/-- What was drawn for a weight shows the weight. -/
theorem id_eq_of_mark (hm : isRuleWeight m = true) (hm' : isRuleWeight m' = true) (hp : m.isPlain = true)
    (hp' : m'.isPlain = true) (h : (mark k m).id = (mark k' m').id) : m.id = m'.id := by
  have hf := (Literal.id_eq_iff (isPlain_mark hp k).1 (isPlain_mark hp' k').1).1 h
  rw [mark_of_weight hm, mark_of_weight hm'] at hf
  simp only [Literal.form, Literal.extend, List.map_append, List.map_cons, List.map_nil, Prod.mk.injEq] at hf
  obtain ⟨h1, h2, h3⟩ := hf
  refine (Literal.id_eq_iff hp hp').2 ?_
  have hargs := (List.append_inj' h3 rfl).1
  simp only [Literal.form, Prod.mk.injEq]
  exact ⟨h1, h2, hargs⟩

end Prover

namespace Run

variable {q : Query ℚ} {V : Vocabulary ℚ} {r : Run ℚ} {c d : Clause ℚ} {x y : Literal ℚ}

/-- The literal was drawn for the fact. -/
def Drawn (r : Run ℚ) (c : Clause ℚ) (x : Literal ℚ) : Prop := ∃ d m, r.table.snapshot.Draws d m x ∧ m.id = c.head.id

/-- No rule weight was drawn twice. -/
def DrawsOnce (r : Run ℚ) : Prop := ∀ c x y, r.Drawn c x → r.Drawn c y → x.id = y.id

open Classical in
/-- **The name of a stated fact in proofs**: what was drawn for it, if anything was. -/
noncomputable def name (r : Run ℚ) (c : Clause ℚ) : String := if h : ∃ x, r.Drawn c x then h.choose.id else c.head.id

theorem DrawsOnce.name_eq (h : r.DrawsOnce) (hd : r.Drawn c x) : r.name c = x.id := by
  have hex : ∃ x, r.Drawn c x := ⟨x, hd⟩
  rw [name, dif_pos hex]
  exact h c _ _ hex.choose_spec hd

theorem name_cases (r : Run ℚ) (c : Clause ℚ) :
    (∃ x, r.Drawn c x ∧ r.name c = x.id) ∨ (∀ x, ¬ r.Drawn c x) ∧ r.name c = c.head.id := by
  by_cases hex : ∃ x, r.Drawn c x
  · refine .inl ⟨hex.choose, hex.choose_spec, ?_⟩
    rw [name, dif_pos hex]
  · refine .inr ⟨fun x hx => hex ⟨x, hx⟩, ?_⟩
    rw [name, dif_neg hex]

/-- What is drawn for a fact is a literal like it, with one more argument. -/
structure Draft (c : Clause ℚ) (x : Literal ℚ) : Prop where
  plain    : x.isPlain = true
  weighing : isRuleWeight x = true
  fact     : isRuleWeight c.head = true
  weight   : x.weight = c.head.weight
  arity    : x.predicate.arity = c.head.predicate.arity + 1

theorem Valid.drawn_resolved (hv : r.Valid V q.kb) {m : Literal ℚ} (h : r.table.snapshot.Draws d m x) :
    r.table.Completed d ∧ r.table.Resolved V m := by
  obtain ⟨k, hk, hm, -⟩ := h
  have hcomp := r.table.snapshot_spec.1.given d (Array.mem_toList_iff.1 (Prover.mem_numberRules.1 ⟨k, hk⟩))
  exact ⟨hcomp, (hv.completed_isPlain hcomp).2 m hm⟩

theorem Valid.draft (hv : r.Valid V q.kb) (hkb : q.kb.Regular V) (hc : c ∈ q.kb.facts.clauses) (h : r.Drawn c x) :
    Draft c x := by
  obtain ⟨d, m, hdraw, hid⟩ := h
  obtain ⟨-, hres⟩ := hv.drawn_resolved hdraw
  obtain ⟨k, -, -, hw, rfl⟩ := hdraw
  obtain ⟨a, w, rfl, ha, -⟩ := hkb.fact c hc
  have hp : m.predicate = (a.literal w).predicate := Literal.predicate_eq_of_id_eq hres.literal.isPlain ha.isPlain hid
  obtain ⟨hplain, hweigh⟩ := Prover.isPlain_mark hres.literal.isPlain k
  refine ⟨hplain, hweigh.trans hw, (Prover.isRuleWeight_congr hp).symm.trans hw, ?_, ?_⟩
  · rw [Prover.mark_weight, Literal.weight_eq_of_id hid]
  · rw [Prover.arity_mark hw hres.literal.wellFormed, hp]
    rfl

/-- Different facts are drawn differently. -/
theorem Valid.drawn_id (hv : r.Valid V q.kb) (h : r.Drawn c x) (h' : r.Drawn d y) (e : x.id = y.id) :
    c.head.id = d.head.id := by
  obtain ⟨_, m, hdraw, hid⟩ := h
  obtain ⟨_, m', hdraw', hid'⟩ := h'
  obtain ⟨-, hres⟩ := hv.drawn_resolved hdraw
  obtain ⟨-, hres'⟩ := hv.drawn_resolved hdraw'
  obtain ⟨k, -, -, hw, rfl⟩ := hdraw
  obtain ⟨k', -, -, hw', rfl⟩ := hdraw'
  rw [← hid, ← hid']
  exact Prover.id_eq_of_mark hw hw' hres.literal.isPlain hres'.literal.isPlain e

/-- **Stated facts have names of their own.** -/
theorem Valid.names (hv : r.Valid V q.kb) (hkb : q.kb.Regular V) (hone : q.kb.DrawsOnce) : Names q.kb r.name := by
  have hplain : ∀ {c}, c ∈ q.kb.facts.clauses → c.head.isPlain = true ∧ c.head.isNegated = false := by
    intro c hc
    obtain ⟨a, w, rfl, ha, -, hn⟩ := hkb.fact c hc
    exact ⟨ha.isPlain, hn⟩
  -- a drawn name has one argument more than a fact of its kind
  have hmixed : ∀ {c d x}, c ∈ q.kb.facts.clauses → d ∈ q.kb.facts.clauses → r.Drawn c x → x.id ≠ d.head.id := by
    intro c d x hc hd hx e
    have hdraft := hv.draft hkb hc hx
    have hp := Literal.predicate_eq_of_id_eq hdraft.plain (hplain hd).1 e
    have hweigh : isRuleWeight d.head = true := (Prover.isRuleWeight_congr hp).symm.trans hdraft.weighing
    have harity := hdraft.arity
    rw [hp, hone.arity d hd hweigh, hone.arity c hc hdraft.fact] at harity
    cases harity
  refine ⟨fun c hc => ?_, fun c hc d hd e => ?_⟩
  · rcases r.name_cases c with ⟨x, hx, e⟩ | ⟨-, e⟩
    · have hdraft := hv.draft hkb hc hx
      exact ⟨x, hdraft.plain, Prover.isNegated_of_isRuleWeight hdraft.weighing, hdraft.weight, e⟩
    · exact ⟨c.head, (hplain hc).1, (hplain hc).2, rfl, e⟩
  · replace e : r.name c = r.name d := e
    refine hkb.fact_eq_of_id hc hd ?_
    rcases r.name_cases c with ⟨x, hx, ex⟩ | ⟨-, ec⟩
    · rcases r.name_cases d with ⟨y, hy, ey⟩ | ⟨-, ed⟩
      · exact hv.drawn_id hx hy (ex.symm.trans (e.trans ey))
      · exact absurd (ex.symm.trans (e.trans ed)) (hmixed hc hd hx)
    · rcases r.name_cases d with ⟨y, hy, ey⟩ | ⟨-, ed⟩
      · exact absurd (ey.symm.trans (e.symm.trans ec)) (hmixed hd hc hy)
      · exact ec.symm.trans (e.trans ed)

/-! ## One clause for a rule -/

/-- Where a resolved atom comes from. -/
theorem Valid.source (hv : r.Valid V q.kb) {a : Atom} {w : ℚ} (h : r.table.Resolved V (a.literal w))
    (hn : a.predicate.isNegated = false) :
    q.kb.States a w ∨ w = 1 ∧ ∃ c ∈ q.kb.rules.clauses, c.head.predicate = a.predicate := by
  obtain ⟨f, ⟨j, g, hj, hf⟩, hid⟩ := h.known
  obtain ⟨hfres, hfp⟩ := hv.resolved hj hf
  have hg := hv.goal j g hj
  have hgn : g.literal.isNegated = false := by
    rw [Literal.isNegated, ← hfp]
    exact (Literal.isNegated_of_id_eq hfres.literal.isPlain h.literal.isPlain hid).trans hn
  obtain ⟨b, v, e, hv', -, hsource⟩ := (hg.fact f hf).positive hgn
  obtain ⟨a', w', ea, hw'⟩ := h.atom hn
  obtain ⟨rfl, rfl⟩ := Atom.literal_inj ea
  have hform := (Literal.id_eq_iff hfres.literal.isPlain h.literal.isPlain).1 hid
  rw [e] at hform
  obtain ⟨rfl, rfl⟩ := Atom.literal_inj (Atom.literal_eq_of_form (e ▸ hfres.literal) h.literal hv' hw' hform)
  refine hsource.imp_right (And.imp_right ?_)
  rintro ⟨c, hc, hhead⟩
  obtain ⟨x, hx, -, rule, hrule, μ, hadm, -⟩ := (hg.grounded c hc).trace
  refine ⟨rule, hrule, hadm.1.trans ?_⟩
  obtain ⟨rfl, -⟩ := Atom.literal_inj (hx.symm.trans (hhead.trans e))
  rfl

/-- An atom is resolved with one weight. -/
theorem Valid.weight_eq (hv : r.Valid V q.kb) (hone : q.kb.DrawsOnce) {a : Atom} {v w : ℚ}
    (h : r.table.Resolved V (a.literal v)) (h' : r.table.Resolved V (a.literal w)) (hn : a.predicate.isNegated = false) :
    v = w := by
  rcases hv.source h hn with hs | ⟨rfl, c, hc, hp⟩
  · rcases hv.source h' hn with hs' | ⟨-, c, hc, hp⟩
    · exact hone.one a v w hs hs'
    · exact absurd hp (hone.apart a v hs c hc)
  · rcases hv.source h' hn with hs' | ⟨rfl, -⟩
    · exact absurd hp (hone.apart a w hs' c hc)
    · rfl

theorem Valid.arity_of_weight (hv : r.Valid V q.kb) (hone : q.kb.DrawsOnce) (hx : r.table.Resolved V x)
    (hw : isRuleWeight x = true) : x.predicate.arity = 1 := by
  obtain ⟨a, w, rfl, -⟩ := hx.atom (Prover.isNegated_of_isRuleWeight hw)
  rcases hv.source hx (Prover.isNegated_of_isRuleWeight hw) with hs | ⟨-, c, hc, hp⟩
  · exact hone.arity _ hs hw
  · have hno := hone.head c hc
    rw [Prover.isRuleWeight_congr (m := a.literal w) hp, hw] at hno
    cases hno

/-- A negation is resolved with one weight. -/
theorem Agenda.id_eq_of_variant (h : r.Agenda q V []) (hx : r.table.Resolved V x) (hy : r.table.Resolved V y)
    (hn : x.isNegated = true) (hvar : x.variant = y.variant) : x.id = y.id := by
  have hp := (Literal.shape_eq_of_variant_eq hx.literal.isPlain hy.literal.isPlain hvar).1
  have hgoal : ∀ {z : Literal ℚ}, r.table.Resolved V z → z.isNegated = true →
      ∃ i g f, r.table.goal? i = some g ∧ g.literal.isNegated = true ∧ g.literal.variant = z.variant ∧
        g.facts = [f] ∧ f.head.id = z.id := by
    intro z hz hzn
    obtain ⟨f, ⟨i, g, hi, hf⟩, hid⟩ := hz.known
    obtain ⟨hfres, hfp⟩ := h.valid.resolved hi hf
    have hfn := (Literal.isNegated_of_id_eq hfres.literal.isPlain hz.literal.isPlain hid).trans hzn
    have hgn : g.literal.isNegated = true := by
      rw [Literal.isNegated, ← hfp]
      exact hfn
    have hterms := (((h.valid.goal i g hi).fact f hf).negative hgn).2
    have hv := (Literal.variant_eq_of_id_eq hfres.literal.isPlain hz.literal.isPlain (hfres.negation hfn)
      (hz.negation hzn) hid).2
    obtain ⟨_, _, _, _, _, outcome, -, -, -, -, -, -, -, -, hfacts⟩ := h.exists_decision hi hgn
    refine ⟨i, g, f, hi, hgn, (Literal.variant_congr hfp hterms).symm.trans hv, ?_, hid⟩
    cases outcome with
    | none =>
      rw [hfacts] at hf
      cases hf
    | some o =>
      rw [hfacts, Option.toList_some, List.mem_singleton] at hf
      rw [hfacts, hf]
      rfl
  obtain ⟨i, g, f, hi, -, hgv, hfacts, hid⟩ := hgoal hx hn
  obtain ⟨i', g', f', hi', -, hgv', hfacts', hid'⟩ := hgoal hy (by rw [Literal.isNegated, ← hp]; exact hn)
  obtain rfl := h.valid.goal_unique hi hi' (hgv.trans (hvar.trans hgv'.symm))
  obtain rfl := goal_eq hi hi'
  obtain rfl : f = f' := List.singleton_inj.1 (hfacts.symm.trans hfacts')
  exact hid.symm.trans hid'

/-- Terms that have the values of constants are those constants. -/
theorem terms_eq_of_values {κ : Valuation} {ts us : List Term} (hts : ∀ t ∈ ts, (t.isConst || t.isWildcard) = true)
    (hus : ∀ u ∈ us, u.isConst = true) (h : ts.map (Term.value? κ) = us.map (Term.value? κ)) : ts = us := by
  induction ts generalizing us with
  | nil => exact (List.map_eq_nil_iff.1 h.symm).symm
  | cons t ts ih =>
    cases us with
    | nil => cases h
    | cons u us =>
      obtain ⟨h1, h2⟩ := List.cons.inj h
      obtain ⟨hu, hus⟩ := List.forall_mem_cons.1 hus
      obtain ⟨ht, hts⟩ := List.forall_mem_cons.1 hts
      rw [ih hts hus h2]
      cases u with
      | var v => cases hu
      | const d =>
        cases t with
        | const c =>
          injection h1 with h1
          rw [h1]
        | var v =>
          have hw : v.wildcard = true := by simpa [Term.isConst, Term.isWildcard] using ht
          rw [Term.value?_wildcard hw] at h1
          cases h1

/-- What a literal without variables meets is known by its id. -/
theorem Agenda.id_eq_of_meets (h : r.Agenda q V []) (hone : q.kb.DrawsOnce) {b : Literal ℚ} (hb : b.isGrounded = true)
    {μ ν : Valuation} (hx : r.table.Resolved V x) (hy : r.table.Resolved V y) (hmx : x.Meets μ b) (hmy : y.Meets ν b) :
    x.id = y.id := by
  cases hn : b.isNegated with
  | false =>
    obtain ⟨e, he⟩ := Literal.exists_atom hb
    have hatom : ∀ {z : Literal ℚ} {κ : Valuation}, z.Meets κ b → ∃ w, z = e.literal w := by
      intro z κ hz
      obtain ⟨a, w, rfl, hadm⟩ := hz.atom hn
      rw [he] at hadm
      rw [Atom.eq_of_admits hadm]
      exact ⟨w, rfl⟩
    obtain ⟨v, rfl⟩ := hatom hmx
    obtain ⟨w, rfl⟩ := hatom hmy
    have hen : e.predicate.isNegated = false := by
      rw [Literal.isNegated, he] at hn
      exact hn
    rw [h.valid.weight_eq hone hx hy hen]
  | true =>
    have hterms : ∀ {z : Literal ℚ} {κ : Valuation}, z.Meets κ b → z.terms = b.terms := by
      intro z κ hz
      obtain ⟨hsg, hvals⟩ := hz.negation hn
      exact terms_eq_of_values (List.all_eq_true.1 hsg) (List.all_eq_true.1 hb) (hvals κ)
    refine h.id_eq_of_variant hx hy ?_ (Literal.variant_congr (hmx.predicate.trans hmy.predicate.symm)
      ((hterms hmx).trans (hterms hmy).symm))
    rw [Literal.isNegated, hmx.predicate]
    exact hn

theorem Agenda.forms_eq_of_meets (h : r.Agenda q V []) (hone : q.kb.DrawsOnce) {μ ν : Valuation}
    {xs ys bs : List (Literal ℚ)} (hxs : List.Forall₂ (Literal.Meets μ) xs bs) (hys : List.Forall₂ (Literal.Meets ν) ys bs)
    (hrx : ∀ x ∈ xs, r.table.Resolved V x) (hry : ∀ y ∈ ys, r.table.Resolved V y) (hbs : ∀ b ∈ bs, b.isGrounded = true) :
    xs.map Literal.form = ys.map Literal.form := by
  induction hxs generalizing ys with
  | nil =>
    cases hys
    rfl
  | cons hx _ ih =>
    cases hys with
    | cons hy hys =>
      obtain ⟨hx', hrx⟩ := List.forall_mem_cons.1 hrx
      obtain ⟨hy', hry⟩ := List.forall_mem_cons.1 hry
      obtain ⟨hb, hbs⟩ := List.forall_mem_cons.1 hbs
      have hform := (Literal.id_eq_iff hx'.literal.isPlain hy'.literal.isPlain).1
        (h.id_eq_of_meets hone hb hx' hy' hx hy)
      rw [List.map_cons, List.map_cons, hform, ih hys hrx hry hbs]

/-- **A program that draws every rule weight once has drawn it once in the end**: all clauses that a rule without variables
has left are one. -/
theorem Agenda.drawsOnce (h : r.Agenda q V []) (hone : q.kb.DrawsOnce) : r.DrawsOnce := by
  rintro f x y ⟨c, m, hx, hm⟩ ⟨d, n, hy, hn⟩
  obtain ⟨⟨i, g, hi, hc⟩, hmres⟩ := h.valid.drawn_resolved hx
  obtain ⟨⟨j, b, hj, hd⟩, hnres⟩ := h.valid.drawn_resolved hy
  have hci := (h.valid.goal i g hi).grounded c hc
  have hdi := (h.valid.goal j b hj).grounded d hd
  obtain ⟨k, hk, hmc, hmw, rfl⟩ := hx
  obtain ⟨k', hk', hnd, hnw, rfl⟩ := hy
  have hid : m.id = n.id := hm.trans hn.symm
  obtain ⟨a, ha, -, rule, hrule, μ, hadm, hmeets⟩ := hci.trace
  obtain ⟨a', ha', -, rule', hrule', ν, hadm', hmeets'⟩ := hdi.trace
  obtain ⟨l, hl, hml⟩ := forall₂_exists_right hmeets hmc
  obtain ⟨l', hl', hml'⟩ := forall₂_exists_right hmeets' hnd
  have hweigh : isRuleWeight l = true := (Prover.isRuleWeight_congr hml.predicate).symm.trans hmw
  have hsame : l.predicate = l'.predicate := by
    rw [← hml.predicate, ← hml'.predicate]
    exact Literal.predicate_eq_of_id_eq hmres.literal.isPlain hnres.literal.isPlain hid
  obtain rfl := hone.owner rule hrule rule' hrule' l hl l' hl' hweigh hsame
  obtain ⟨hhead, hbody⟩ := List.forall_mem_cons.1 (hone.bare rule hrule l hl hweigh)
  -- both clauses say what the rule says, so they have one key
  have hheads : c.head = d.head := by
    obtain ⟨e, he⟩ := Literal.exists_atom hhead
    rw [he] at hadm hadm'
    rw [ha, ha', ← Atom.eq_of_admits hadm, Atom.eq_of_admits hadm']
  have hbodies : c.body.map Literal.form = d.body.map Literal.form :=
    h.forms_eq_of_meets hone hmeets hmeets' hci.body hdi.body hbody
  have hkey : c.key = d.key :=
    (Clause.key_eq_iff hci.isPlain.1 hdi.isPlain.1 hci.isPlain.2 hdi.isPlain.2).2 ⟨by rw [hheads], hbodies⟩
  have hdistinct := r.table.distinct_snapshot
  have hmem : ∀ {c k}, (c, k) ∈ Prover.numberRules r.table.snapshot.rules.toList → c ∈ r.table.snapshot.rules.toList :=
    fun hk => Prover.mem_numberRules.1 ⟨_, hk⟩
  obtain rfl := List.inj_on_of_nodup_map hdistinct.nodup (hmem hk) (hmem hk') hkey
  obtain rfl := (Prover.number_eq_iff (hdistinct.nodup.of_map _) hk hk').2 rfl
  -- the same weight with the same mark
  have hform := (Literal.id_eq_iff hmres.literal.isPlain hnres.literal.isPlain).1 hid
  simp only [Literal.form, Prod.mk.injEq] at hform
  refine (Literal.id_eq_iff (Prover.isPlain_mark hmres.literal.isPlain k).1
    (Prover.isPlain_mark hnres.literal.isPlain k).1).2 ?_
  rw [Prover.mark_of_weight hmw, Prover.mark_of_weight hnw]
  simp only [Literal.form, Literal.extend, Literal.name, List.map_append, Prod.mk.injEq]
  exact ⟨hform.1, hform.2.1, by rw [hform.2.2]⟩

/-! ## Truth by names -/

variable {M : Atom → Prop} {B : Finset (Clause ℚ)} {l : Literal ℚ}

/-- Names matter to rule weights only. -/
theorem Valid.trueAt_name (hv : r.Valid V q.kb) (hkb : q.kb.Regular V) (hone : q.kb.DrawsOnce)
    (hB : ∀ c ∈ B, c ∈ q.kb.facts.clauses) (hl : r.table.Resolved V l) (hw : isRuleWeight l = false) :
    TrueAt r.name M B l.id ↔ TrueAt (fun c => c.head.id) M B l.id := by
  cases hn : l.isNegated with
  | true =>
    have hclosed : Closed l := ⟨hl.literal.isPlain, hl.negation hn⟩
    rw [trueAt_negation (hv.names hkb hone) hB hclosed hn, trueAt_negation hkb.names hB hclosed hn]
  | false =>
    rw [trueAt_positive hl.literal.isPlain hn, trueAt_positive hl.literal.isPlain hn]
    refine or_congr_right (exists_congr (fun c => and_congr_right (fun hc => ?_)))
    rcases r.name_cases c with ⟨x, hx, e⟩ | ⟨-, e⟩
    · -- what was drawn is a rule weight, and so is what it was drawn for
      have hdraft := hv.draft hkb (hB c hc) hx
      obtain ⟨a, w, hfact, ha, -⟩ := hkb.fact c (hB c hc)
      have hplain : c.head.isPlain = true := by
        rw [hfact]
        exact ha.isPlain
      have hno : ∀ {m : Literal ℚ}, m.isPlain = true → isRuleWeight m = true → m.id ≠ l.id := by
        intro m hm hmw hid
        rw [Prover.isRuleWeight_of_id_eq hm hl.literal.isPlain hid, hw] at hmw
        cases hmw
      rw [e]
      exact iff_of_false (hno hdraft.plain hdraft.weighing) (hno hplain hdraft.fact)
    · rw [e]

/-- A rule weight is there when its instance is. -/
theorem Valid.trueAt_mark (hv : r.Valid V q.kb) (hkb : q.kb.Regular V) (hone : q.kb.DrawsOnce) (hdraws : r.DrawsOnce)
    (hB : ∀ c ∈ B, c ∈ q.kb.facts.clauses) {k : Nat}
    (hd : (d, k) ∈ Prover.numberRules r.table.snapshot.rules.toList) (hl : l ∈ d.body) (hw : isRuleWeight l = true) :
    TrueAt r.name M B (mark k l).id ↔ TrueAt (fun c => c.head.id) M B l.id := by
  have hdraw : r.table.snapshot.Draws d l (mark k l) := ⟨k, hd, hl, hw, rfl⟩
  have hres := (hv.drawn_resolved hdraw).2
  obtain ⟨hplain, hweigh⟩ := Prover.isPlain_mark hres.literal.isPlain k
  rw [trueAt_positive hplain (Prover.isNegated_of_isRuleWeight (hweigh.trans hw)),
    trueAt_positive hres.literal.isPlain (Prover.isNegated_of_isRuleWeight hw), Literal.isCertain, Literal.isCertain,
    Prover.mark_weight]
  refine or_congr_right (exists_congr (fun c => and_congr_right (fun hc => ?_)))
  constructor
  · intro e
    rcases r.name_cases c with ⟨x, hx, ex⟩ | ⟨hno, ec⟩
    · exact hv.drawn_id hx (d := Clause.fact l) ⟨d, l, hdraw, rfl⟩ (ex.symm.trans e)
    · -- a fact has one argument, and what is drawn two
      obtain ⟨a, w, hfact, ha, -⟩ := hkb.fact c (hB c hc)
      have hcplain : c.head.isPlain = true := by
        rw [hfact]
        exact ha.isPlain
      have hp := Literal.predicate_eq_of_id_eq hcplain hplain (ec.symm.trans e)
      have hcw : isRuleWeight c.head = true := (Prover.isRuleWeight_congr hp).trans (hweigh.trans hw)
      have harity := congrArg Predicate.arity hp
      rw [hone.arity c (hB c hc) hcw, Prover.arity_mark hw hres.literal.wellFormed,
        hv.arity_of_weight hone hres hw] at harity
      cases harity
  · intro e
    exact hdraws.name_eq ⟨d, l, hdraw, e.symm⟩

end Run
end Credence
