import Credence.Proofs.Progress
/-!
# Tables that no rule leads out of

When the agenda is empty, every duty is done, and then the table is closed under the rules of the program: where a rule
has an instance whose body the table grants, the derivation that started from the rule met a fact for each body literal
and was completed (`Settled.closed`).  So whatever holds in a theory that the table grants has a fact in every goal that
covers it (`Settled.complete`), and whatever completed rules lead to from leaves that a theory states holds in that theory
(`Valid.sound`).
-/
namespace Credence

variable {W : Type}

theorem Atom.eq_of_admits {a b : Atom} {w : W} {ν : Valuation} (h : (a.literal w).Admits ν b) : a = b := by
  have key : ∀ cs ds : List Constant, List.Forall₂ Allows ((cs.map Term.const).map (Term.value? ν)) ds → cs = ds := by
    intro cs
    induction cs with
    | nil =>
      intro ds hf
      cases hf
      rfl
    | cons c cs ih =>
      intro ds hf
      cases ds with
      | nil => cases hf
      | cons d ds =>
        rw [List.map_cons, List.map_cons, List.forall₂_cons] at hf
        have hcd : c = d := by
          rcases hf.1 with e | e
          · cases e
          · injection e
        rw [hcd, ih ds hf.2]
  cases a
  cases b
  obtain ⟨hp, hv⟩ := h
  rw [Atom.mk.injEq]
  exact ⟨hp, key _ _ hv⟩

namespace Run

variable [Weight W] {q : Query W} {V : Vocabulary W} {r : Run W}

/-- **A run that owes nothing but the decision of negations.** -/
structure Settled (q : Query W) (V : Vocabulary W) (r : Run W) : Prop where
  valid  : r.Valid V q.kb
  done   : ∀ duty, (∀ i, duty ≠ .deny i) → r.Owes q duty → r.Did q V duty
  staked : ∀ i g, r.table.goal? i = some g → g.literal.isNegated = true → r.table.stake g ≤ 3

/-- Only the decision of negations may be left on the agenda. -/
theorem Agenda.settled_of_decisions {agenda : List (Task W)} (h : r.Agenda q V agenda)
    (ht : ∀ t ∈ agenda, ∃ i j l, t = .decideNegation i j l) : r.Settled q V := by
  refine ⟨h.valid, fun duty hne hd => ?_, fun i g hi hn => ?_⟩
  · rcases h.covered duty hd with hd | ⟨t, hm, hs⟩
    · exact hd
    · obtain ⟨i, j, l, rfl⟩ := ht t hm
      cases hs with
      | decide => exact absurd rfl (hne i)
  · have := h.staked i g hi hn
    omega

theorem Agenda.settled (h : r.Agenda q V []) : r.Settled q V := h.settled_of_decisions (fun _ ht => by cases ht)

/-- The table has a fact for what a body literal says, in every goal that asks for it, with an id among `Q`. -/
structure Grants (r : Run W) (Q : String → Prop) (ν : Valuation) (b : Literal W) : Prop where
  atom     : b.isNegated = false → ∃ a, b.Admits ν a ∧ ∀ j g, r.table.goal? j = some g → g.literal.Covers a →
    ∃ w, .fact (a.literal w) ∈ g.facts ∧ Q (a.literal w).id
  negation : b.isNegated = true → ∀ j g, r.table.goal? j = some g → g.literal.predicate = b.predicate →
    (∀ κ, g.literal.values κ = b.values ν) → ∃ f ∈ g.facts, Q f.head.id

theorem Grants.carry {Q : String → Prop} {ν μ : Valuation} {l b : Literal W} (h : r.Grants Q μ b) (hs : l.Says ν μ b) :
    r.Grants Q ν l := by
  refine ⟨fun hn => ?_, fun hn j g hj hp hv => ?_⟩
  · obtain ⟨a, ha, hg⟩ := h.atom (hs.isNegated ▸ hn)
    exact ⟨a, ⟨hs.predicate.trans ha.1, hs.values ▸ ha.2⟩, hg⟩
  · exact h.negation (hs.isNegated ▸ hn) j g hj (hp.trans hs.predicate) (fun κ => (hv κ).trans hs.values)

/-! ## What a derivation meets -/

/-- The goal a derivation waits for has a fact that its next literal meets, where the table grants that literal. -/
theorem Valid.exists_meeting (hv : r.Valid V q.kb) {j : Nat} {b : Subgoal W} (hj : r.table.goal? j = some b) {n : Nat}
    {first : Literal W} (hfirst : V.HasLiteral n first) (hsg : first.isNegated = true → first.isSemiGrounded = true)
    (hvar : b.literal.variant = first.variant) {Q : String → Prop} {ν : Valuation} (hgr : r.Grants Q ν first) :
    ∃ f ∈ b.facts, Q f.head.id ∧ ∃ s, first.unify f.head = some s ∧ Subst.Triangular s.bindings ∧ Subst.Solves ν s := by
  have hb := hv.goal j b hj
  have hp : b.literal.predicate = first.predicate :=
    (Literal.shape_eq_of_variant_eq hb.literal.isPlain hfirst.isPlain hvar).1
  cases hn : first.isNegated with
  | false =>
    obtain ⟨a, ha, hg⟩ := hgr.atom hn
    have hcov : b.literal.Covers a :=
      (Literal.covers_iff_of_variant_eq hb.literal.isPlain hfirst.isPlain hvar a).2 ⟨ν, ha⟩
    obtain ⟨w, hf, hQ⟩ := hg j b hj hcov
    have hwf : a.WellFormed := (hb.fact _ hf).literal.wellFormed_atom
    obtain ⟨s, hs⟩ := Option.isSome_iff_exists.1
      ((Literal.unify_literal_isSome_iff (w := w) hfirst.wellFormed hwf).2 ⟨ν, ha⟩)
    exact ⟨_, hf, hQ, s, hs, (Literal.unify_eq_some hs).2.1, (Literal.solves_iff_admits hfirst.wellFormed hwf hs ν).2 ha⟩
  | true =>
    have hbn : b.literal.isNegated = true := by rw [Literal.isNegated, hp]; exact hn
    have hbsg := hb.negation hbn
    have hvals : ∀ κ, b.literal.values κ = first.values ν := fun κ =>
      Literal.values_eq_of_variant_eq hb.literal.isPlain hfirst.isPlain hbsg (hsg hn) hvar κ ν
    obtain ⟨f, hf, hQ⟩ := hgr.negation hn j b hj hp hvals
    obtain ⟨hfp, hft⟩ := (hb.fact f hf).negative hbn
    have hfv : first.values ν = f.head.values ν := by
      rw [Literal.values, Literal.values, hft]
      exact (hvals ν).symm
    obtain ⟨s, hs⟩ := Literal.unify_of_values_eq (hp.symm.trans hfp.symm) hfv
    have hfsg : f.head.isSemiGrounded = true := by rw [Literal.isSemiGrounded, hft]; exact hbsg
    have hempty := Literal.unify_semiGrounded (hsg hn) hfsg hs
    refine ⟨f, hf, hQ, s, hs, (Literal.unify_eq_some hs).2.1, ?_⟩
    rw [hempty]
    intro p hp
    cases hp

/-- A goal with facts has not been given up. -/
theorem Settled.not_unprovable (h : r.Settled q V) {j : Nat} {b : Subgoal W} (hj : r.table.goal? j = some b)
    {f : Clause W} (hf : f ∈ b.facts) : b.unprovable = false := by
  have hb := h.valid.goal j b hj
  cases hu : b.unprovable with
  | false => rfl
  | true =>
    cases hn : b.literal.isNegated with
    | false =>
      rw [hb.facts_of_hopeless hn (hb.hopeless hu hn)] at hf
      cases hf
    | true =>
      have := h.staked j b hj hn
      have hlen := List.length_pos_of_mem hf
      rw [Table.stake, hu] at this
      simp only [if_true] at this
      omega

/-- What is left of a rule once a fact was met says what the rule said before. -/
theorem exists_resolved {c : Clause W} {first : Literal W} {rest : List (Literal W)} (hbody : c.body = first :: rest)
    {f : Literal W} {s : Subst} (hs : first.unify f = some s) (ht : Subst.Triangular s.bindings) {ν : Valuation}
    (hsol : Subst.Solves ν s) {a : Atom} (ha : c.head.Admits ν a) {Q : String → Prop} (hgr : ∀ b ∈ c.body, r.Grants Q ν b) :
    ∃ c', c.resolve f = some c' ∧ c'.body.length = rest.length ∧ c'.head.Admits ν a ∧ ∀ b ∈ c'.body, r.Grants Q ν b := by
  refine ⟨⟨c.head.subst s, rest.map (fun l => l.subst s)⟩, by simp only [Clause.resolve, hbody, hs, Option.map_some],
    List.length_map _, ⟨(Literal.subst_predicate _ s).trans ha.1, ?_⟩, fun l hl => ?_⟩
  · rw [Literal.values_subst_of_solves ht hsol]
    exact ha.2
  · obtain ⟨b, hb, rfl⟩ := List.mem_map.1 hl
    exact (hgr b (by rw [hbody]; exact List.mem_cons_of_mem _ hb)).carry
      ⟨Literal.subst_weight _ s, Literal.subst_predicate _ s, Literal.values_subst_of_solves ht hsol b⟩

variable [LawfulWeight W]

/-- A completed derivation that says an atom has been recorded for it. -/
theorem Valid.recorded_of_completes (hv : r.Valid V q.kb) (hkb : q.kb.Regular V) {i : Nat} {g : Subgoal W}
    (hi : r.table.goal? i = some g) {m : Nat} {π : List (Literal W)} {head : Literal W}
    (hres : Residual V q.kb g.literal m π ⟨head, []⟩) (hπ : ∀ l ∈ π, r.table.Resolved V l) {c : Clause W}
    (hc : c ∈ g.grounded) (hk : c.key = (⟨head, π⟩ : Clause W).key) {ν : Valuation} {a : Atom} (ha : head.Admits ν a) :
    head = a.literal 1 ∧ c.head = a.literal 1 ∧ ∀ l ∈ c.body, ∃ p ∈ π, p.id = l.id := by
  obtain ⟨-, -, hinst⟩ := residual_completed hkb hres rfl hπ
  obtain ⟨hhead, hids⟩ := ((hv.goal i g hi).grounded c hc).eq_of_key hinst hk
  obtain ⟨a', e, -⟩ := hinst.trace
  have e' : head = a'.literal 1 := e
  rw [e'] at ha
  obtain rfl := Atom.eq_of_admits ha
  refine ⟨e', hhead.trans e', fun l hl => ?_⟩
  have hmem : l.id ∈ π.map Literal.id := hids ▸ List.mem_map_of_mem hl
  obtain ⟨p, hp, hid⟩ := List.mem_map.1 hmem
  exact ⟨p, hp, hid⟩

/-- **A derivation whose body the table grants is completed.**  By induction on what is left of the body: the goal it
waits for has a fact its next literal meets, and that meeting was not forgotten. -/
theorem Settled.walk (h : r.Settled q V) (hq : q.Regular V) {i : Nat} {g : Subgoal W} (hi : r.table.goal? i = some g)
    {Q : String → Prop} {ν : Valuation} {a : Atom} {m : Nat} : ∀ (n : Nat) {d : Derivation W} {π : List (Literal W)},
    d.rule.body.length = n → r.Taken i d → g.trie.Path d.node π → Residual V q.kb g.literal m π d.rule →
    (∀ l ∈ π, Q l.id) → d.rule.head.Admits ν a → (∀ b ∈ d.rule.body, r.Grants Q ν b) →
    ∃ c ∈ g.grounded, c.head = a.literal 1 ∧ (∀ l ∈ c.body, Q l.id) ∧ .fact (a.literal 1) ∈ g.facts := by
  intro n
  induction n with
  | zero =>
    rintro d π hlen ⟨first, rest, j, b, hbody, -⟩
    rw [hbody] at hlen
    cases hlen
  | succ n ih =>
    rintro d π hlen ⟨first, rest, j, b, hbody, hj, hvar, hw⟩ hπ hres hQ hadm hgr
    have hg := h.valid.goal i g hi
    have hfirst := (hres.body first (by rw [hbody]; exact List.mem_cons_self)).1
    obtain ⟨f, hf, hfQ, s, hs, ht, hsol⟩ := h.valid.exists_meeting hj hfirst (hres.restricted.first_semiGrounded hbody)
      hvar (hgr first (by rw [hbody]; exact List.mem_cons_self))
    have hwait : ⟨i, d⟩ ∈ b.waiters := by
      rcases hw with hw | hu
      · exact hw
      · rw [h.not_unprovable hj hf] at hu
        cases hu
    obtain ⟨c', hstep, hlen', hadm', hgr'⟩ := exists_resolved hbody hs ht hsol hadm hgr
    -- the literal that the trie keeps for the fact has its id
    have hpath : ∀ {p : Literal W}, p.id = f.head.id → ∀ l ∈ π ++ [p], Q l.id := by
      intro p hid l hl
      rcases List.mem_append.1 hl with hl | hl
      · exact hQ l hl
      · rw [List.mem_singleton.1 hl, hid]
        exact hfQ
    rcases h.done (.meet ⟨i, d⟩ f) (fun _ e => by cases e) ⟨j, b, hj, hwait, hf⟩ with
      hnone | ⟨d', ⟨hd', -, g', π', p, hi', hπ', hid, hp⟩, htaken⟩ | 
      ⟨head, ⟨hd', g', π', p, node, hi', hπ', hid, hp, c, hc, hk⟩, g'', hi'', hfact⟩
    · rw [hstep] at hnone
      cases hnone
    · rw [hstep] at hd'
      injection hd' with hd'
      subst hd'
      obtain rfl := goal_eq hi' hi
      obtain rfl := Trie.path_unique hπ' hπ
      have hpres := hg.trie.of_mem_path hp p (by simp)
      have hres' := residual_meets h.valid hres hbody hj hvar.symm hf hstep hpres hid
      refine ih ?_ htaken hp hres' (hpath hid) hadm' hgr'
      rw [hbody, List.length_cons] at hlen
      omega
    · rw [hstep] at hd'
      injection hd' with hd'
      subst hd'
      obtain rfl := goal_eq hi' hi
      obtain rfl := goal_eq hi'' hi
      obtain rfl := Trie.path_unique hπ' hπ
      have hall := hg.trie.of_mem_path hp
      have hres' := residual_meets h.valid hres hbody hj hvar.symm hf hstep (hall p (by simp)) hid
      obtain ⟨e1, e2, e3⟩ := h.valid.recorded_of_completes hq.kb hi hres' hall hc hk hadm'
      refine ⟨c, hc, e2, fun l hl => ?_, e1 ▸ hfact⟩
      obtain ⟨p', hp', hid'⟩ := e3 l hl
      exact hid' ▸ hpath hid p' hp'

/-- **A settled table is closed under the rules of the program.** -/
theorem Settled.closed (h : r.Settled q V) (hq : q.Regular V) {i : Nat} {g : Subgoal W} (hi : r.table.goal? i = some g)
    {c : Clause W} (hc : c ∈ q.kb.rules.clauses) {μ : Valuation} {a : Atom} (ha : c.head.Admits μ a)
    (hcov : g.literal.Covers a) {Q : String → Prop} (hgr : ∀ b ∈ c.body, r.Grants Q μ b) :
    ∃ x ∈ g.grounded, x.head = a.literal 1 ∧ (∀ l ∈ x.body, Q l.id) ∧ .fact (a.literal 1) ∈ g.facts := by
  have hn : g.literal.isNegated = false := by
    obtain ⟨ν, hν⟩ := hcov
    rw [Literal.isNegated, hν.1.trans ha.1.symm]
    exact (hq.kb.rule c hc).positive
  rcases h.done (.rule i c) (fun _ e => by cases e) ⟨g, hi, hn, hq.kb.mem_rulesFor_of_covers hc ha hcov⟩ with
    ⟨g', hi', hnone⟩ | ⟨d, ⟨g', pool, s, hi', hl, hs, rfl⟩, htaken⟩
  · rw [goal_eq hi' hi] at hnone
    exact absurd hcov (hnone μ a ha)
  · obtain rfl := goal_eq hi' hi
    obtain ⟨s', ν, hs', hhead, hbody⟩ := exists_start hl ha hcov
    rw [hs] at hs'
    injection hs' with hs'
    subst hs'
    refine h.walk (ν := ν) hq hi _ rfl htaken .root (Residual.start hq.kb hc hl hs) (fun l hl => by cases hl) ?_ (fun b hb => ?_)
    · exact ⟨hhead.predicate.trans ha.1, by rw [Derivation.start, hhead.values]; exact ha.2⟩
    · obtain ⟨b', hb', hsays⟩ := forall₂_exists_right hbody hb
      exact (hgr b' hb').carry hsays

omit [LawfulWeight W] in
/-- A stated atom is a fact of every goal that covers it. -/
theorem Settled.mem_facts_of_states (h : r.Settled q V) (hq : q.Regular V) {i : Nat} {g : Subgoal W}
    (hi : r.table.goal? i = some g) {a : Atom} {w : W} (hs : q.kb.States a w) (hcov : g.literal.Covers a) :
    .fact (a.literal w) ∈ g.facts := by
  obtain ⟨hlit, -, hpos⟩ := hq.kb.of_states hs
  have hn : g.literal.isNegated = false := by
    obtain ⟨ν, hν⟩ := hcov
    rw [Literal.isNegated, hν.1]
    exact hpos
  obtain ⟨g', hi', hf⟩ := h.done (.fact i (.fact (a.literal w))) (fun _ e => by cases e)
    ⟨g, hi, hn, hq.kb.mem_factsFor_of_covers hs hcov⟩
  rw [goal_eq hi' hi] at hf
  exact hf ((Literal.unify_literal_isSome_iff (h.valid.goal i g hi).literal.wellFormed hlit.wellFormed_atom).2 hcov)

/-! ## Completeness -/

/-- What a table grants of a theory: its rules are the program's, its facts are stated and its negations have facts, all
with ids among `Q` where they are asserted, and completed rules do not lead out of `Q`. -/
structure Models (q : Query W) (r : Run W) (T : Theory W) (Q : String → Prop) : Prop where
  rule   : ∀ c, T.rule c → c ∈ q.kb.rules.clauses
  fact   : ∀ a, T.fact a → ∃ w, q.kb.States a w ∧ (r.table.Asserts (a.literal w).id → Q (a.literal w).id)
  denied : ∀ p vs, T.denied p vs → ∀ j g, r.table.goal? j = some g → g.literal.predicate = p →
    (∀ κ, g.literal.values κ = vs) → ∃ f ∈ g.facts, Q f.head.id
  closed : ∀ c, r.table.Completed c → (∀ l ∈ c.body, Q l.id) → Q c.head.id

variable {T : Theory W} {Q : String → Prop}

theorem Settled.complete_instance (h : r.Settled q V) (hq : q.Regular V) (hm : r.Models q T Q) {c : Clause W}
    {ν : Valuation} {pick : Literal W → Atom} {a : Atom} (hc : T.Instance c ν pick a)
    (hbody : ∀ l ∈ c.body, l.isNegated = false → ∀ j g, r.table.goal? j = some g → g.literal.Covers (pick l) →
      ∃ w, .fact ((pick l).literal w) ∈ g.facts ∧ Q ((pick l).literal w).id)
    {j : Nat} {g : Subgoal W} (hj : r.table.goal? j = some g) (hcov : g.literal.Covers a) :
    .fact (a.literal 1) ∈ g.facts ∧ Q (a.literal (1 : W)).id := by
  have hgr : ∀ b ∈ c.body, r.Grants Q ν b := fun b hb =>
    ⟨fun hn => ⟨pick b, hc.body b hb hn, hbody b hb hn⟩, fun hn => hm.denied _ _ (hc.denied b hb hn)⟩
  obtain ⟨x, hx, e, hQ, hf⟩ := h.closed hq hj (hm.rule c hc.rule) hc.head hcov hgr
  exact ⟨hf, e ▸ hm.closed x ⟨j, g, hj, hx⟩ hQ⟩

/-- **Completeness.**  An atom that holds is a fact of every goal that covers it. -/
theorem Settled.complete (h : r.Settled q V) (hq : q.Regular V) (hm : r.Models q T Q) {a : Atom} (ha : T.Holds a) :
    ∀ j g, r.table.goal? j = some g → g.literal.Covers a → ∃ w, .fact (a.literal w) ∈ g.facts ∧ Q (a.literal w).id := by
  induction ha with
  | @fact a ha =>
    intro j g hj hcov
    obtain ⟨w, hs, hQ⟩ := hm.fact a ha
    have hf := h.mem_facts_of_states hq hj hs hcov
    have hstated : g.asserted.contains (Clause.fact (a.literal w)).head.id = true := (h.valid.goal j g hj).stated _ hf hs
    exact ⟨w, hf, hQ ⟨j, g, hj, hstated⟩⟩
  | rule hc _ ih =>
    intro j g hj hcov
    exact ⟨1, h.complete_instance hq hm hc ih hj hcov⟩

/-- An atom that a rule gives is a certain fact of every goal that covers it. -/
theorem Settled.complete_fires (h : r.Settled q V) (hq : q.Regular V) (hm : r.Models q T Q) {a : Atom} (ha : T.Fires a)
    {j : Nat} {g : Subgoal W} (hj : r.table.goal? j = some g) (hcov : g.literal.Covers a) :
    .fact (a.literal 1) ∈ g.facts ∧ Q (a.literal (1 : W)).id := by
  obtain ⟨c, ν, pick, hc, hbody⟩ := ha
  exact h.complete_instance hq hm hc (fun l hl hn => h.complete hq hm (hbody l hl hn)) hj hcov

/-! ## Soundness -/

/-- What a theory says of a resolved literal: its atom holds, or it is among the negations that hold. -/
structure Confirms (T : Theory W) (l : Literal W) : Prop where
  atom     : l.isNegated = false → ∀ (a : Atom) (w : W), l = a.literal w → T.Holds a
  negation : l.isNegated = true → ∀ ν, T.denied l.predicate (l.values ν)

/-- A theory that states what the leaves stand for. -/
structure Backs (kb : KnowledgeBase W) (r : Run W) (T : Theory W) (leaf : String → Prop) : Prop where
  asserts : ∀ id, leaf id → r.table.Asserts id
  rule    : ∀ c ∈ kb.rules.clauses, T.rule c
  fact    : ∀ a w, kb.States a w → leaf (a.literal w).id → T.fact a
  denied  : ∀ i g, r.table.goal? i = some g → g.literal.isNegated = true → ∀ f ∈ g.facts, leaf f.head.id →
    ∀ ν, T.denied g.literal.predicate (g.literal.values ν)

omit [LawfulWeight W] in
/-- A completed rule whose body is confirmed gives its atom. -/
theorem fires_of_instantiates {kb : KnowledgeBase W} {g : Subgoal W} {c : Clause W} (hc : r.table.Instantiates V kb g c)
    (hrule : ∀ c ∈ kb.rules.clauses, T.rule c) (hbody : ∀ l ∈ c.body, Confirms T l) {a : Atom} (ha : c.head = a.literal 1) :
    T.Fires a := by
  obtain ⟨a', e, -, rule, hrule', μ, hadm, hmeets⟩ := hc.trace
  obtain ⟨rfl, -⟩ := Atom.literal_inj (ha.symm.trans e)
  have hpick : ∀ b : Literal W, ∃ x : Atom, b ∈ rule.body → b.isNegated = false → b.Admits μ x ∧ T.Holds x := by
    intro b
    by_cases hb : b ∈ rule.body ∧ b.isNegated = false
    · obtain ⟨l, hl, hlb⟩ := forall₂_exists_left hmeets hb.1
      obtain ⟨x, w, hx, hxa⟩ := hlb.atom hb.2
      have hln : l.isNegated = false := by rw [Literal.isNegated, hlb.predicate]; exact hb.2
      exact ⟨x, fun _ _ => ⟨hxa, (hbody l hl).atom hln x w hx⟩⟩
    · exact ⟨a, fun h1 h2 => absurd ⟨h1, h2⟩ hb⟩
  choose pick hpick using hpick
  refine ⟨rule, μ, pick, ⟨hrule rule hrule', hadm, fun b hb hn => (hpick b hb hn).1, fun b hb hn => ?_⟩,
    fun b hb hn => (hpick b hb hn).2⟩
  obtain ⟨l, hl, hlb⟩ := forall₂_exists_left hmeets hb
  have hln : l.isNegated = true := by rw [Literal.isNegated, hlb.predicate]; exact hn
  have := (hbody l hl).negation hln μ
  rw [hlb.predicate, (hlb.negation hn).2 μ] at this
  exact this

/-- **Soundness.**  What completed rules lead to from the leaves is confirmed by a theory that states the leaves. -/
theorem Valid.sound {kb : KnowledgeBase W} (hv : r.Valid V kb) (hkb : kb.Regular V) {leaf : String → Prop}
    (hb : r.Backs kb T leaf) {id : String} (h : Supported r.table.Completed leaf id) :
    ∀ l, r.table.Resolved V l → l.id = id → Confirms T l := by
  induction h with
  | leaf hleaf =>
    intro l hl hid
    obtain ⟨i, g, hi, has⟩ := hb.asserts _ hleaf
    have hg := hv.goal i g hi
    obtain ⟨f, hf, hfid, hstated⟩ := hg.asserted _ has
    obtain ⟨hfres, hfp⟩ := hv.resolved hi hf
    have hneg : l.isNegated = g.literal.isNegated := by
      rw [Literal.isNegated_of_id_eq hl.literal.isPlain hfres.literal.isPlain (hid.trans hfid.symm), Literal.isNegated, hfp]
      rfl
    refine ⟨fun hn a w e => ?_, fun hn ν => ?_⟩
    · obtain ⟨a', w', e', -, -, hs⟩ := hkb.fact f (hstated (hneg ▸ hn))
      have hfl : f.head = l := Resolved.eq_of_id hfres hl (hfid.trans hid.symm) hn
      have e₂ : f.head = a'.literal w' := congrArg Clause.head e'
      obtain ⟨rfl, rfl⟩ := Atom.literal_inj (e.symm.trans (hfl.symm.trans e₂))
      refine .fact (hb.fact a w ?_ ?_)
      · rw [KnowledgeBase.States, ← e']
        exact hstated (hneg ▸ hn)
      · rw [← e, hid]
        exact hleaf
    · have hgn : g.literal.isNegated = true := hneg ▸ hn
      obtain ⟨hp, ht⟩ := (hg.fact f hf).negative hgn
      have hfsg : f.head.isSemiGrounded = true := by rw [Literal.isSemiGrounded, ht]; exact hg.negation hgn
      obtain ⟨hlp, hlv⟩ := Literal.variant_eq_of_id_eq hl.literal.isPlain hfres.literal.isPlain (hl.negation hn) hfsg
        (hid.trans hfid.symm)
      have := hb.denied i g hi hgn f hf (hfid.symm ▸ hleaf) ν
      rw [hlp, hp, Literal.values_eq_of_variant_eq hl.literal.isPlain hg.literal.isPlain (hl.negation hn) (hg.negation hgn)
        (hlv.trans (Literal.variant_congr hp ht)) ν ν]
      exact this
  | rule hc _ ih =>
    intro l hl hid
    obtain ⟨i, g, hi, hc⟩ := hc
    have hinst := (hv.goal i g hi).grounded _ hc
    obtain ⟨a, ha, hcov, rule, hrule, μ, hadm, -⟩ := hinst.trace
    have hpos : l.isNegated = false := by
      rw [Literal.isNegated_of_id_eq hl.literal.isPlain hinst.literal.isPlain hid, ha, Literal.isNegated]
      rw [show (a.literal (1 : W)).predicate = rule.head.predicate from hadm.1.symm]
      exact (hkb.rule rule hrule).positive
    have hfires : T.Fires a := fires_of_instantiates hinst hb.rule (fun b hb => ih b hb b (hinst.body b hb) rfl) ha
    refine ⟨fun _ a' w e => ?_, fun hn => ?_⟩
    · have hlit := hl.literal
      obtain ⟨a'', w'', e'', hw''⟩ := hl.atom hpos
      obtain ⟨rfl, rfl⟩ := Atom.literal_inj (e''.symm.trans e)
      have hlit' := hinst.literal
      have hform := (Literal.id_eq_iff hl.literal.isPlain hinst.literal.isPlain).1 hid
      rw [e''] at hlit hform
      rw [ha] at hlit' hform
      obtain ⟨rfl, -⟩ := Atom.literal_inj (Atom.literal_eq_of_form hlit hlit' hw'' V.certain hform)
      exact hfires.holds
    · rw [hpos] at hn
      cases hn

end Run
end Credence
