import Credence.Proofs.Denial
import Credence.Proofs.Targets
import Credence.Proofs.Worlds
/-!
# Probabilities are weights of worlds

For a program without negations and rule weights, what is estimated from the proofs of a query is the weight of the
worlds in which an instance of the query holds, and for a negation what is left of that (`Solver.probability_worlds`).
The proofs found in a settled table say of each world whether the query holds there (`Explains`), whatever the order in
which its facts were found and however the rules depend on each other; the ids that proofs rest on are those of stated
facts, so choosing ids and choosing facts come to the same.
-/
namespace Credence

open Prover (Met RestsPositive)

/-! ## Formulas without nested negations -/

/-- The id is certain, or in `A`. -/
def Given (A : Finset String) (id : String) : Prop := idWeight id = 1 ∨ id ∈ A

theorem given_image {B : Finset (Clause ℚ)} {id : String} : Given (B.image (fun c => c.head.id)) id ↔ Present B id :=
  or_congr_right Finset.mem_image

namespace ProofSet

theorem holds_iff {proofs : List (Clause ℚ)} (h : RestsPositive proofs) (set : ProofSet ℚ) (A : Finset String)
    (neg : String → Bool) : set.holds (fun id => decide (id ∈ A)) neg proofs = true ↔ ∃ p ∈ proofs, Met (Given A) p.body := by
  rw [holds, List.any_eq_true]
  refine exists_congr (fun p => and_congr_right (fun hp => ?_))
  rw [List.all_eq_true]
  refine forall₂_congr (fun l hl => ?_)
  rw [literalHolds, h p hp l hl, Bool.false_and, if_neg Bool.false_ne_true, Bool.or_eq_true, decide_eq_true_iff,
    Literal.isCertain_iff_idWeight]
  rfl

theorem acyclic_of_positive {set : ProofSet ℚ}
    (h : ∀ (id : String) (base : List (Clause ℚ)), set.negations[id]? = some base → RestsPositive base) : set.Acyclic := by
  refine acyclic_of_rank (fun _ => 0) (fun id id' hr => ?_)
  obtain ⟨base, hb, p, hp, l, hl, hneg, -⟩ := hr
  rw [h id base hb p hp l hl] at hneg
  cases hneg

theorem acyclic_ofProofs (proofs : List (Clause ℚ)) : (ofProofs proofs).Acyclic :=
  acyclic_of_positive (fun id base hb => by simp [ofProofs] at hb)

/-- Proofs without negations are true when one of them is met. -/
theorem trueIn_ofProofs {proofs : List (Clause ℚ)} (h : RestsPositive proofs) (A : Finset String) :
    (ofProofs proofs).TrueIn proofs A ↔ ∃ p ∈ proofs, Met (Given A) p.body := by
  constructor
  · rintro ⟨neg, -, ht⟩
    exact (holds_iff h _ A neg).1 ht
  · intro ht
    refine ⟨fun _ => true, fun id base hb => ?_, (holds_iff h _ A _).2 ht⟩
    simp [ofProofs] at hb

/-- A negation as its own proof, against some proofs. -/
def denying (leaf : Literal ℚ) (base : List (Clause ℚ)) : ProofSet ℚ :=
  ⟨[⟨leaf, [leaf]⟩], (∅ : Std.HashMap String (List (Clause ℚ))).insert leaf.id base⟩

theorem denying_negations {leaf : Literal ℚ} {base base' : List (Clause ℚ)} {id : String} :
    (denying leaf base).negations[id]? = some base' ↔ leaf.id = id ∧ base = base' := by
  rw [denying, Std.HashMap.getElem?_insert]
  simp

/-- A negation is true when no proof against it is met. -/
theorem trueIn_denying {leaf : Literal ℚ} (hn : leaf.isNegated = true) {base : List (Clause ℚ)} (h : RestsPositive base)
    (A : Finset String) : (denying leaf base).TrueIn (denying leaf base).proofs A ↔ ¬ ∃ p ∈ base, Met (Given A) p.body := by
  have hrec : (denying leaf base).negation? leaf = some base := denying_negations.2 ⟨rfl, rfl⟩
  have hval : ∀ neg : String → Bool,
      (denying leaf base).holds (fun id => decide (id ∈ A)) neg (denying leaf base).proofs = neg leaf.id := by
    intro neg
    have hleaf : (denying leaf base).literalHolds (fun id => decide (id ∈ A)) neg leaf = neg leaf.id := by
      rw [literalHolds, hrec, hn]
      rfl
    simp [holds, show (denying leaf base).proofs = [⟨leaf, [leaf]⟩] from rfl, hleaf]
  constructor
  · rintro ⟨neg, hv, ht⟩ hmet
    rw [hval, hv _ _ hrec, (holds_iff h _ A neg).2 hmet] at ht
    cases ht
  · intro hno
    refine ⟨fun _ => true, fun id base' hb => ?_, hval _⟩
    obtain ⟨-, rfl⟩ := denying_negations.1 hb
    rw [Bool.eq_false_iff.2 (mt (holds_iff h _ A _).1 hno)]
    rfl

end ProofSet

/-! ## Proofs that tell worlds apart -/

/-- **Proofs that explain a literal**: they rest on stated facts, and in every world one of them is met exactly when an
instance of the literal holds. -/
structure Explains (kb : KnowledgeBase ℚ) (l : Literal ℚ) (proofs : List (Clause ℚ)) : Prop where
  positive : RestsPositive proofs
  stated   : ∀ p ∈ proofs, ∀ m ∈ p.body, ∃ c ∈ kb.facts.clauses, c.head.id = m.id
  holds    : ∀ B, (∀ c ∈ B, c ∈ kb.facts.clauses) → ((∃ p ∈ proofs, Met (Present B) p.body) ↔ kb.HoldsIn l B)

namespace Explains

variable {kb : KnowledgeBase ℚ} {V : Vocabulary ℚ} {l : Literal ℚ} {proofs : List (Clause ℚ)}

/-- **To choose the ids of uncertain facts is to choose a world.** -/
theorem mass_eq (h : Explains kb l proofs) (hkb : kb.Regular V) {s : Finset String}
    (hs : ∀ p ∈ proofs, ∀ m ∈ p.body, m.id ∈ s) :
    mass s idWeight (fun A => ∃ p ∈ proofs, Met (Given A) p.body) = kb.chance l := by
  -- what matters are the ids of the uncertain leaves
  let u : Finset String := (((proofs.flatMap Clause.body).filter (fun m => !m.isCertain)).map Literal.id).toFinset
  have hmem : ∀ {id}, id ∈ u ↔ ∃ p ∈ proofs, ∃ m ∈ p.body, m.isCertain = false ∧ m.id = id := by
    intro id
    simp only [u, List.mem_toFinset, List.mem_map, List.mem_filter, List.mem_flatMap, Bool.not_eq_true']
    constructor
    · rintro ⟨m, ⟨⟨p, hp, hm⟩, hc⟩, e⟩
      exact ⟨p, hp, m, hm, hc, e⟩
    · rintro ⟨p, hp, m, hm, hc, e⟩
      exact ⟨m, ⟨⟨p, hp, hm⟩, hc⟩, e⟩
  have hsub : u ⊆ s := by
    intro id hid
    obtain ⟨p, hp, m, hm, -, rfl⟩ := hmem.1 hid
    exact hs p hp m hm
  have hsub' : u ⊆ kb.uncertain.image (fun c => c.head.id) := by
    intro id hid
    obtain ⟨p, hp, m, hm, hcert, rfl⟩ := hmem.1 hid
    obtain ⟨c, hc, e⟩ := h.stated p hp m hm
    refine Finset.mem_image.2 ⟨c, KnowledgeBase.mem_uncertain.2 ⟨hc, ?_⟩, e⟩
    rw [← Bool.not_eq_true, Literal.isCertain_iff_idWeight, e, ← Literal.isCertain_iff_idWeight, Bool.not_eq_true]
    exact hcert
  have hdep : ∀ A : Finset String, (∃ p ∈ proofs, Met (Given A) p.body) ↔ ∃ p ∈ proofs, Met (Given (A ∩ u)) p.body := by
    intro A
    refine exists_congr (fun p => and_congr_right (fun hp => forall₂_congr (fun m hm => ?_)))
    cases hc : m.isCertain with
    | true =>
      have hone := (Literal.isCertain_iff_idWeight m).1 hc
      exact ⟨fun _ => .inl hone, fun _ => .inl hone⟩
    | false =>
      refine or_congr_right ?_
      rw [Finset.mem_inter]
      exact ⟨fun hA => ⟨hA, hmem.2 ⟨p, hp, m, hm, hc, rfl⟩⟩, fun hA => hA.1⟩
  have hinj : Set.InjOn (fun c : Clause ℚ => c.head.id) kb.uncertain := fun c hc d hd e =>
    hkb.fact_eq_of_id (KnowledgeBase.mem_uncertain.1 hc).1 (KnowledgeBase.mem_uncertain.1 hd).1 e
  rw [mass_eq_of_subset hsub (fun A _ => hdep A), ← mass_eq_of_subset hsub' (fun A _ => hdep A), mass_image hinj,
    mass_congr_weight (fun c _ => idWeight_id c.head), KnowledgeBase.chance]
  refine mass_congr (fun B hB => ?_)
  rw [← h.holds B (fun c hc => (KnowledgeBase.mem_uncertain.1 (hB hc)).1)]
  simp only [Met, given_image]

theorem chance_nil (h : Explains kb l []) : kb.chance l = 0 := by
  rw [KnowledgeBase.chance, ← mass_false (s := kb.uncertain) (w := fun c => c.head.weight)]
  refine mass_congr (fun B hB => ?_)
  rw [← h.holds B (fun c hc => (KnowledgeBase.mem_uncertain.1 (hB hc)).1)]
  simp

end Explains

namespace Estimator

variable {kb : KnowledgeBase ℚ} {V : Vocabulary ℚ} {l m : Literal ℚ} {proofs : List (Clause ℚ)}

theorem probability_eq_chance {e : Estimator ℚ} (ha : e.set.Acyclic)
    (hu : ∀ p ∈ e.set.proofs, (m.unify p.head).isSome = true) : e.probability m none = e.set.chance e.set.proofs := by
  have hall : e.proofsFor m = e.set.proofs := by
    rw [proofsFor_eq]
    exact List.filter_eq_self.2 hu
  exact (compile_probability ha).trans (by rw [hall])

/-- Without proofs nothing is left. -/
theorem probability_ofNone (m : Literal ℚ) (settings : Settings) :
    (Estimator.mk (.ofProofs []) settings).probability m none = 0 := by
  have hnone : ∀ p ∈ (ProofSet.ofProofs ([] : List (Clause ℚ))).proofs, (m.unify p.head).isSome = true := fun _ hp => by cases hp
  rw [probability_eq_chance (ProofSet.acyclic_ofProofs []) hnone, ProofSet.chance]
  refine (mass_congr (fun A _ => ?_)).trans mass_false
  have hpos : RestsPositive ([] : List (Clause ℚ)) := fun _ hp => by cases hp
  refine (ProofSet.trueIn_ofProofs hpos A).trans ?_
  simp

/-- The estimate from a leaf that proves itself is its weight. -/
theorem probability_ofLeaf (hn : l.isNegated = false) (hu : (m.unify l).isSome = true) (settings : Settings) :
    (Estimator.mk (.ofProofs [⟨l, [l]⟩]) settings).probability m none = l.weight := by
  have hmeets : ∀ p ∈ (ProofSet.ofProofs [(⟨l, [l]⟩ : Clause ℚ)]).proofs, (m.unify p.head).isSome = true := by
    intro p hp
    rw [List.mem_singleton.1 hp]
    exact hu
  have hpos : RestsPositive [(⟨l, [l]⟩ : Clause ℚ)] := by simp [RestsPositive, hn]
  have hids : (ProofSet.ofProofs [(⟨l, [l]⟩ : Clause ℚ)]).ids = insert l.id ∅ := by
    simp [ProofSet.ids, ProofSet.ofProofs]
  have htrue : ∀ A : Finset String, (ProofSet.ofProofs [(⟨l, [l]⟩ : Clause ℚ)]).TrueIn [⟨l, [l]⟩] A ↔ Given A l.id :=
    fun A => (ProofSet.trueIn_ofProofs hpos A).trans (by simp [Met])
  rw [probability_eq_chance (ProofSet.acyclic_ofProofs _) hmeets, ProofSet.chance]
  refine (mass_congr (fun A _ => htrue A)).trans ?_
  dsimp only
  rw [hids, mass_insert (Finset.notMem_empty _)]
  by_cases hone : l.weight = 1
  · simp [Given, idWeight_id, hone]
  · simp [Given, idWeight_id, hone]

/-- The estimate from proofs that explain a literal. -/
theorem probability_ofProofs (h : Explains kb l proofs) (hkb : kb.Regular V) (settings : Settings)
    (hu : ∀ p ∈ proofs, (m.unify p.head).isSome = true) :
    (Estimator.mk (.ofProofs proofs) settings).probability m none = kb.chance l := by
  rw [probability_eq_chance (ProofSet.acyclic_ofProofs proofs) hu, ← h.mass_eq hkb (s := (ProofSet.ofProofs proofs).ids)
    (fun p hp x hx => ProofSet.mem_ids (.inl ⟨p, hp, hx⟩))]
  exact mass_congr (fun A _ => ProofSet.trueIn_ofProofs h.positive A)

/-- The estimate of a negation, against proofs that explain what it negates. -/
theorem probability_denying (h : Explains kb l proofs) (hkb : kb.Regular V) (settings : Settings) {leaf : Literal ℚ}
    (hn : leaf.isNegated = true) (hu : (m.unify leaf).isSome = true) :
    (Estimator.mk (.denying leaf proofs) settings).probability m none = 1 - kb.chance l := by
  have ha : (ProofSet.denying leaf proofs).Acyclic := by
    refine ProofSet.acyclic_of_positive (fun id base hb => ?_)
    obtain ⟨-, rfl⟩ := ProofSet.denying_negations.1 hb
    exact h.positive
  have hall : ∀ p ∈ (ProofSet.denying leaf proofs).proofs, (m.unify p.head).isSome = true := by
    intro p hp
    rw [List.mem_singleton.1 hp]
    exact hu
  rw [probability_eq_chance ha hall, ← h.mass_eq hkb (s := (ProofSet.denying leaf proofs).ids)
    (fun p hp x hx => ProofSet.mem_ids (.inr ⟨leaf.id, proofs, ProofSet.denying_negations.2 ⟨rfl, rfl⟩, p, hp, hx⟩)),
    ← mass_not]
  exact mass_congr (fun A _ => ProofSet.trueIn_denying hn h.positive A)

end Estimator

/-! ## Proofs from a settled table -/

namespace Run

variable {q : Query ℚ} {V : Vocabulary ℚ} {r r' : Run ℚ}

/-- **The proofs of the facts of a settled goal explain it**, whatever the order of the facts. -/
theorem Settled.explains (h : r.Settled q V) (hq : q.Regular V) (hd : q.kb.Definite) {i : Nat} {g : Subgoal ℚ}
    (hi : r.table.goal? i = some g) (hn : g.literal.isNegated = false) (prune : Bool) {targets : List (Literal ℚ)}
    (ht : ∀ t, t ∈ targets ↔ ∃ f ∈ g.facts, f.head = t) : Explains q.kb g.literal ((r.prover prune).proofsOf targets) := by
  have hrest : ∀ t ∈ targets, ∀ b ∈ (r.prover prune).expand t, ∀ m ∈ b, r.table.Resolved V m ∧ m.isNegated = false ∧
      ∃ c ∈ q.kb.facts.clauses, c.head.id = m.id := by
    intro t htm b hb m hm
    obtain ⟨f, hf, rfl⟩ := (ht t).1 htm
    exact h.valid.rests_on_stated hd hi hn hf prune hb hm
  have hclosed : ∀ {m : Literal ℚ}, r.table.Resolved V m → m.isNegated = false → Prover.Closed m := by
    intro m hm hpos
    obtain ⟨a, w, rfl, -⟩ := hm.atom hpos
    exact ⟨hm.literal.isPlain, Atom.literal_isSemiGrounded a w⟩
  refine ⟨fun p hp m hm => ?_, fun p hp m hm => ?_, fun B hB => ?_⟩
  · obtain ⟨htm, hb⟩ := Prover.of_mem_proofsOf hp
    exact (hrest _ htm _ hb m hm).2.1
  · obtain ⟨htm, hb⟩ := Prover.of_mem_proofsOf hp
    exact (hrest _ htm _ hb m hm).2.2
  · rw [← h.anyMet_iff hq hd hB hi hn prune, Prover.proofsOf_met]
    · constructor
      · rintro ⟨t, htm, hm⟩
        obtain ⟨f, hf, rfl⟩ := (ht t).1 htm
        exact ⟨f, hf, hm⟩
      · rintro ⟨f, hf, hm⟩
        exact ⟨f.head, (ht _).2 ⟨f, hf, rfl⟩, hm⟩
    · intro t htm
      obtain ⟨f, hf, rfl⟩ := (ht t).1 htm
      obtain ⟨hres, hp⟩ := h.valid.resolved hi hf
      exact hclosed hres (by rw [Literal.isNegated, hp]; exact hn)
    · intro t htm b hb m hm
      obtain ⟨hres, hpos, -⟩ := hrest t htm b hb m hm
      exact hclosed hres hpos

/-- **The estimate from a settled table.** -/
theorem Settled.probability_eq (h : r.Settled q V) (hq : q.Regular V) (hd : q.kb.Definite) {i : Nat} {g : Subgoal ℚ}
    (hi : r.table.goal? i = some g) (hn : g.literal.isNegated = false) (prune : Bool) (settings : Settings)
    {l : Literal ℚ} (hl : l.isWellFormed = true) (hcov : ∀ a, g.literal.Covers a → l.Covers a) :
    (Estimator.mk ((r.prover prune).proofSet (g.facts.map Clause.head)) settings).probability l none =
      q.kb.chance g.literal := by
  have hex : Explains q.kb g.literal ((r.prover prune).proofsOf (g.facts.map Clause.head)) :=
    h.explains hq hd hi hn prune (fun t => List.mem_map)
  rw [Prover.proofSet_of_positive hex.positive]
  refine Estimator.probability_ofProofs hex hq.kb settings (fun p hp => ?_)
  obtain ⟨f, hf, e⟩ := List.mem_map.1 (Prover.of_mem_proofsOf hp).1
  have hacc := (h.valid.goal i g hi).fact f hf
  obtain ⟨a, w, ha, -, hga, -⟩ := hacc.positive hn
  have hwf : a.WellFormed := Vocabulary.HasLiteral.wellFormed_atom (ha ▸ hacc.literal)
  rw [← e, ha]
  exact (Literal.unify_literal_isSome_iff hl hwf).2 (hcov a hga)

/-- Settled tables of the same query agree on the facts of a goal. -/
theorem Settled.mem_facts_congr (h : r.Settled q V) (h' : r'.Settled q V) (hq : q.Regular V) (hd : q.kb.Definite) {i j : Nat}
    {g g' : Subgoal ℚ} (hi : r.table.goal? i = some g) (hj : r'.table.goal? j = some g') (hl : g'.literal = g.literal)
    (hn : g.literal.isNegated = false) (c : Clause ℚ) : c ∈ g.facts ↔ c ∈ g'.facts := by
  rw [h.mem_facts_iff hq hi hn, h'.mem_facts_iff hq hj (hl ▸ hn), hl]
  simp only [KnowledgeBase.fires_iff_of_positive hd.positive r.denials r'.denials]

end Run

/-! ## The solver -/

/-- What is half a unit of the last digit or more does not round to zero. -/
theorem Rational.isZero_round_of_le {digits : Nat} {x : ℚ} (h : 1 / 2 ≤ 10 ^ digits * x) :
    Weight.isZero (Weight.round digits x) = false := by
  have hpos : (0 : ℚ) < 10 ^ digits := by positivity
  have hx : 0 ≤ x := by
    by_contra hneg
    have := mul_nonpos_of_nonneg_of_nonpos hpos.le (le_of_not_ge hneg)
    linarith
  have hfloor : 0 < ⌊x * ((10 ^ digits : ℕ) : ℚ) + 1 / 2⌋ := by
    rw [Int.floor_pos]
    push_cast
    linarith
  have hne : Rational.roundTo digits x ≠ 0 := by
    simp only [Rational.roundTo, hx, if_true]
    have : (0 : ℚ) < ((⌊x * ((10 ^ digits : ℕ) : ℚ) + 1 / 2⌋ : ℤ) : ℚ) := by exact_mod_cast hfloor
    positivity
  exact decide_eq_false hne

theorem Rational.isZero_round_one (digits : Nat) : Weight.isZero (Weight.round digits (1 : ℚ)) = false := by
  refine isZero_round_of_le ?_
  have : (1 : ℚ) ≤ 10 ^ digits := one_le_pow₀ (by norm_num)
  linarith

theorem KnowledgeBase.chance_congr {kb : KnowledgeBase ℚ} {l m : Literal ℚ} (h : ∀ a, l.Covers a ↔ m.Covers a) :
    kb.chance l = kb.chance m := by
  refine mass_congr (fun B _ => exists_congr (fun a => ?_))
  rw [h]

/-- Literals with the same predicate and the same values cover the same atoms. -/
theorem Literal.covers_congr {W : Type} {l m : Literal W} (hp : l.predicate = m.predicate) (hv : ∀ ν, l.values ν = m.values ν)
    (a : Atom) : l.Covers a ↔ m.Covers a := by
  simp only [Covers, Admits, hp, hv]

namespace Run

variable {q : Query ℚ} {V : Vocabulary ℚ} {r : Run ℚ}

/-- A literal that is no head has no completed rules. -/
theorem Valid.none_of_no_head (hv : r.Valid V q.kb) {l : Literal ℚ} (hl : l.isPlain = true)
    (hno : ∀ c ∈ q.kb.rules.clauses, c.head.predicate ≠ l.predicate) (prune : Bool) :
    (r.prover prune).rules[l.id]? = none := by
  refine (Prover.ofSnapshot_none _ _).2 (fun c hc e => ?_)
  obtain ⟨i, g, hi, hc⟩ := r.table.snapshot_spec.1.given c hc
  have hinst := (hv.goal i g hi).grounded c hc
  obtain ⟨a, ha, -, rule, hrule, μ, hadm, -⟩ := hinst.trace
  have hp : c.head.predicate = rule.head.predicate := by
    rw [ha]
    exact hadm.1.symm
  exact hno rule hrule (hp.symm.trans (Literal.predicate_eq_of_id_eq hinst.literal.isPlain hl e))

/-- No rule gives a negation. -/
theorem Valid.none_of_isNegated (hv : r.Valid V q.kb) (hkb : q.kb.Regular V) {l : Literal ℚ} (hl : l.isPlain = true)
    (hn : l.isNegated = true) (prune : Bool) : (r.prover prune).rules[l.id]? = none := by
  refine hv.none_of_no_head hl (fun c hc e => ?_) prune
  have hpos := (hkb.rule c hc).positive
  rw [Literal.isNegated, e] at hpos
  rw [Literal.isNegated, hpos] at hn
  cases hn

/-- A negation without an entry stands against nothing. -/
theorem Valid.negationBases_of_not_hasEntry (hv : r.Valid V q.kb) {i : Nat} {g : Subgoal ℚ} (hi : r.table.goal? i = some g)
    (hn : g.literal.isNegated = true) (hent : ¬ r.table.HasEntry g.literal) (prune : Bool) :
    (r.prover prune).snapshot.negationBases g.literal = [] := by
  rw [hv.negationBases_eq]
  cases hk : r.table.negations[g.literal.id]? with
  | none => rfl
  | some v => exact absurd (hv.hasEntry_of_negations hi hn rfl rfl hk) hent

/-- **What a negation is given** is what the proofs it stands against leave of the whole. -/
theorem Valid.probability_denial (hv : r.Valid V q.kb) (hkb : q.kb.Regular V) {leaf l base : Literal ℚ}
    (hplain : leaf.isPlain = true) (hn : leaf.isNegated = true) (hu : (l.unify leaf).isSome = true) {prune : Bool}
    (hex : Explains q.kb base ((r.prover prune).proofsOf ((r.prover prune).snapshot.negationBases leaf)))
    (settings : Settings) :
    (Estimator.mk ((r.prover prune).proofSet [leaf]) settings).probability l none = 1 - q.kb.chance base := by
  rw [Prover.proofSet_of_negation hn (hv.none_of_isNegated hkb hplain hn _) hex.positive]
  exact Estimator.probability_denying hex hkb settings hn hu

end Run

namespace Solver

variable {s : Solver ℚ} {V : Vocabulary ℚ} {l : Literal ℚ}

/-- What the proofs of a query are made from. -/
theorem proofs_eq {r : Run ℚ} (h : s.start l none = (.ok (), { s with run := r })) :
    (s.proofs l).1 = .ok ((r.prover s.settings.pruneCertain).proofSet ((r.table.facts 0).map Clause.head)) := by
  simp only [proofs, h]
  rfl

/-- The estimate of a positive query. -/
theorem probability_positive (hkb : s.kb.Regular V) (hd : s.kb.Definite) (hcap : s.storeCapacity = none) {n : Nat}
    (hl : V.HasLiteral n l) (hn : l.isNegated = false) :
    ∃ steps set, (∀ patience, steps ≤ patience → (({ s with patience := patience } : Solver ℚ).proofs l).1 = .ok set) ∧
      ∀ settings, (Estimator.mk set settings).probability l none = s.kb.chance l := by
  have hq : s.query.Regular V := ⟨hkb, hcap, rfl⟩
  have hnn : l.isNegated = true → l.isSemiGrounded = true := fun h => by rw [hn] at h; cases h
  obtain ⟨steps, r, hgrow, hagenda, hstart⟩ := settles hkb hcap hl hnn
  obtain ⟨g, hi, hgl⟩ := exists_root hgrow
  have hcov : ∀ a : Atom, g.literal.Covers a ↔ l.Covers a := fun a => by rw [hgl]; exact asked_covers_iff a
  have hgn : g.literal.isNegated = false := by
    rw [hgl]
    exact hn
  refine ⟨steps, (r.prover s.settings.pruneCertain).proofSet ((r.table.facts 0).map Clause.head),
    fun patience hp => proofs_eq (hstart patience hp), fun settings => ?_⟩
  rw [Table.facts, hi]
  refine (hagenda.settled.probability_eq hq hd hi hgn _ settings hl.wellFormed (fun a => (hcov a).1)).trans ?_
  exact KnowledgeBase.chance_congr hcov

/-- The base of a negation covers what it covers in fresh variables. -/
theorem covers_base {base asked : Literal ℚ} (hn : l.isNegated = true) (hsg : l.isSemiGrounded = true)
    {n m : Nat} (hl : V.HasLiteral n l) (hm : V.HasLiteral m (s.asked l)) (hbase : l.negate = .ok base)
    (hasked : (s.asked l).negate = .ok asked) (a : Atom) : asked.Covers a ↔ base.Covers a := by
  obtain ⟨base', hbase', hshape, -, -⟩ := hl.negate hn
  obtain ⟨asked', hasked', hshape', -, -⟩ := hm.negate hn
  rw [hbase] at hbase'
  rw [hasked] at hasked'
  injection hbase' with hbase'
  injection hasked' with hasked'
  subst hbase' hasked'
  refine Literal.covers_congr ?_ (fun ν => ?_) a
  · rw [hshape, hshape']
    rfl
  · rw [hshape, hshape']
    exact asked_values hsg ν ν

theorem unify_asked (hsg : l.isSemiGrounded = true) {leaf : Literal ℚ} (hp : leaf.predicate = (s.asked l).predicate)
    (ht : leaf.terms = (s.asked l).terms) : (l.unify leaf).isSome = true := by
  have hvals : l.values (fun _ => ⟨""⟩) = leaf.values (fun _ => ⟨""⟩) := by
    rw [Literal.values, Literal.values, ht]
    exact (asked_values hsg _ _).symm
  obtain ⟨σ, hσ⟩ := Literal.unify_of_values_eq (by rw [hp]; rfl) hvals
  rw [hσ]
  rfl

/-- The estimate of a negation. -/
theorem probability_negated (hkb : s.kb.Regular V) (hd : s.kb.Definite) (hcap : s.storeCapacity = none) {n : Nat}
    (hl : V.HasLiteral n l) (hn : l.isNegated = true) (hsg : l.isSemiGrounded = true) :
    ∃ steps set, (∀ patience, steps ≤ patience → (({ s with patience := patience } : Solver ℚ).proofs l).1 = .ok set) ∧
      ∃ base, l.negate = .ok base ∧ ∀ settings, (Estimator.mk set settings).probability l none =
        if Weight.isZero (Weight.round s.settings.negationDigits (1 - s.kb.chance base)) then 0 else 1 - s.kb.chance base := by
  have hq : s.query.Regular V := ⟨hkb, hcap, rfl⟩
  obtain ⟨steps, r₀, r, g, b, asked, outcome, hset₀, hset, hgrow, hg, hgl, hasked, hb, hbl, hout, hfacts, hent, hstart⟩ :=
    decides hkb hcap hd.positive hl hn hsg
  obtain ⟨base, hneg, hbase, -, -⟩ := hl.negate hn
  have hgv := hset₀.valid.goal 0 g hg
  have hlit : V.HasLiteral r₀.pool.issued (s.asked l) := hgl ▸ hgv.literal
  have hgn : g.literal.isNegated = true := by
    rw [hgl]
    exact hn
  obtain ⟨asked', hasked', -, hpos, hbasked⟩ := hlit.negate hn
  rw [hasked] at hasked'
  injection hasked' with hasked'
  subst hasked'
  have hchance : s.kb.chance asked = s.kb.chance base :=
    KnowledgeBase.chance_congr (covers_base hn hsg hl hlit hneg hasked)
  have hbn : b.literal.isNegated = false := by
    rw [hbl]
    exact hpos
  have hcomp : r₀.complement s.query asked b = 1 - s.kb.chance base := by
    have := hset₀.probability_eq hq hd hb hbn s.settings.pruneCertain s.settings hbasked.wellFormed (fun a ha => hbl ▸ ha)
    rw [hbl] at this
    exact congrArg (1 - ·) (this.trans hchance)
  obtain ⟨g', hg', hgg⟩ := hgrow.goal 0 g hg
  obtain ⟨b', hb', hbb⟩ := hgrow.goal 1 b hb
  -- the base has the same facts in the end, so their proofs explain it there as well
  have hex : Explains s.kb b'.literal ((r.prover s.settings.pruneCertain).proofsOf (b.facts.map Clause.head)) := by
    refine hset.explains hq hd hb' (hbb.literal ▸ hbn) _ (fun t => ?_)
    simp only [List.mem_map, hset₀.mem_facts_congr hset hq hd hb hb' hbb.literal hbn]
  have hchance' : s.kb.chance b'.literal = s.kb.chance base := by rw [hbb.literal, hbl, hchance]
  have hdeny : ∀ leaf : Literal ℚ, leaf.predicate = g.literal.predicate → leaf.terms = g.literal.terms →
      (r.prover s.settings.pruneCertain).snapshot.negationBases leaf = b.facts.map Clause.head → ∀ settings,
      (Estimator.mk ((r.prover s.settings.pruneCertain).proofSet [leaf]) settings).probability l none =
        1 - s.kb.chance base := by
    intro leaf hp ht hbases settings
    have hln : leaf.isNegated = true := by
      rw [Literal.isNegated, hp]
      exact hgn
    rw [← hchance']
    exact hset.valid.probability_denial hkb ((Literal.isPlain_congr hp ht).trans hgv.literal.isPlain) hln
      (unify_asked hsg (hgl ▸ hp) (hgl ▸ ht)) (hbases ▸ hex) settings
  refine ⟨steps, (r.prover s.settings.pruneCertain).proofSet ((r.table.facts 0).map Clause.head),
    fun patience hp => proofs_eq (hstart patience hp), base, hneg, fun settings => ?_⟩
  rw [hfacts]
  cases hout with
  | certain hempty =>
    have hzero : s.kb.chance base = 0 := by
      rw [← hchance']
      rw [hempty] at hex
      exact hex.chance_nil
    have hround : Weight.isZero (Weight.round s.settings.negationDigits (1 - s.kb.chance base)) = false := by
      rw [hzero, sub_zero]
      exact Rational.isZero_round_one _
    rw [hround, if_neg Bool.false_ne_true]
    refine hdeny g.literal rfl rfl ?_ settings
    rw [hempty, ← hgg.literal]
    exact hset.valid.negationBases_of_not_hasEntry hg' (hgg.literal ▸ hgn) (hgg.literal ▸ hent hempty) _
  | dropped _ hdrop =>
    rw [hcomp] at hdrop
    refine Eq.trans ?_ (if_pos hdrop).symm
    have hnone : RestsPositive ((r.prover s.settings.pruneCertain).proofsOf []) := fun _ hp => by cases hp
    rw [show (Option.toList none).map Clause.head = ([] : List (Literal ℚ)) from rfl, Prover.proofSet_of_positive hnone]
    exact Estimator.probability_ofNone l settings
  | @weighted leaf _ hdrop hleaf hentry =>
    rw [hcomp] at hdrop
    refine Eq.trans ?_ (if_neg hdrop).symm
    refine hdeny leaf (by rw [hleaf]) (by rw [hleaf]) ?_ settings
    rw [hset.valid.negationBases_eq, hentry]
    rfl

/-- **Estimates are exact.**  Over a knowledge base that was built from plain clauses and texts, without primitives,
negations, rule weights and wildcards in the heads of rules, a solver with patience enough finds the proofs of a query.
What is estimated from them, with every setting, is the weight of the worlds in which an instance of the query holds; for
a negation it is the rest, or nothing when the rest rounds to zero. -/
theorem probability_worlds {s : Solver ℚ} (hb : s.kb.Built)
    (hprim : ∀ c ∈ s.kb.rules.clauses, ∀ m ∈ c.body, m.isPrimitive = false)
    (hneg : ∀ c ∈ s.kb.rules.clauses, ∀ m ∈ c.body, m.isNegated = false)
    (hwild : ∀ c ∈ s.kb.rules.clauses, ∀ t ∈ c.head.terms, t.isWildcard = false)
    (hweight : ∀ c ∈ s.kb.facts.clauses ++ s.kb.rules.clauses, Prover.isRuleWeight c.head = false)
    (hcap : s.storeCapacity = none) {l : Literal ℚ} (hl : l.isPlain = true) (hlp : l.isPrimitive = false)
    (hsg : l.isNegated = true → l.isSemiGrounded = true) :
    ∃ steps set, (∀ patience, steps ≤ patience → (({ s with patience := patience } : Solver ℚ).proofs l).1 = .ok set) ∧
      (l.isNegated = false → ∀ settings, (Estimator.mk set settings).probability l none = s.kb.chance l) ∧
      (l.isNegated = true → ∃ base, l.negate = .ok base ∧ ∀ settings, (Estimator.mk set settings).probability l none =
        if Weight.isZero (Weight.round s.settings.negationDigits (1 - s.kb.chance base)) then 0
        else 1 - s.kb.chance base) := by
  obtain ⟨V, hreg, n, hlit⟩ := hb.kept.regular hprim hwild hl hlp
  have hd : s.kb.Definite :=
    ⟨hneg, fun c hc => hweight c (List.mem_append_left _ hc), fun c hc => hweight c (List.mem_append_right _ hc)⟩
  cases hn : l.isNegated with
  | false =>
    obtain ⟨steps, set, hproofs, hprob⟩ := probability_positive hreg hd hcap hlit hn
    exact ⟨steps, set, hproofs, fun _ => hprob, fun h => by cases h⟩
  | true =>
    obtain ⟨steps, set, hproofs, hprob⟩ := probability_negated hreg hd hcap hlit hn (hsg hn)
    exact ⟨steps, set, hproofs, fun h => (by cases h), fun _ => hprob⟩

end Solver

/-! ## One edge in two worlds -/

namespace OneEdge

/-- Nothing holds without the edge. -/
theorem not_holds {w : ℚ} (hw : w ≠ 1) {a : Atom} : ¬ ((kb w).world ∅).Holds a := by
  intro h
  induction h with
  | fact h =>
    rcases h with h | ⟨v, h⟩
    · rw [KnowledgeBase.States, facts, List.mem_singleton] at h
      exact hw (congrArg (fun c : Clause ℚ => c.head.weight) h).symm
    · simp at h
  | rule hi _ ih =>
    have hc : _ ∈ (kb w).rules.clauses := hi.rule
    rw [rules, List.mem_singleton] at hc
    subst hc
    exact ih _ List.mem_cons_self rfl

theorem holds (w : ℚ) : ((kb w).world {fact w}).Holds path := by
  refine (fires w).holds.mono ?_ ?_ ?_
  · rintro a ⟨v, hs⟩
    rw [KnowledgeBase.States, facts, List.mem_singleton] at hs
    exact .inr ⟨v, Finset.mem_singleton.2 hs⟩
  · exact fun _ hc => hc
  · exact fun _ _ hd => hd

theorem uncertain {w : ℚ} (hw : w ≠ 1) : (kb w).uncertain = {fact w} := by
  have hcert : (fact w).head.isCertain = false := decide_eq_false hw
  ext c
  rw [KnowledgeBase.mem_uncertain, facts, List.mem_singleton, Finset.mem_singleton]
  constructor
  · exact fun h => h.1
  · rintro rfl
    exact ⟨rfl, hcert⟩

/-- What the path makes true is as likely as the edge. -/
theorem chance_eq {w : ℚ} (hw : w ≠ 1) {l : Literal ℚ} (hl : l.Covers path) : (kb w).chance l = w := by
  have hwith : (kb w).HoldsIn l {fact w} := ⟨path, hl, holds w⟩
  have hwithout : ¬ (kb w).HoldsIn l ∅ := fun ⟨_, _, ha⟩ => not_holds hw ha
  have hmass := mass_insert (s := ∅) (i := fact w) (w := fun c => c.head.weight) (E := (kb w).HoldsIn l) (Finset.notMem_empty _)
  rw [mass_empty, mass_empty, if_neg hwithout, insert_empty_eq, if_pos hwith, mul_one, mul_zero, add_zero] at hmass
  rw [KnowledgeBase.chance, uncertain hw]
  exact hmass

/-- Is there no path from `a` to `b`? -/
def denial : Literal ℚ := ⟨1, ⟨"~path", 2⟩, [.const ⟨"a"⟩, .const ⟨"b"⟩]⟩

end OneEdge

namespace Solver

/-- The edge is there in one world of three, by weight, and so is the path. -/
theorem probability_worlds_oneEdge :
    (∃ steps set, (∀ patience, steps ≤ patience →
        (({ Solver.new (OneEdge.kb (1 / 3)) .default with patience := patience } : Solver ℚ).proofs OneEdge.query).1 =
          .ok set) ∧ (Estimator.mk set .default).probability OneEdge.query none = 1 / 3) ∧
    ∃ steps set, (∀ patience, steps ≤ patience →
        (({ Solver.new (OneEdge.kb (1 / 3)) .default with patience := patience } : Solver ℚ).proofs OneEdge.denial).1 =
          .ok set) ∧ (Estimator.mk set .default).probability OneEdge.denial none = 2 / 3 := by
  have hw : (1 / 3 : ℚ) ≠ 1 := by norm_num
  have hrule : ∀ {c : Clause ℚ}, c ∈ (OneEdge.kb (1 / 3)).rules.clauses → c = OneEdge.rule := by
    intro c hc
    rw [OneEdge.rules] at hc
    exact List.mem_singleton.1 hc
  have hclause : ∀ c ∈ (OneEdge.kb (1 / 3)).facts.clauses ++ (OneEdge.kb (1 / 3)).rules.clauses,
      Prover.isRuleWeight c.head = false := by
    rw [OneEdge.facts, OneEdge.rules]
    decide
  have hex := fun {l : Literal ℚ} => probability_worlds (s := Solver.new (OneEdge.kb (1 / 3)) .default) (l := l)
    (OneEdge.built (by norm_num)) (fun c hc => by rw [hrule hc]; decide) (fun c hc => by rw [hrule hc]; decide)
    (fun c hc => by rw [hrule hc]; decide) hclause rfl
  constructor
  · obtain ⟨steps, set, hproofs, hpos, -⟩ := hex (l := OneEdge.query) rfl rfl (fun h => by cases h)
    refine ⟨steps, set, hproofs, (hpos rfl _).trans (OneEdge.chance_eq hw ?_)⟩
    exact ⟨fun _ => ⟨"b"⟩, rfl, .cons (.inr rfl) (.cons (.inr rfl) .nil)⟩
  · obtain ⟨steps, set, hproofs, -, hneg⟩ := hex (l := OneEdge.denial) rfl rfl (fun _ => rfl)
    obtain ⟨base, hbase, hprob⟩ := hneg rfl
    refine ⟨steps, set, hproofs, (hprob _).trans ?_⟩
    have hpath : base = OneEdge.path.literal 1 := by
      have : OneEdge.denial.negate = .ok (OneEdge.path.literal 1) := rfl
      rw [this] at hbase
      injection hbase with hbase
      exact hbase.symm
    have hchance : (OneEdge.kb (1 / 3)).chance base = 1 / 3 := by
      rw [hpath]
      exact OneEdge.chance_eq hw ⟨fun _ => ⟨""⟩, Literal.admits_atom _ _ _⟩
    have hround : Weight.isZero (Weight.round Settings.default.negationDigits (1 - 1 / 3 : ℚ)) = false := by decide +kernel
    show (if Weight.isZero (Weight.round Settings.default.negationDigits (1 - (OneEdge.kb (1 / 3)).chance base)) then 0
      else 1 - (OneEdge.kb (1 / 3)).chance base) = 2 / 3
    rw [hchance, hround]
    norm_num

end Solver
end Credence
