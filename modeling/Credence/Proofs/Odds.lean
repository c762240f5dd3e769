import Credence.Proofs.Closing
import Credence.Proofs.Perfection
import Credence.Proofs.Worlds
/-!
# Possible worlds with negations

Where the predicates of a program stand in layers, every world of it has one perfect model.  The odds of a literal are the
weight of the worlds whose perfect model has an instance of it (`KnowledgeBase.odds`).

A proof set pictures the worlds when it says of each id, in every world, what is true there, with the stated facts under
names of their own.  The weighted count of its formula is then the weight of the worlds in which one of the proofs is met
(`ProofSet.Pictures.chance_eq`).
-/
namespace Credence

open Prover (Met Closed)

/-! ## Worlds and their models -/

namespace KnowledgeBase

variable {kb : KnowledgeBase ℚ} {V : Vocabulary ℚ} {layer : Predicate → Nat} {B : Finset (Clause ℚ)} {l m : Literal ℚ}

/-- Some instance of the literal is in the perfect model of the world. -/
def PerfectIn (kb : KnowledgeBase ℚ) (l : Literal ℚ) (B : Finset (Clause ℚ)) : Prop :=
  ∃ M, (kb.world B).IsStable M ∧ ∃ a, l.Covers a ∧ M a

/-- **The odds of a literal**: the weight of the worlds with an instance of it in the perfect model. -/
noncomputable def odds (kb : KnowledgeBase ℚ) (l : Literal ℚ) : ℚ :=
  mass kb.uncertain (fun c => c.head.weight) (kb.PerfectIn l)

theorem perfectIn_iff (hT : kb.positiveTheory.Layered layer) :
    kb.PerfectIn l B ↔ ∃ a, l.Covers a ∧ (kb.world B).perfect layer a := by
  have hB : (kb.world B).Layered layer := hT
  constructor
  · rintro ⟨M, hM, a, hcov, ha⟩
    exact ⟨a, hcov, (hM.unique hB.isStable_perfect hB a).1 ha⟩
  · rintro ⟨a, hcov, ha⟩
    exact ⟨_, hB.isStable_perfect, a, hcov, ha⟩

theorem odds_congr (h : ∀ a, l.Covers a ↔ m.Covers a) : kb.odds l = kb.odds m := by
  refine mass_congr (fun B _ => exists_congr (fun M => and_congr_right (fun _ => exists_congr (fun a => ?_))))
  rw [h]

/-- What is uncertain may be there and may not. -/
theorem Regular.weight_lt (h : kb.Regular V) {c : Clause ℚ} (hc : c ∈ kb.uncertain) :
    0 < c.head.weight ∧ c.head.weight < 1 := by
  obtain ⟨hc, hcert⟩ := mem_uncertain.1 hc
  obtain ⟨a, w, rfl, -, hw, -⟩ := h.fact c hc
  have hproper : 0 < w ∧ w ≤ 1 := of_decide_eq_true (V.proper w hw)
  refine ⟨hproper.1, lt_of_le_of_ne hproper.2 (fun e => ?_)⟩
  have hone : (Clause.fact (a.literal w)).head.isCertain = true := (LawfulWeight.isCertain_iff w).2 e
  rw [hone] at hcert
  cases hcert

end KnowledgeBase

/-! ## Truth in a world -/

/-- Names of stated facts: ids of positive literals with their weights, no two the same. -/
structure Names (kb : KnowledgeBase ℚ) (name : Clause ℚ → String) : Prop where
  literal : ∀ c ∈ kb.facts.clauses, ∃ l : Literal ℚ, l.isPlain = true ∧ l.isNegated = false ∧
    l.weight = c.head.weight ∧ name c = l.id
  inj     : Set.InjOn name {c | c ∈ kb.facts.clauses}

/-- **What is true in a world**: certain ids, the names of its facts, and the negations that hold in its model. -/
def TrueAt (name : Clause ℚ → String) (M : Atom → Prop) (B : Finset (Clause ℚ)) (id : String) : Prop :=
  idWeight id = 1 ∨ (∃ c ∈ B, name c = id) ∨
    ∃ l : Literal ℚ, Closed l ∧ l.isNegated = true ∧ l.id = id ∧ ∀ ν, Unless M l.predicate (l.values ν)

section Truth

variable {kb : KnowledgeBase ℚ} {V : Vocabulary ℚ} {name : Clause ℚ → String} {M : Atom → Prop} {B : Finset (Clause ℚ)}
  {l : Literal ℚ}

theorem trueAt_positive (hl : l.isPlain = true) (hn : l.isNegated = false) :
    TrueAt name M B l.id ↔ l.isCertain = true ∨ ∃ c ∈ B, name c = l.id := by
  rw [TrueAt, ← Literal.isCertain_iff_idWeight]
  refine or_congr_right (or_iff_left ?_)
  rintro ⟨m, hm, hmn, e, -⟩
  rw [Literal.isNegated_of_id_eq hm.1 hl e, hn] at hmn
  cases hmn

theorem trueAt_negation (h : Names kb name) (hB : ∀ c ∈ B, c ∈ kb.facts.clauses) (hl : Closed l) (hn : l.isNegated = true) :
    TrueAt name M B l.id ↔ l.isCertain = true ∨ ∀ ν, Unless M l.predicate (l.values ν) := by
  rw [TrueAt, ← Literal.isCertain_iff_idWeight]
  refine or_congr_right ⟨?_, fun hu => .inr ⟨l, hl, hn, rfl, hu⟩⟩
  rintro (⟨c, hc, e⟩ | ⟨m, hm, -, e, hu⟩)
  · obtain ⟨m, hm, hmn, -, hname⟩ := h.literal c (hB c hc)
    rw [Literal.isNegated_of_id_eq hm hl.1 (hname.symm.trans e), hn] at hmn
    cases hmn
  · intro ν
    have hvar := (Literal.variant_eq_of_id_eq hm.1 hl.1 hm.2 hl.2 e).2
    have hp := (Literal.shape_eq_of_variant_eq hm.1 hl.1 hvar).1
    rw [← hp, ← Literal.values_eq_of_variant_eq hm.1 hl.1 hm.2 hl.2 hvar ν ν]
    exact hu ν

theorem KnowledgeBase.Regular.names (h : kb.Regular V) : Names kb (fun c => c.head.id) := by
  refine ⟨fun c hc => ?_, fun c hc d hd e => h.fact_eq_of_id hc hd e⟩
  obtain ⟨a, w, rfl, ha, -, hn⟩ := h.fact c hc
  exact ⟨a.literal w, ha.isPlain, hn, rfl, rfl⟩

/-- A world states what is true there. -/
theorem KnowledgeBase.Regular.speaks_world (h : kb.Regular V) (hB : ∀ c ∈ B, c ∈ kb.facts.clauses) :
    Run.Speaks kb (kb.world B) (TrueAt (fun c => c.head.id) M B) := by
  refine ⟨fun _ => Iff.rfl, fun a => ?_⟩
  constructor
  · rintro (hs | ⟨w, hw⟩)
    · exact ⟨1, hs, .inl (idWeight_id _)⟩
    · exact ⟨w, hB _ hw, .inr (.inl ⟨_, hw, rfl⟩)⟩
  · rintro ⟨w, hs, ht⟩
    obtain ⟨a', w', e, ha, -, hn⟩ := h.fact _ hs
    obtain ⟨rfl, rfl⟩ := Atom.literal_inj (congrArg Clause.head e)
    rcases (trueAt_positive ha.isPlain hn).1 ht with hcert | ⟨c, hc, hid⟩
    · exact .inl ((LawfulWeight.isCertain_iff w).1 hcert ▸ hs)
    · exact .inr ⟨w, h.fact_eq_of_id (hB c hc) hs hid ▸ hc⟩

end Truth

/-! ## Formulas of worlds -/

/-- With any way to say which negations hold, the formula of compiled proofs has one value. -/
theorem Compiled.Means.trueIn_iff_holds {set : ProofSet ℚ} {proofs : List (Clause ℚ)} {c : Compiled ℚ}
    (h : c.Means set proofs) {A : Finset String} {neg : String → Bool}
    (hv : set.Values (fun id => decide (id ∈ A)) neg) :
    set.TrueIn proofs A ↔ set.holds (fun id => decide (id ∈ A)) neg proofs = true := by
  refine ⟨fun ⟨neg', hv', ht⟩ => ?_, fun ht => ⟨neg, hv, ht⟩⟩
  rw [← h.formula _ neg hv, h.formula _ neg' hv', ht]

namespace ProofSet

/-- **A proof set that pictures the worlds of a program**, where `tr` says what is true in each of them. -/
structure Pictures (set : ProofSet ℚ) (kb : KnowledgeBase ℚ) (name : Clause ℚ → String)
    (tr : Finset (Clause ℚ) → String → Prop) : Prop where
  acyclic  : set.Acyclic
  recorded : ∀ l, set.Occurs l → l.isNegated = true → (set.negation? l).isSome = true
  stated   : ∀ l, set.Occurs l → l.isNegated = false → l.isCertain = true ∨ ∃ c ∈ kb.uncertain, name c = l.id
  positive : ∀ B ⊆ kb.uncertain, ∀ l, set.Occurs l → l.isNegated = false →
    (tr B l.id ↔ l.isCertain = true ∨ ∃ c ∈ B, name c = l.id)
  negation : ∀ B ⊆ kb.uncertain, ∀ (id : String) (base : List (Clause ℚ)), set.negations[id]? = some base →
    (tr B id ↔ ¬ ∃ p ∈ base, Met (tr B) p.body)

variable {set : ProofSet ℚ} {kb : KnowledgeBase ℚ} {V : Vocabulary ℚ} {name : Clause ℚ → String}
  {tr : Finset (Clause ℚ) → String → Prop} {proofs : List (Clause ℚ)} {A A' : Finset String}

/-- What the uncertain leaves of the proofs are decides the formula. -/
theorem trueIn_congr (hrec : ∀ l, set.Occurs l → l.isNegated = true → (set.negation? l).isSome = true)
    (hocc : ∀ p ∈ proofs, ∀ l ∈ p.body, set.Occurs l)
    (h : ∀ l, set.Occurs l → l.isNegated = false → l.isCertain = false → (l.id ∈ A ↔ l.id ∈ A')) :
    set.TrueIn proofs A ↔ set.TrueIn proofs A' := by
  have hliteral : ∀ neg l, set.Occurs l →
      set.literalHolds (fun id => decide (id ∈ A)) neg l = set.literalHolds (fun id => decide (id ∈ A')) neg l := by
    intro neg l hl
    unfold literalHolds
    cases hn : l.isNegated with
    | true => rw [hrec l hl hn, Bool.and_self, if_pos rfl, if_pos rfl]
    | false =>
      cases hc : l.isCertain with
      | true => rfl
      | false => exact decide_eq_decide.2 (h l hl hn hc)
  have hholds : ∀ neg ps, (∀ p ∈ ps, ∀ l ∈ p.body, set.Occurs l) →
      set.holds (fun id => decide (id ∈ A)) neg ps = set.holds (fun id => decide (id ∈ A')) neg ps := by
    intro neg ps hps
    rw [Bool.eq_iff_iff, holds, holds, List.any_eq_true, List.any_eq_true]
    refine exists_congr (fun p => and_congr_right (fun hp => ?_))
    rw [List.all_eq_true, List.all_eq_true]
    exact forall₂_congr (fun l hl => by rw [hliteral neg l (hps p hp l hl)])
  refine exists_congr (fun neg => and_congr ?_ (by rw [hholds neg proofs hocc]))
  refine forall₃_congr (fun id base hb => ?_)
  rw [hholds neg base (fun p hp l hl => .inr ⟨id, base, hb, p, hp, hl⟩)]

namespace Pictures

/-- What is true in a world satisfies the formula there. -/
theorem holds_iff (h : set.Pictures kb name tr) {B : Finset (Clause ℚ)} (hB : B ⊆ kb.uncertain) {neg : String → Bool}
    (hneg : ∀ id, neg id = true ↔ tr B id) (hocc : ∀ p ∈ proofs, ∀ l ∈ p.body, set.Occurs l) :
    set.holds (fun id => decide (id ∈ B.image name)) neg proofs = true ↔ ∃ p ∈ proofs, Met (tr B) p.body := by
  rw [holds, List.any_eq_true]
  refine exists_congr (fun p => and_congr_right (fun hp => ?_))
  rw [List.all_eq_true]
  refine forall₂_congr (fun l hl => ?_)
  have hl := hocc p hp l hl
  rw [literalHolds]
  cases hn : l.isNegated with
  | true => rw [h.recorded l hl hn, Bool.and_self, if_pos rfl, hneg]
  | false =>
    rw [Bool.false_and, if_neg Bool.false_ne_true, h.positive B hB l hl hn, Bool.or_eq_true, decide_eq_true_iff,
      Finset.mem_image]

/-- **The weighted count is the weight of the worlds in which one of the proofs is met.** -/
theorem chance_eq (h : set.Pictures kb name tr) (hname : Names kb name) {c : Compiled ℚ} (hc : c.Means set proofs)
    (hocc : ∀ p ∈ proofs, ∀ l ∈ p.body, set.Occurs l) :
    set.chance proofs = mass kb.uncertain (fun c => c.head.weight) (fun B => ∃ p ∈ proofs, Met (tr B) p.body) := by
  classical
  have hfacts : ∀ {c}, c ∈ kb.uncertain → c ∈ kb.facts.clauses := fun hc => (KnowledgeBase.mem_uncertain.1 hc).1
  have hinj : Set.InjOn name kb.uncertain := fun c hc d hd e => hname.inj (hfacts hc) (hfacts hd) e
  -- the ids of the proofs and the names of the facts each have all that matters
  have hids : ∀ A, set.TrueIn proofs A ↔ set.TrueIn proofs (A ∩ set.ids) := fun A =>
    trueIn_congr h.recorded hocc fun l hl _ _ => by
      rw [Finset.mem_inter, and_iff_left (mem_ids hl)]
  have hnames : ∀ A, set.TrueIn proofs A ↔ set.TrueIn proofs (A ∩ kb.uncertain.image name) := fun A =>
    trueIn_congr h.recorded hocc fun l hl hn hcert => by
      rw [Finset.mem_inter, and_iff_left]
      refine Finset.mem_image.2 ((h.stated l hl hn).resolve_left fun hone => ?_)
      rw [hone] at hcert
      cases hcert
  have hweight : ∀ c ∈ kb.uncertain, idWeight (name c) = c.head.weight := by
    intro c hc
    obtain ⟨l, -, -, hw, e⟩ := hname.literal c (hfacts hc)
    rw [e, idWeight_id, hw]
  rw [chance, mass_eq_of_inter hids hnames, mass_image hinj, mass_congr_weight hweight]
  refine mass_congr (fun B hB => ?_)
  have hneg : ∀ id, decide (tr B id) = true ↔ tr B id := fun _ => decide_eq_true_iff
  have hvalues : set.Values (fun id => decide (id ∈ B.image name)) (fun id => decide (tr B id)) := by
    intro id base hb
    rw [Bool.eq_not, Ne, Bool.eq_iff_iff, h.holds_iff hB hneg fun p hp l hl => .inr ⟨id, base, hb, p, hp, hl⟩, hneg,
      h.negation B hB id base hb]
    exact not_iff_self
  rw [hc.trueIn_iff_holds hvalues, h.holds_iff hB hneg hocc]

end Pictures
end ProofSet
end Credence
