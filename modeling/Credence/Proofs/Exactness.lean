import Credence.Proofs.Probability
import Credence.Proofs.Steadiness
/-!
# Estimates of programs with negations

In a steady run every decision stands, so the proofs of a query picture the worlds of the program, layer upon layer: a
negation that was given up fails in every world, for what is left to it rounds to nothing only if it is nothing.
-/
namespace Credence

open Prover (isRuleWeight Closed Met AnyMet)

/-- The rounding tells what is left from nothing: no complement of the odds of a literal rounds to zero but zero. -/
def KnowledgeBase.Discerns (kb : KnowledgeBase ℚ) (digits : Nat) : Prop :=
  ∀ m : Literal ℚ, m.isPlain = true → m.isNegated = false → m.isSemiGrounded = true →
    Weight.isZero (Weight.round digits (1 - kb.odds m)) = true → kb.odds m = 1

/-- It does so where no world is too light. -/
theorem KnowledgeBase.discerns_of_le {kb : KnowledgeBase ℚ} {digits : Nat}
    (hw : ∀ c ∈ kb.uncertain, 0 < c.head.weight ∧ c.head.weight < 1)
    (h : ∀ B ⊆ kb.uncertain, 1 / 2 ≤ 10 ^ digits * choiceWeight kb.uncertain (fun c => c.head.weight) B) :
    kb.Discerns digits := by
  intro m _ _ _ hzero
  refine (mass_eq_one_iff hw).2 (fun B hB => by_contra fun hno => ?_)
  have hle : choiceWeight kb.uncertain (fun c => c.head.weight) B ≤ 1 - kb.odds m := by
    rw [odds, ← mass_not]
    exact choiceWeight_le_mass hw hB hno
  have hpos : (0 : ℚ) ≤ 10 ^ digits := by positivity
  rw [Rational.isZero_round_of_le ((h B hB).trans (mul_le_mul_of_nonneg_left hle hpos))] at hzero
  cases hzero

namespace Run
namespace Concluded

variable {q : Query ℚ} {V : Vocabulary ℚ} {r : Run ℚ} {layer : Predicate → Nat} {n : Nat} {i j : Nat} {g b : Subgoal ℚ}
  {m base : Literal ℚ} {targets : List (Literal ℚ)} {prune : Bool}

/-- **The estimate from proofs** is the weight of the worlds in which one of them is met. -/
theorem probability_eq_mass (h : r.Concluded q V layer) (hr : RightUpTo q layer r n)
    (ht : ∀ t ∈ targets, Comes V layer r n t) (hu : ∀ t ∈ targets, (m.unify t).isSome = true) (settings : Settings) :
    (Estimator.mk ((r.prover prune).proofSet targets) settings).probability m none =
      mass q.kb.uncertain (fun c => c.head.weight)
        (fun B => ∃ t ∈ targets, AnyMet (truth q layer r B) ((r.prover prune).expand t)) := by
  let e : Estimator ℚ := ⟨(r.prover prune).proofSet targets, settings⟩
  have hpictures : e.set.Pictures q.kb r.name (truth q layer r) := h.pictures hr ht
  have hunify : ∀ p ∈ e.set.proofs, (m.unify p.head).isSome = true := fun p hp => hu _ (Prover.of_mem_proofsOf hp).1
  have hmeans : (e.compile m).Means e.set e.set.proofs := by
    have hall : e.proofsFor m = e.set.proofs := by
      rw [e.proofsFor_eq]
      exact List.filter_eq_self.2 hunify
    exact hall ▸ Estimator.compile_means hpictures.acyclic
  have hchance := hpictures.chance_eq h.names hmeans (fun p hp x hx => .inl ⟨p, hp, hx⟩)
  refine (Estimator.probability_eq_chance hpictures.acyclic hunify).trans (hchance.trans ?_)
  exact mass_congr (fun B _ => h.met_iff ht _)

/-- **The estimate of a goal** is its odds. -/
theorem probability_eq (h : r.Concluded q V layer) (hr : RightUpTo q layer r n) (hi : r.table.goal? i = some g)
    (hn : g.literal.isNegated = false) (hw : isRuleWeight g.literal = false) (hle : layer g.literal.predicate ≤ n)
    (hm : m.isWellFormed = true) (hcov : ∀ a, g.literal.Covers a → m.Covers a) (settings : Settings) :
    (Estimator.mk ((r.prover prune).proofSet (g.facts.map Clause.head)) settings).probability m none =
      q.kb.odds g.literal := by
  have hhead : ∀ t ∈ g.facts.map Clause.head, Comes V layer r n t ∧ (m.unify t).isSome = true := by
    intro t ht
    obtain ⟨f, hf, rfl⟩ := List.mem_map.1 ht
    exact ⟨h.comes_fact hi hw ((depth_of_positive layer hn).trans_le hle) hf, h.valid.unify_fact hi hn hf hm hcov⟩
  rw [h.probability_eq_mass hr (fun t ht => (hhead t ht).1) (fun t ht => (hhead t ht).2), KnowledgeBase.odds]
  refine mass_congr (fun B hB => ?_)
  rw [← h.anyMet_iff hr hB hi hn hw hle prune]
  simp only [List.mem_map, exists_exists_and_eq_and]

/-! ## Layer upon layer -/

/-- What is left to a negation is what the odds of its base leave. -/
theorem complement_eq (h : r.Concluded q V layer) (hr : RightUpTo q layer r n) (hop : r.Opposes i j g b)
    (hneg : g.literal.negate = .ok base) (hle : layer b.literal.predicate ≤ n) :
    r.complement q base b = 1 - q.kb.odds base ∧ q.kb.odds b.literal = q.kb.odds base ∧
      base.isPlain = true ∧ base.isNegated = false ∧ base.isSemiGrounded = true := by
  obtain ⟨hwf, hplain, hpos, hsg, hcov⟩ := hop.base_spec h.valid hneg
  have hodds : q.kb.odds b.literal = q.kb.odds base := KnowledgeBase.odds_congr hcov
  refine ⟨?_, hodds, hplain, hpos, hsg⟩
  rw [← hodds]
  exact congrArg (1 - ·) (h.probability_eq hr hop.base (hop.predicate h.valid).2 (h.not_isRuleWeight_base hop) hle hwf
    (fun a => (hcov a).1) _)

/-- **A negation that was given up fails in every world.** -/
theorem odds_eq_one (h : r.Concluded q V layer) (hr : RightUpTo q layer r n)
    (hdigits : q.kb.Discerns q.settings.negationDigits) (hop : r.Opposes i j g b) (hneg : g.literal.negate = .ok base)
    (hle : layer b.literal.predicate ≤ n) (hfacts : g.facts = []) : q.kb.odds b.literal = 1 := by
  obtain ⟨hcomp, hodds, hplain, hpos, hsg⟩ := h.complement_eq hr hop hneg hle
  have hdrop := (h.steady i j g b base hop hneg).dropped hfacts
  rw [IsDropped, hcomp] at hdrop
  rw [hodds]
  exact hdigits base hplain hpos hsg hdrop

/-- **A steady run is right in every world**, by induction on the layers. -/
theorem right (h : r.Concluded q V layer) (hdigits : q.kb.Discerns q.settings.negationDigits) :
    ∀ n, RightUpTo q layer r n := by
  intro n
  induction n with
  | zero =>
    intro B _ i g _ hn hle
    rw [depth_of_negated hn] at hle
    omega
  | succ n ih =>
    intro B hB i g hi hn hle ν
    obtain ⟨_, j, _, b, base, outcome, -, -, -, -, hop, -, hneg, -, hfacts⟩ := h.agenda.exists_decision hi hn
    have hlow : layer b.literal.predicate ≤ n := by
      rw [hop.depth_eq h.valid] at hle
      omega
    have hperfect : Unless ((q.kb.world B).perfect layer) g.literal.predicate (g.literal.values ν) ↔
        ¬ q.kb.PerfectIn b.literal B := by
      rw [hop.unless_iff h.valid, KnowledgeBase.perfectIn_iff h.layered, not_exists]
      simp only [not_and]
    rw [hperfect]
    cases outcome with
    | none =>
      have hone := h.odds_eq_one ih hdigits hop hneg hlow hfacts
      refine iff_of_false ?_ (not_not.2 ?_)
      · rintro ⟨f, hf, -⟩
        rw [hfacts] at hf
        cases hf
      · exact (mass_eq_one_iff (fun _ hc => h.query.kb.weight_lt hc)).1 hone B hB
    | some f =>
      have hf : f ∈ g.facts := by
        rw [hfacts]
        exact List.mem_singleton.2 rfl
      have hstands := h.steady i j g b base hop hneg
      have hres := (h.valid.resolved hi hf)
      have hweigh : isRuleWeight f.head = false := by
        rw [isRuleWeight, Literal.isNegated, hres.2, show g.literal.predicate.isNegated = true from hn]
        rfl
      rw [← h.truth_negation ih hB hop hstands hf hlow, truth,
        h.valid.trueAt_name h.query.kb h.once (facts_of_subset hB) hres.1 hweigh, hfacts]
      simp only [Option.toList_some, List.mem_singleton, exists_eq_left]
      rfl

/-- **The estimate of a negation** is what the odds of its base leave. -/
theorem probability_negated (h : r.Concluded q V layer) (hdigits : q.kb.Discerns q.settings.negationDigits)
    (hop : r.Opposes i j g b) (hneg : g.literal.negate = .ok base)
    (hm : ∀ f ∈ g.facts, (m.unify f.head).isSome = true) (settings : Settings) :
    (Estimator.mk ((r.prover prune).proofSet (g.facts.map Clause.head)) settings).probability m none =
      1 - q.kb.odds base := by
  have hright := h.right hdigits (depth layer g.literal.predicate)
  have hlow : layer b.literal.predicate ≤ depth layer g.literal.predicate := by
    rw [hop.depth_eq h.valid]
    exact Nat.le_succ _
  have hweigh : isRuleWeight g.literal = false := by
    rw [isRuleWeight, hop.negated]
    rfl
  have hcomes : ∀ t ∈ g.facts.map Clause.head,
      Comes V layer r (depth layer g.literal.predicate) t ∧ (m.unify t).isSome = true := by
    intro t ht
    obtain ⟨f, hf, rfl⟩ := List.mem_map.1 ht
    exact ⟨h.comes_fact hop.goal hweigh (Nat.le_refl _) hf, hm f hf⟩
  rw [h.probability_eq_mass hright (fun t ht => (hcomes t ht).1) (fun t ht => (hcomes t ht).2),
    ← (h.complement_eq hright hop hneg hlow).2.1]
  obtain ⟨_, _, _, _, _, outcome, -, -, -, -, -, -, -, -, hfacts⟩ := h.agenda.exists_decision hop.goal hop.negated
  cases outcome with
  | none =>
    rw [h.odds_eq_one hright hdigits hop hneg hlow hfacts, sub_self]
    refine (mass_congr (fun B _ => iff_of_false ?_ id)).trans mass_false
    rintro ⟨t, ht, -⟩
    rw [hfacts] at ht
    cases ht
  | some f =>
    have hf : f ∈ g.facts := by
      rw [hfacts]
      exact List.mem_singleton.2 rfl
    obtain ⟨hres, hp⟩ := h.valid.resolved hop.goal hf
    have hfn : f.head.isNegated = true := by
      rw [Literal.isNegated, hp]
      exact hop.negated
    have hexpand := Prover.expand_of_none (h.valid.none_of_isNegated h.query.kb hres.literal.isPlain hfn prune)
    rw [KnowledgeBase.odds, ← mass_not]
    refine mass_congr (fun B hB => ?_)
    rw [← h.truth_negation hright hB hop (h.steady i j g b base hop hneg) hf hlow, hfacts]
    simp only [Option.toList_some, List.map_cons, List.map_nil, List.mem_singleton, exists_eq_left, hexpand,
      Prover.anyMet_singleton, Met, forall_eq]

end Concluded
end Run

namespace Solver

variable {s : Solver ℚ} {l : Literal ℚ}

/-- **Estimates are exact in steady runs.**  Over a knowledge base that was built from plain clauses and texts, without
primitives and wildcards in the heads of rules, where no predicate rests on itself through a negation and every rule weight
is drawn once, a solver with patience enough finds the proofs of a query.  If all decisions of its run stand in the end,
and rounding tells what is left to a negation from nothing, then what is estimated from the proofs, with every setting, is
the weight of the worlds with an instance of the query in their perfect models; for a negation it is the rest. -/
theorem probability_stratified (hb : s.kb.Built) (hprim : ∀ c ∈ s.kb.rules.clauses, ∀ m ∈ c.body, m.isPrimitive = false)
    (hwild : ∀ c ∈ s.kb.rules.clauses, ∀ t ∈ c.head.terms, t.isWildcard = false) (hstrat : Stratified s.kb.rules.clauses)
    (hone : s.kb.DrawsOnce) (hdigits : s.kb.Discerns s.settings.negationDigits) (hcap : s.storeCapacity = none)
    (hl : l.isPlain = true) (hlp : l.isPrimitive = false) (hsg : l.isNegated = true → l.isSemiGrounded = true)
    (hw : isRuleWeight l = false) (hneg : ∀ m ∈ s.kb.literals l, m.isNegated = true →
      Text.startsWith KnowledgeBase.weightMark m.predicate.base = false) :
    ∃ steps set r, (∀ patience, steps ≤ patience → ({ s with patience := patience } : Solver ℚ).proofs l =
        (.ok set, { s with patience := patience, run := r })) ∧
      (r.Steady s.query →
        (l.isNegated = false → ∀ settings, (Estimator.mk set settings).probability l none = s.kb.odds l) ∧
        (l.isNegated = true → ∃ base, l.negate = .ok base ∧
          ∀ settings, (Estimator.mk set settings).probability l none = 1 - s.kb.odds base)) := by
  obtain ⟨V, hreg, ⟨n, hlit⟩, hwords⟩ := hb.kept.exists_regular hprim hwild hl hlp
  obtain ⟨layer, hlayer⟩ := stratified_iff.1 hstrat
  have hq : s.query.Regular V := ⟨hreg, hcap, rfl⟩
  obtain ⟨steps, r, hgrow, hagenda, hstart⟩ := settles hreg hcap hlit hsg
  obtain ⟨g, hi, hgl⟩ := exists_root hgrow
  refine ⟨steps, (r.prover s.settings.pruneCertain).proofSet ((r.table.facts 0).map Clause.head), r, fun patience hp => ?_,
    fun hsteady => ?_⟩
  · simp only [proofs, hstart patience hp]
    rfl
  have hconcluded : r.Concluded s.query V layer := by
    refine ⟨hagenda, hq, hlayer, hone, fun p hp hn => ?_, ?_, hsteady⟩
    · obtain ⟨m, hm, rfl | rfl⟩ := hwords p hp
      · exact hneg m hm hn
      · -- the name of a plain literal is not negated again
        have hplain := Literal.isPlain.predicate (hb.kept.plain_literals hprim hl hlp m hm).1
        have hno : Text.startsWith Predicate.negationMark m.predicate.base = false := Predicate.isName.not_negated hplain
        rw [Predicate.isNegated, Predicate.positive, hno] at hn
        cases hn
    · exact entered_of_start (s := { s with patience := steps }) hreg hcap hlit hsg (hstart steps (Nat.le_refl _))
  rw [Table.facts, hi]
  refine ⟨fun hn settings => ?_, fun hn => ?_⟩
  · have hgn : g.literal.isNegated = false := by
      rw [hgl]
      exact hn
    have hgw : isRuleWeight g.literal = false := by
      rw [hgl]
      exact hw
    have hcov : ∀ a : Atom, g.literal.Covers a ↔ l.Covers a := fun a => by rw [hgl]; exact asked_covers_iff a
    refine (hconcluded.probability_eq (hconcluded.right hdigits _) hi hgn hgw (Nat.le_refl _) hlit.wellFormed
      (fun a => (hcov a).1) settings).trans ?_
    exact KnowledgeBase.odds_congr hcov
  · have hgn : g.literal.isNegated = true := by
      rw [hgl]
      exact hn
    obtain ⟨_, j, _, b, asked, _, -, -, -, -, hop, -, hasked, -, -⟩ := hagenda.exists_decision hi hgn
    have hglit := (hagenda.valid.goal 0 g hi).literal
    obtain ⟨base, hbase, -⟩ := hlit.negate hn
    refine ⟨base, hbase, fun settings => ?_⟩
    have hcov := covers_base hn (hsg hn) hlit (hgl ▸ hglit) hbase (hgl ▸ hasked)
    rw [← KnowledgeBase.odds_congr hcov]
    refine hconcluded.probability_negated hdigits hop hasked (fun f hf => ?_) settings
    obtain ⟨hp, ht⟩ := ((hagenda.valid.goal 0 g hi).fact f hf).negative hgn
    exact unify_asked (hsg hn) (hgl ▸ hp) (hgl ▸ ht)

end Solver

/-! ## Rain and no roof

It may rain, and whoever has no roof may get wet then. -/

namespace Rainfall

def rain : Atom := ⟨⟨"rain", 0⟩, []⟩

def roof : Atom := ⟨⟨"roof", 0⟩, []⟩

def wet : Atom := ⟨⟨"wet", 0⟩, []⟩

/-- What the rule draws. -/
def coin : Atom := ⟨⟨"proba_0", 1⟩, [⟨"true"⟩]⟩

def roofless : Literal ℚ := ⟨1, ⟨"~roof", 0⟩, []⟩

def shower : Clause ℚ := .fact (rain.literal (1 / 2))

def shelter : Clause ℚ := .fact (roof.literal (1 / 2))

def rule : Clause ℚ := ⟨wet.literal (1 / 2), [rain.literal 1, roofless]⟩

/-- The weight of the rule, as a fact. -/
def draw : Clause ℚ := .fact (coin.literal (1 / 2))

/-- The rule that is kept. -/
def kept : Clause ℚ := ⟨wet.literal 1, [rain.literal 1, roofless, coin.literal 1]⟩

/-- The rain alone. -/
def rains : KnowledgeBase ℚ :=
  { KnowledgeBase.empty .empty with
    seen := (∅ : Std.HashSet (Nat × String)).insert shower.key
    facts := Shelf.empty.push shower }

/-- The rain and the roof. -/
def stated : KnowledgeBase ℚ :=
  { rains with
    seen := rains.seen.insert shelter.key
    facts := rains.facts.push shelter }

def kb : KnowledgeBase ℚ := (stated.keepRule rule).2

theorem storeFact_shower : (KnowledgeBase.empty .empty).storeFact shower = (true, rains) := by
  simp only [KnowledgeBase.storeFact, KnowledgeBase.empty, Std.HashSet.contains_empty, Bool.false_eq_true, if_false, rains]

theorem storeFact_shelter : rains.storeFact shelter = (true, stated) := by
  have hunseen : rains.seen.contains shelter.key = false := by
    rw [rains, Std.HashSet.contains_insert, Std.HashSet.contains_empty, Bool.or_false, beq_eq_false_iff_ne]
    decide +kernel
  simp only [KnowledgeBase.storeFact, hunseen, Bool.false_eq_true, if_false, stated]

/-- No fact has the key of the rule. -/
theorem unseen_rule : stated.seen.contains rule.key = false := by
  rw [stated, rains, Std.HashSet.contains_insert, Std.HashSet.contains_insert, Std.HashSet.contains_empty, Bool.or_false,
    Bool.or_eq_false_iff, beq_eq_false_iff_ne, beq_eq_false_iff_ne]
  constructor
  · intro e
    cases congrArg Prod.fst e
  · intro e
    cases congrArg Prod.fst e

theorem unseen_draw : (stated.seen.insert rule.key).contains draw.key = false := by
  rw [stated, rains, Std.HashSet.contains_insert, Std.HashSet.contains_insert, Std.HashSet.contains_insert,
    Std.HashSet.contains_empty, Bool.or_false, Bool.or_eq_false_iff, Bool.or_eq_false_iff, beq_eq_false_iff_ne,
    beq_eq_false_iff_ne, beq_eq_false_iff_ne]
  refine ⟨fun e => ?_, by decide +kernel, by decide +kernel⟩
  cases congrArg Prod.fst e

theorem kb_eq : kb.facts = ((Shelf.empty.push shower).push shelter).push draw ∧ kb.rules = Shelf.empty.push kept := by
  have hcert : rule.head.isCertain = false := by decide +kernel
  have hfact : Clause.fact (({ stated with seen := stated.seen.insert rule.key } : KnowledgeBase ℚ).weightLiteral
    rule.head.weight) = draw := rfl
  have hcond : ({ stated with seen := stated.seen.insert rule.key } : KnowledgeBase ℚ).weightLiteral 1 = coin.literal 1 := rfl
  simp only [kb, KnowledgeBase.keepRule, unseen_rule, hcert, KnowledgeBase.storeFact, Bool.false_eq_true, if_false]
  rw [hfact, hcond, unseen_draw]
  exact ⟨rfl, rfl⟩

theorem mem_facts {c : Clause ℚ} : c ∈ kb.facts.clauses ↔ c = draw ∨ c = shelter ∨ c = shower := by
  rw [kb_eq.1, Shelf.mem_push, Shelf.mem_push, Shelf.mem_push]
  exact or_congr_right (or_congr_right (or_iff_left (fun h => by cases h)))

theorem mem_rules {c : Clause ℚ} : c ∈ kb.rules.clauses ↔ c = kept := by
  rw [kb_eq.2, Shelf.mem_push]
  exact or_iff_left (fun h => by cases h)

theorem built : kb.Built := by
  have hproper : Weight.isProper (1 / 2 : ℚ) = true := decide_eq_true (by norm_num)
  have hrain : (KnowledgeBase.empty .empty).tell shower = .ok (true, rains) :=
    KnowledgeBase.tell_eq_ok_iff.2 (.inr ⟨rfl, ⟨rfl, hproper, fun _ hl => by cases hl⟩,
      .inl ⟨rfl, rfl, storeFact_shower.symm⟩⟩)
  have hroof : rains.tell shelter = .ok (true, stated) :=
    KnowledgeBase.tell_eq_ok_iff.2 (.inr ⟨rfl, ⟨rfl, hproper, fun _ hl => by cases hl⟩,
      .inl ⟨rfl, rfl, storeFact_shelter.symm⟩⟩)
  have hrule : stated.tell rule = .ok (true, kb) := by
    refine KnowledgeBase.tell_eq_ok_iff.2 (.inr ⟨rfl, ⟨rfl, hproper, fun l hl => ?_⟩,
      .inr ⟨List.cons_ne_nil _ _, rfl, rule, rfl, Prod.ext ?_ rfl⟩⟩)
    · have hbody : ∀ l ∈ rule.body, l.isCertain = true := by decide
      exact hbody l hl
    · have hcert : rule.head.isCertain = false := by decide +kernel
      simp only [KnowledgeBase.keepRule, unseen_rule, hcert, Bool.false_eq_true, if_false]
  exact .tell (.tell (.tell (.empty .empty) rfl hrain) rfl hroof) rfl hrule

theorem stratified : Stratified kb.rules.clauses := by
  refine stratified_iff.2 ⟨fun p => if p = ⟨"wet", 0⟩ then 1 else 0, fun c hc => ?_⟩
  rw [mem_rules.1 hc]
  decide

/-- Every fact has the same weight. -/
theorem states_half {a : Atom} {w : ℚ} (h : kb.States a w) : (a = coin ∨ a = roof ∨ a = rain) ∧ w = 1 / 2 := by
  rcases mem_facts.1 h with e | e | e
  · obtain ⟨ha, hw⟩ := Atom.literal_inj (congrArg Clause.head e)
    exact ⟨.inl ha, hw⟩
  · obtain ⟨ha, hw⟩ := Atom.literal_inj (congrArg Clause.head e)
    exact ⟨.inr (.inl ha), hw⟩
  · obtain ⟨ha, hw⟩ := Atom.literal_inj (congrArg Clause.head e)
    exact ⟨.inr (.inr ha), hw⟩

theorem uncertain : kb.uncertain = {draw, shelter, shower} := by
  have hcert : ∀ c ∈ [draw, shelter, shower], c.head.isCertain = false := by decide +kernel
  ext c
  rw [KnowledgeBase.mem_uncertain, mem_facts, Finset.mem_insert, Finset.mem_insert, Finset.mem_singleton]
  refine and_iff_left_of_imp (fun h => hcert c ?_)
  rcases h with rfl | rfl | rfl
  · exact .head _
  · exact .tail _ (.head _)
  · exact .tail _ (.tail _ (.head _))

theorem drawsOnce : kb.DrawsOnce := by
  refine ⟨fun c hc hw => ?_, fun c hc => ?_, fun c hc d hd _ _ _ _ _ _ => ?_, fun c hc l hl hw => ?_,
    fun a v w hv hw => ?_, fun a w ha c hc => ?_⟩
  · rcases mem_facts.1 hc with rfl | rfl | rfl
    · rfl
    · cases hw
    · cases hw
  · rw [mem_rules.1 hc]
    decide
  · rw [mem_rules.1 hc, mem_rules.1 hd]
  · rw [mem_rules.1 hc]
    decide
  · rw [(states_half hv).2, (states_half hw).2]
  · rw [mem_rules.1 hc]
    rcases (states_half ha).1 with rfl | rfl | rfl
    · decide
    · decide
    · decide

/-! ### Worlds -/

variable {B : Finset (Clause ℚ)} {M : Atom → Prop} {a : Atom}

/-- What is no head holds where it is stated. -/
theorem holds_iff (hB : B ⊆ kb.uncertain) (ha : a.predicate ≠ wet.predicate) :
    ((kb.world B).against M).Holds a ↔ .fact (a.literal (1 / 2)) ∈ B := by
  constructor
  · intro h
    cases h with
    | fact h =>
      rcases h with h | ⟨w, h⟩
      · have := (states_half h).2
        norm_num at this
      · have hw : kb.States a w := (KnowledgeBase.mem_uncertain.1 (hB h)).1
        rw [(states_half hw).2] at h
        exact h
    | @rule c ν pick _ hi _ =>
      rw [mem_rules.1 hi.rule] at hi
      exact absurd hi.head.1.symm ha
  · exact fun h => .fact (.inr ⟨_, h⟩)

/-- One gets wet where it rains, the rule is drawn and there is no roof. -/
theorem holds_wet (hB : B ⊆ kb.uncertain) : ((kb.world B).against M).Holds wet ↔ draw ∈ B ∧ shower ∈ B ∧ ¬ M roof := by
  constructor
  · intro h
    cases h with
    | fact h =>
      have hstated : ∃ w, kb.States wet w := by
        rcases h with h | ⟨w, h⟩
        · exact ⟨1, h⟩
        · exact ⟨w, (KnowledgeBase.mem_uncertain.1 (hB h)).1⟩
      obtain ⟨w, hw⟩ := hstated
      exact absurd (states_half hw).1 (by decide)
    | @rule c ν pick _ hi hbody =>
      obtain rfl : c = kept := mem_rules.1 hi.rule
      have hpick : ∀ b : Atom, b.literal 1 ∈ kept.body → (b.literal (1 : ℚ)).isNegated = false →
          ((kb.world B).against M).Holds b := by
        intro b hb hn
        rw [Atom.eq_of_admits (hi.body _ hb hn)]
        exact hbody _ hb hn
      refine ⟨(holds_iff hB (by decide)).1 (hpick coin (.tail _ (.tail _ (.head _))) rfl),
        (holds_iff hB (by decide)).1 (hpick rain (.head _) rfl), ?_⟩
      exact hi.denied roofless (.tail _ (.head _)) rfl roof (by decide) .nil
  · rintro ⟨hdraw, hshower, hroof⟩
    let pick : Literal ℚ → Atom := fun l => if l.predicate = rain.predicate then rain else coin
    have hbody : ∀ l ∈ kept.body, l = rain.literal 1 ∨ l = roofless ∨ l = coin.literal 1 := fun l hl => by
      simpa [kept] using hl
    have hwet : ((kb.world B).against M).Instance kept (fun _ => ⟨""⟩) pick wet := by
      refine ⟨mem_rules.2 rfl, Literal.admits_atom _ _ _, fun l hl hn => ?_, fun l hl hn => ?_⟩
      · rcases hbody l hl with rfl | rfl | rfl
        · exact Literal.admits_atom _ _ _
        · cases hn
        · exact Literal.admits_atom _ _ _
      · rcases hbody l hl with rfl | rfl | rfl
        · cases hn
        · rintro ⟨p, args⟩ hp hargs
          obtain rfl : args = [] := by cases hargs; rfl
          obtain rfl : p = roof.predicate := hp.trans (by decide)
          exact hroof
        · cases hn
    have hpick : ∀ l, ((kb.world B).against M).Holds (pick l) := by
      intro l
      simp only [pick]
      split
      · exact (holds_iff hB (by decide)).2 hshower
      · exact (holds_iff hB (by decide)).2 hdraw
    exact .rule hwet fun l _ _ => hpick l

theorem perfectIn_iff (hB : B ⊆ kb.uncertain) :
    kb.PerfectIn (wet.literal 1) B ↔ draw ∈ B ∧ shower ∈ B ∧ shelter ∉ B := by
  have hiff : ∀ {M}, (kb.world B).IsStable M → (M wet ↔ draw ∈ B ∧ shower ∈ B ∧ shelter ∉ B) := by
    intro M hM
    have hroof : M roof ↔ shelter ∈ B := (hM roof).trans (holds_iff hB (by decide))
    rw [hM wet, holds_wet hB, hroof]
  constructor
  · rintro ⟨M, hM, a, ⟨ν, hν⟩, ha⟩
    rw [← Atom.eq_of_admits hν] at ha
    exact (hiff hM).1 ha
  · intro h
    obtain ⟨layer, hlayer⟩ := stratified_iff.1 stratified
    have hT : (kb.world B).Layered layer := hlayer
    obtain ⟨M, hM, -⟩ := hT.exists_unique_stable
    exact ⟨M, hM, wet, ⟨fun _ => ⟨""⟩, Literal.admits_atom _ _ _⟩, (hiff hM).2 h⟩

theorem facts_ne : draw ≠ shelter ∧ draw ≠ shower ∧ shelter ≠ shower := by
  have hne : ∀ {c d : Clause ℚ}, c.head.predicate ≠ d.head.predicate → c ≠ d := fun h e => h (e ▸ rfl)
  exact ⟨hne (by decide), hne (by decide), hne (by decide)⟩

theorem odds_wet : kb.odds (wet.literal 1) = 1 / 8 := by
  have hodds : kb.odds (wet.literal 1) =
      mass kb.uncertain (fun c => c.head.weight) (fun B => draw ∈ B ∧ shower ∈ B ∧ shelter ∉ B) :=
    mass_congr (fun B hB => perfectIn_iff hB)
  obtain ⟨h1, h2, h3⟩ := facts_ne
  have hdraw : draw.head.weight = 1 / 2 := rfl
  have hshelter : shelter.head.weight = 1 / 2 := rfl
  have hshower : shower.head.weight = 1 / 2 := rfl
  rw [hodds, uncertain, mass_insert (by simp [h1, h2]), mass_insert (by simp [h3]), mass_insert (by simp [h3]),
    ← insert_empty_eq]
  simp only [mass_insert (Finset.notMem_empty _)]
  simp [h1, h2, h3, h1.symm, h2.symm, h3.symm, hdraw, hshelter, hshower]
  norm_num

/-- Each of the eight worlds has the same weight. -/
theorem discerns : kb.Discerns Settings.default.negationDigits := by
  have hweight : ∀ c ∈ kb.uncertain, c.head.weight = 1 / 2 := by
    intro c hc
    rw [uncertain, Finset.mem_insert, Finset.mem_insert, Finset.mem_singleton] at hc
    rcases hc with rfl | rfl | rfl
    · rfl
    · rfl
    · rfl
  obtain ⟨h1, h2, h3⟩ := facts_ne
  refine KnowledgeBase.discerns_of_le (fun c hc => ?_) (fun B hB => ?_)
  · rw [hweight c hc]
    norm_num
  · have hcard : B.card + (kb.uncertain \ B).card = 3 := by
      rw [Finset.card_sdiff_of_subset hB, Nat.add_sub_cancel' (Finset.card_le_card hB), uncertain]
      exact Finset.card_eq_three.2 ⟨_, _, _, h1, h2, h3, rfl⟩
    have hB' : ∏ c ∈ B, c.head.weight = (1 / 2) ^ B.card := Finset.prod_eq_pow_card (fun c hc => hweight c (hB hc))
    have hrest : ∏ c ∈ kb.uncertain \ B, (1 - c.head.weight) = (1 / 2) ^ (kb.uncertain \ B).card := by
      refine Finset.prod_eq_pow_card (fun c hc => ?_)
      rw [hweight c (Finset.mem_sdiff.1 hc).1]
      norm_num
    rw [choiceWeight, hB', hrest, ← pow_add, hcard, show Settings.default.negationDigits = 6 from rfl]
    norm_num

/-! ### Its run -/

theorem mem_literals {l : Literal ℚ} (hl : l ∈ kb.literals (wet.literal 1)) :
    l ∈ [wet.literal 1, draw.head, shelter.head, shower.head, rain.literal 1, roofless, coin.literal 1] := by
  rcases List.mem_cons.1 hl with rfl | hl
  · exact .head _
  rcases List.mem_append.1 hl with hl | hl
  · obtain ⟨c, hc, rfl⟩ := List.mem_map.1 hl
    rcases mem_facts.1 hc with rfl | rfl | rfl
    · exact .tail _ (.head _)
    · exact .tail _ (.tail _ (.head _))
    · exact .tail _ (.tail _ (.tail _ (.head _)))
  · obtain ⟨c, hc, hl⟩ := List.mem_flatMap.1 hl
    rw [mem_rules.1 hc] at hl
    rcases List.mem_cons.1 hl with rfl | hl
    · exact .head _
    · exact .tail _ (.tail _ (.tail _ (.tail _ hl)))

/-- Nothing but the roof is negated. -/
theorem negated_word {p : Predicate} (hn : p.isNegated = true)
    (h : ∃ l ∈ kb.literals (wet.literal 1), p = l.predicate ∨ p = l.predicate.positive) : p = roofless.predicate := by
  obtain ⟨l, hl, hp⟩ := h
  have hall : ∀ l ∈ [wet.literal 1, draw.head, shelter.head, shower.head, rain.literal 1, roofless, coin.literal 1],
      (l.predicate.isNegated = true → l.predicate = roofless.predicate) ∧ l.predicate.positive.isNegated = false := by
    decide
  rcases hp with rfl | rfl
  · exact (hall l (mem_literals hl)).1 hn
  · rw [(hall l (mem_literals hl)).2] at hn
    cases hn

/-- The roof is only stated. -/
theorem onlyStates_roof (hfacts : kb.facts.Sorted) : kb.OnlyStates roof.predicate := by
  have hshelter : ∀ {l : Literal ℚ} {c : Clause ℚ}, l.predicate = roof.predicate → c ∈ kb.factsFor l → c = shelter := by
    intro l c hl hc
    obtain ⟨hmem, hp⟩ := hfacts.mem_get_iff.1 (List.mem_filter.1 hc).1
    rw [hl] at hp
    rcases mem_facts.1 hmem with rfl | rfl | rfl
    · exact absurd hp (by decide)
    · rfl
    · exact absurd hp (by decide)
  refine ⟨fun c hc => ?_, fun l hl c hc d hd _ _ => (hshelter hl hc).trans (hshelter hl hd).symm⟩
  rw [mem_rules.1 hc]
  decide

end Rainfall

namespace Solver

/-- One gets wet in one world of eight, though a roof is as likely as not. -/
theorem probability_stratified_rainfall : ∃ steps set, (∀ patience, steps ≤ patience →
      (({ Solver.new Rainfall.kb .default with patience := patience } : Solver ℚ).proofs (Rainfall.wet.literal 1)).1 =
        .ok set) ∧ ∀ settings, (Estimator.mk set settings).probability (Rainfall.wet.literal 1) none = 1 / 8 := by
  have hprim : ∀ c ∈ Rainfall.kb.rules.clauses, ∀ m ∈ c.body, m.isPrimitive = false := by
    intro c hc
    rw [Rainfall.mem_rules.1 hc]
    decide
  have hwild : ∀ c ∈ Rainfall.kb.rules.clauses, ∀ t ∈ c.head.terms, t.isWildcard = false := by
    intro c hc
    rw [Rainfall.mem_rules.1 hc]
    decide
  have hneg : ∀ m ∈ Rainfall.kb.literals (Rainfall.wet.literal 1), m.isNegated = true →
      Text.startsWith KnowledgeBase.weightMark m.predicate.base = false := by
    intro m hm hn
    rw [Rainfall.negated_word hn ⟨m, hm, .inl rfl⟩]
    decide
  let s : Solver ℚ := Solver.new Rainfall.kb .default
  obtain ⟨steps, set, r, hrun, hodds⟩ := probability_stratified (s := s) Rainfall.built hprim hwild Rainfall.stratified
    Rainfall.drawsOnce Rainfall.discerns rfl (l := Rainfall.wet.literal 1) rfl rfl (fun h => by cases h) rfl hneg
  obtain ⟨V, hreg, ⟨n, hlit⟩, hwords⟩ :=
    Rainfall.built.kept.exists_regular hprim hwild (q := Rainfall.wet.literal 1) rfl rfl
  obtain ⟨steps', r', -, hagenda, hstart⟩ := settles (s := s) hreg rfl hlit (fun h => by cases h)
  refine ⟨steps, set, fun patience hp => by rw [hrun patience hp], fun settings => ?_⟩
  refine ((hodds ?_).1 rfl settings).trans Rainfall.odds_wet
  -- the run is the same with more patience
  have hsame : r = r' := by
    have h1 := congrArg (fun x => x.2.run) (hrun _ (Nat.le_max_left steps steps'))
    simp only [proofs, hstart _ (Nat.le_max_right steps steps')] at h1
    exact h1.symm
  rw [hsame]
  refine hagenda.steady_of_onlyStates hreg (fun p hp hn => ?_)
  obtain rfl : p = Rainfall.roofless.predicate := Rainfall.negated_word hn (hwords p hp)
  exact Rainfall.onlyStates_roof hreg.facts

end Solver
end Credence
