import Credence.Proofs.Probability
import Credence.Proofs.Rewording
/-!
# What does not depend on names

What follows from a theory follows in other words from the theory in other words (`Theory.Reworded.holds_iff`), and the
worlds of a program in other words are its worlds in other words (`Rewords.world`).  So the answers of a program in other
words are its answers in other words, and as likely (`Solver.answers_reworded`): names mean nothing but what `Rewording`
keeps of them.
-/
namespace Credence

variable {W : Type}

/-! ## Atoms and literals -/

namespace Rewording

variable (ρ : Rewording)

theorem admits_literal_iff {l : Literal W} {ν : Valuation} {b : Atom} :
    (ρ.literal l).Admits ν b ↔ ∃ a, ρ.atom a = b ∧ l.Admits ν a := by
  constructor
  · rintro ⟨hp, hargs⟩
    refine ⟨⟨l.predicate, b.args⟩, ?_, rfl, hargs⟩
    show (⟨(ρ.literal l).predicate, b.args⟩ : Atom) = b
    rw [hp]
  · rintro ⟨a, rfl, hp, hargs⟩
    exact ⟨congrArg ρ.predicate hp, hargs⟩

theorem admits_atom_iff {l : Literal W} {ν : Valuation} {a : Atom} :
    (ρ.literal l).Admits ν (ρ.atom a) ↔ l.Admits ν a := by
  rw [admits_literal_iff]
  refine ⟨?_, fun h => ⟨a, rfl, h⟩⟩
  rintro ⟨a', e, h⟩
  exact ρ.atom_injective e ▸ h

theorem covers_literal_iff {l : Literal W} {b : Atom} : (ρ.literal l).Covers b ↔ ∃ a, ρ.atom a = b ∧ l.Covers a := by
  constructor
  · rintro ⟨ν, h⟩
    obtain ⟨a, e, ha⟩ := ρ.admits_literal_iff.1 h
    exact ⟨a, e, ν, ha⟩
  · rintro ⟨a, e, ν, ha⟩
    exact ⟨ν, ρ.admits_literal_iff.2 ⟨a, e, ha⟩⟩

theorem clause_fact (a : Atom) (w : W) : ρ.clause (.fact (a.literal w)) = .fact ((ρ.atom a).literal w) := rfl

/-- What states an atom in other words is a statement in other words. -/
theorem clause_eq_fact_iff {c : Clause W} {b : Atom} {w : W} :
    ρ.clause c = .fact (b.literal w) ↔ ∃ a, ρ.atom a = b ∧ c = .fact (a.literal w) := by
  constructor
  · intro h
    have hp : ρ.predicate c.head.predicate = b.predicate := congrArg (fun c : Clause W => c.head.predicate) h
    have hatom : ρ.atom ⟨c.head.predicate, b.args⟩ = b := by
      rw [atom, hp]
    refine ⟨_, hatom, ρ.clause_injective ?_⟩
    rw [h, clause_fact, hatom]
  · rintro ⟨a, rfl, rfl⟩
    exact ρ.clause_fact a w

theorem isRuleWeight_literal (l : Literal W) : Prover.isRuleWeight (ρ.literal l) = Prover.isRuleWeight l := by
  have hmark : Text.startsWith KnowledgeBase.weightMark (ρ.name l.name) = Text.startsWith KnowledgeBase.weightMark l.name := by
    rw [Bool.eq_iff_iff]
    refine ⟨fun h => ?_, fun h => by rw [ρ.mark _ h]; exact h⟩
    rw [← ρ.injective (ρ.mark _ h)]
    exact h
  rw [Prover.isRuleWeight, Prover.isRuleWeight, isNegated_literal, ← hmark]
  rfl

end Rewording

/-! ## Theories -/

/-- The theory `T'` says in other words what `T` says, which has no negations. -/
structure Theory.Reworded (ρ : Rewording) (T T' : Theory W) : Prop where
  fact     : ∀ b, T'.fact b ↔ ∃ a, ρ.atom a = b ∧ T.fact a
  rule     : ∀ d, T'.rule d ↔ ∃ c, ρ.clause c = d ∧ T.rule c
  positive : ∀ c, T.rule c → ∀ l ∈ c.body, l.isNegated = false

namespace Theory.Reworded

variable {ρ : Rewording} {T T' : Theory W} (h : Theory.Reworded ρ T T')

include h in
theorem positive_clause {c : Clause W} (hc : T.rule c) : ∀ m ∈ (ρ.clause c).body, m.isNegated = false :=
  List.forall_mem_map.2 (fun l hl => (ρ.isNegated_literal l).trans (h.positive c hc l hl))

include h in
/-- A rule that fires, fires in other words. -/
theorem fires_of_rule {c : Clause W} {ν : Valuation} {a : Atom} (hc : T.rule c) (hh : c.head.Admits ν a)
    (hb : ∀ l ∈ c.body, ∃ x, l.Admits ν x ∧ T'.Holds (ρ.atom x)) : T'.Fires (ρ.atom a) := by
  refine .of_body ((h.rule _).2 ⟨c, rfl, hc⟩) (h.positive_clause hc) (ρ.admits_atom_iff.2 hh)
    (List.forall_mem_map.2 (fun l hl => ?_))
  obtain ⟨x, hx, hold⟩ := hb l hl
  exact ⟨ρ.atom x, ρ.admits_atom_iff.2 hx, hold⟩

include h in
/-- A rule in other words fires when the rule does. -/
theorem exists_of_rule {d : Clause W} {ν : Valuation} {b : Atom} (hd : T'.rule d) (hh : d.head.Admits ν b)
    (hb : ∀ m ∈ d.body, ∃ y, m.Admits ν y ∧ ∃ x, ρ.atom x = y ∧ T.Holds x) : ∃ a, ρ.atom a = b ∧ T.Fires a := by
  obtain ⟨c, rfl, hc⟩ := (h.rule d).1 hd
  obtain ⟨a, rfl, ha⟩ := ρ.admits_literal_iff.1 hh
  refine ⟨a, rfl, .of_body hc (h.positive c hc) ha (fun l hl => ?_)⟩
  obtain ⟨_, hy, x, rfl, hx⟩ := hb _ (List.mem_map_of_mem hl)
  exact ⟨x, ρ.admits_atom_iff.1 hy, hx⟩

include h in
/-- **What holds in other words is what holds.** -/
theorem holds_iff (b : Atom) : T'.Holds b ↔ ∃ a, ρ.atom a = b ∧ T.Holds a := by
  constructor
  · intro hb
    induction hb with
    | fact hf =>
      obtain ⟨a, e, ha⟩ := (h.fact _).1 hf
      exact ⟨a, e, .fact ha⟩
    | @rule d ν pick b hi _ ih =>
      have hpos : ∀ m ∈ d.body, m.isNegated = false := by
        obtain ⟨c, rfl, hc⟩ := (h.rule d).1 hi.rule
        exact h.positive_clause hc
      obtain ⟨a, e, ha⟩ := h.exists_of_rule hi.rule hi.head
        (fun m hm => ⟨pick m, hi.body m hm (hpos m hm), ih m hm (hpos m hm)⟩)
      exact ⟨a, e, ha.holds⟩
  · rintro ⟨a, rfl, ha⟩
    induction ha with
    | fact hf => exact .fact ((h.fact _).2 ⟨_, rfl, hf⟩)
    | @rule c ν pick a hi _ ih =>
      have hpos := h.positive c hi.rule
      exact (h.fires_of_rule hi.rule hi.head
        (fun l hl => ⟨pick l, hi.body l hl (hpos l hl), ih l hl (hpos l hl)⟩)).holds

include h in
theorem fires_iff (b : Atom) : T'.Fires b ↔ ∃ a, ρ.atom a = b ∧ T.Fires a := by
  constructor
  · rintro ⟨d, ν, pick, hi, hd⟩
    have hpos : ∀ m ∈ d.body, m.isNegated = false := by
      obtain ⟨c, rfl, hc⟩ := (h.rule d).1 hi.rule
      exact h.positive_clause hc
    exact h.exists_of_rule hi.rule hi.head
      (fun m hm => ⟨pick m, hi.body m hm (hpos m hm), (h.holds_iff _).1 (hd m hm (hpos m hm))⟩)
  · rintro ⟨a, rfl, c, ν, pick, hi, hb⟩
    have hpos := h.positive c hi.rule
    exact h.fires_of_rule hi.rule hi.head
      (fun l hl => ⟨pick l, hi.body l hl (hpos l hl), (h.holds_iff _).2 ⟨_, rfl, hb l hl (hpos l hl)⟩⟩)

end Theory.Reworded

/-! ## Programs -/

namespace Rewords

variable [Weight W] {ρ : Rewording} {kb kb' : KnowledgeBase W}

theorem mem_facts_iff (h : Rewords ρ kb kb') {d : Clause W} :
    d ∈ kb'.facts.clauses ↔ ∃ c ∈ kb.facts.clauses, ρ.clause c = d := by
  rw [h.facts, ρ.clauses_shelf, List.mem_map]

theorem mem_rules_iff (h : Rewords ρ kb kb') {d : Clause W} :
    d ∈ kb'.rules.clauses ↔ ∃ c ∈ kb.rules.clauses, ρ.clause c = d := by
  rw [h.rules, ρ.clauses_shelf, List.mem_map]

theorem states_iff (h : Rewords ρ kb kb') {b : Atom} {w : W} :
    kb'.States b w ↔ ∃ a, ρ.atom a = b ∧ kb.States a w := by
  rw [KnowledgeBase.States, h.mem_facts_iff]
  constructor
  · rintro ⟨c, hc, e⟩
    obtain ⟨a, ha, rfl⟩ := ρ.clause_eq_fact_iff.1 e
    exact ⟨a, ha, hc⟩
  · rintro ⟨a, rfl, ha⟩
    exact ⟨_, ha, ρ.clause_fact a w⟩

theorem rule_iff (h : Rewords ρ kb kb') (d : Clause W) :
    d ∈ kb'.rules.clauses ↔ ∃ c, ρ.clause c = d ∧ c ∈ kb.rules.clauses :=
  h.mem_rules_iff.trans (exists_congr (fun _ => and_comm))

theorem positiveTheory (h : Rewords ρ kb kb') (hneg : ∀ c ∈ kb.rules.clauses, ∀ l ∈ c.body, l.isNegated = false) :
    Theory.Reworded ρ kb.positiveTheory kb'.positiveTheory := by
  refine ⟨fun b => ?_, h.rule_iff, hneg⟩
  simp only [KnowledgeBase.positiveTheory, KnowledgeBase.theory, h.states_iff]
  constructor
  · rintro ⟨w, a, e, ha⟩
    exact ⟨a, e, w, ha⟩
  · rintro ⟨a, e, w, ha⟩
    exact ⟨w, a, e, ha⟩

end Rewords

namespace Rewords

variable {ρ : Rewording} {kb kb' : KnowledgeBase ℚ}

/-- **A world in other words.** -/
theorem world (h : Rewords ρ kb kb') (hneg : ∀ c ∈ kb.rules.clauses, ∀ l ∈ c.body, l.isNegated = false)
    (B : Finset (Clause ℚ)) : Theory.Reworded ρ (kb.world B) (kb'.world (B.image ρ.clause)) := by
  refine ⟨fun b => ?_, h.rule_iff, hneg⟩
  simp only [KnowledgeBase.world, h.states_iff, Finset.mem_image]
  constructor
  · rintro (⟨a, e, ha⟩ | ⟨w, c, hc, e⟩)
    · exact ⟨a, e, .inl ha⟩
    · obtain ⟨a, ha, rfl⟩ := ρ.clause_eq_fact_iff.1 e
      exact ⟨a, ha, .inr ⟨w, hc⟩⟩
  · rintro ⟨a, rfl, ha | ⟨w, ha⟩⟩
    · exact .inl ⟨a, rfl, ha⟩
    · exact .inr ⟨w, _, ha, ρ.clause_fact a w⟩

theorem uncertain (h : Rewords ρ kb kb') : kb'.uncertain = kb.uncertain.image ρ.clause := by
  ext d
  simp only [Finset.mem_image, KnowledgeBase.mem_uncertain, h.mem_facts_iff]
  constructor
  · rintro ⟨⟨c, hc, rfl⟩, hcert⟩
    exact ⟨c, ⟨hc, hcert⟩, rfl⟩
  · rintro ⟨c, ⟨hc, hcert⟩, rfl⟩
    exact ⟨⟨c, hc, rfl⟩, hcert⟩

/-- **A literal in other words is as likely.** -/
theorem chance (h : Rewords ρ kb kb') (hneg : ∀ c ∈ kb.rules.clauses, ∀ l ∈ c.body, l.isNegated = false) (l : Literal ℚ) :
    kb'.chance (ρ.literal l) = kb.chance l := by
  rw [KnowledgeBase.chance, h.uncertain, mass_image ρ.clause_injective.injOn]
  refine mass_congr (fun B _ => ?_)
  constructor
  · rintro ⟨b, hcov, hb⟩
    obtain ⟨a, rfl, ha⟩ := ρ.covers_literal_iff.1 hcov
    obtain ⟨a', e, ha'⟩ := ((h.world hneg B).holds_iff _).1 hb
    exact ⟨a, ha, ρ.atom_injective e ▸ ha'⟩
  · rintro ⟨a, hcov, ha⟩
    exact ⟨ρ.atom a, ρ.covers_literal_iff.2 ⟨a, rfl, hcov⟩, ((h.world hneg B).holds_iff _).2 ⟨a, rfl, ha⟩⟩

end Rewords

/-! ## Answers -/

namespace KnowledgeBase

/-- Rules without primitives, negations, and wildcards in their heads. -/
structure Horn (kb : KnowledgeBase W) : Prop where
  ordinary : ∀ c ∈ kb.rules.clauses, ∀ l ∈ c.body, l.isPrimitive = false
  positive : ∀ c ∈ kb.rules.clauses, ∀ l ∈ c.body, l.isNegated = false
  closed   : ∀ c ∈ kb.rules.clauses, ∀ t ∈ c.head.terms, t.isWildcard = false

/-- No fact and no rule is about a rule weight. -/
def Weightless (kb : KnowledgeBase W) : Prop :=
  ∀ c ∈ kb.facts.clauses ++ kb.rules.clauses, Prover.isRuleWeight c.head = false

theorem Horn.definite {kb : KnowledgeBase ℚ} (h : kb.Horn) (hweight : kb.Weightless) : kb.Definite :=
  ⟨h.positive, fun c hc => hweight c (List.mem_append_left _ hc), fun c hc => hweight c (List.mem_append_right _ hc)⟩

theorem Built.tellAll [Weight W] {kb : KnowledgeBase W} (h : kb.Built) {cs : List (Clause W)}
    (hcs : ∀ c ∈ cs, c.isPlain = true) : (kb.tellAll cs).2.Built :=
  tellAll_induction (fun h hc ht => .tell h hc ht) cs h hcs

end KnowledgeBase

open KnowledgeBase

namespace Rewords

variable [Weight W] {ρ : Rewording} {kb kb' : KnowledgeBase W}

theorem horn (h : Rewords ρ kb kb') (hkb : kb.Horn) : kb'.Horn := by
  have hbody : ∀ d ∈ kb'.rules.clauses, ∀ m ∈ d.body, m.isPrimitive = false ∧ m.isNegated = false := by
    intro d hd m hm
    obtain ⟨c, hc, rfl⟩ := h.mem_rules_iff.1 hd
    obtain ⟨l, hl, rfl⟩ := List.mem_map.1 hm
    rw [ρ.isPrimitive_literal, ρ.isNegated_literal]
    exact ⟨hkb.ordinary c hc l hl, hkb.positive c hc l hl⟩
  refine ⟨fun d hd m hm => (hbody d hd m hm).1, fun d hd m hm => (hbody d hd m hm).2, fun d hd => ?_⟩
  obtain ⟨c, hc, rfl⟩ := h.mem_rules_iff.1 hd
  exact hkb.closed c hc

theorem weightless (h : Rewords ρ kb kb') (hkb : kb.Weightless) : kb'.Weightless := by
  intro d hd
  have hmem : ∃ c ∈ kb.facts.clauses ++ kb.rules.clauses, ρ.clause c = d := by
    simp only [List.mem_append, h.mem_facts_iff, h.mem_rules_iff] at hd ⊢
    rcases hd with ⟨c, hc, e⟩ | ⟨c, hc, e⟩
    · exact ⟨c, .inl hc, e⟩
    · exact ⟨c, .inr hc, e⟩
  obtain ⟨c, hc, rfl⟩ := hmem
  exact (ρ.isRuleWeight_literal c.head).trans (hkb c hc)

end Rewords

namespace Solver

variable {ρ : Rewording} {kb kb' : KnowledgeBase ℚ} {l : Literal ℚ}

/-- The answers to a query in other words are its answers in other words. -/
theorem solve_reworded (h : Rewords ρ kb kb') (hb : kb.Built) (hb' : kb'.Built) (hkb : kb.Horn) {settings : Settings}
    (hmax : settings.maxSamples = none) (hl : l.isPlain = true) (hlp : l.isPrimitive = false) (hln : l.isNegated = false) :
    ∃ steps answers answers', (∀ patience, steps ≤ patience →
        (({ Solver.new kb settings with patience := patience } : Solver ℚ).solve l none).1 = .ok answers ∧
        (({ Solver.new kb' settings with patience := patience } : Solver ℚ).solve (ρ.literal l) none).1 = .ok answers') ∧
      ∀ d, d ∈ answers' ↔ ∃ c ∈ answers, ρ.clause c = d := by
  have hkb' := h.horn hkb
  obtain ⟨V, hreg, n, hlit⟩ := hb.kept.regular hkb.ordinary hkb.closed hl hlp
  obtain ⟨V', hreg', n', hlit'⟩ := hb'.kept.regular hkb'.ordinary hkb'.closed (ρ.isPlain_literal hl)
    ((ρ.isPrimitive_literal l).trans hlp)
  obtain ⟨i, answers, hrun, -, hmem⟩ := solve_positive (s := Solver.new kb settings) hreg hkb.positive rfl hmax hlit hln
  obtain ⟨j, answers', hrun', -, hmem'⟩ := solve_positive (s := Solver.new kb' settings) hreg' hkb'.positive rfl hmax hlit'
    ((ρ.isNegated_literal l).trans hln)
  refine ⟨max i j, answers, answers', fun patience hle => ⟨hrun _ (by omega), hrun' _ (by omega)⟩, fun d => ?_⟩
  have hunify : ∀ c : Clause ℚ, ((ρ.literal l).unify (ρ.clause c).head).isSome = (l.unify c.head).isSome := fun c => by
    rw [← ρ.unify_literal l c.head]
    rfl
  have hfires := (h.positiveTheory hkb.positive).fires_iff
  rw [hmem']
  constructor
  · rintro (⟨hd, hu⟩ | ⟨b, rfl, hu, hb⟩)
    · obtain ⟨c, hc, rfl⟩ := h.mem_facts_iff.1 hd
      exact ⟨c, (hmem c).2 (.inl ⟨hc, hunify c ▸ hu⟩), rfl⟩
    · obtain ⟨a, rfl, ha⟩ := (hfires b).1 hb
      exact ⟨.fact (a.literal 1), (hmem _).2 (.inr ⟨a, rfl, hunify (.fact (a.literal 1)) ▸ hu, ha⟩), ρ.clause_fact a 1⟩
  · rintro ⟨c, hc, rfl⟩
    rcases (hmem c).1 hc with ⟨hc, hu⟩ | ⟨a, rfl, hu, ha⟩
    · exact .inl ⟨h.mem_facts_iff.2 ⟨c, hc, rfl⟩, (hunify c).trans hu⟩
    · exact .inr ⟨ρ.atom a, ρ.clause_fact a 1, (hunify _).trans hu, (hfires _).2 ⟨a, rfl, ha⟩⟩

/-- A query in other words has the same estimates. -/
theorem probability_reworded (h : Rewords ρ kb kb') (hb : kb.Built) (hb' : kb'.Built) (hkb : kb.Horn)
    (hweight : kb.Weightless) (settings : Settings) (hl : l.isPlain = true) (hlp : l.isPrimitive = false)
    (hln : l.isNegated = false) :
    ∃ steps set set', (∀ patience, steps ≤ patience →
        (({ Solver.new kb settings with patience := patience } : Solver ℚ).proofs l).1 = .ok set ∧
        (({ Solver.new kb' settings with patience := patience } : Solver ℚ).proofs (ρ.literal l)).1 = .ok set') ∧
      ∀ settings', (Estimator.mk set' settings').probability (ρ.literal l) none =
        (Estimator.mk set settings').probability l none := by
  have hkb' := h.horn hkb
  obtain ⟨V, hreg, n, hlit⟩ := hb.kept.regular hkb.ordinary hkb.closed hl hlp
  obtain ⟨V', hreg', n', hlit'⟩ := hb'.kept.regular hkb'.ordinary hkb'.closed (ρ.isPlain_literal hl)
    ((ρ.isPrimitive_literal l).trans hlp)
  obtain ⟨i, set, hrun, hprob⟩ := probability_positive (s := Solver.new kb settings) hreg (hkb.definite hweight) rfl hlit hln
  obtain ⟨j, set', hrun', hprob'⟩ := probability_positive (s := Solver.new kb' settings) hreg'
    (hkb'.definite (h.weightless hweight)) rfl hlit' ((ρ.isNegated_literal l).trans hln)
  refine ⟨max i j, set, set', fun patience hle => ⟨hrun _ (by omega), hrun' _ (by omega)⟩, fun settings' => ?_⟩
  rw [hprob, hprob']
  exact h.chance hkb.positive l

/-- **Names mean nothing but what a rewording keeps of them.**  A program whose rules have no primitives, negations, and
wildcards in their heads is told in other words as it is told.  A query in other words has the answers of the query in
other words; and when no rule carries a weight, it is estimated as the query is.

This is for programs that are told clause by clause, with rational weights.  Estimates are left out where a rule carries a
weight, since a stated fact may have the name that the literal of the weight is given, and then they may change. -/
theorem answers_reworded (ρ : Rewording) {registry : Registry} {cs : List (Clause ℚ)} (hcs : ∀ c ∈ cs, c.isPlain = true)
    {n : Nat} {kb : KnowledgeBase ℚ} (hload : (KnowledgeBase.empty registry).tellAll cs = (.ok n, kb)) (hkb : kb.Horn)
    {settings : Settings} (hmax : settings.maxSamples = none) :
    ∃ kb', (KnowledgeBase.empty registry).tellAll (cs.map ρ.clause) = (.ok n, kb') ∧
      ∀ l : Literal ℚ, l.isPlain = true → l.isPrimitive = false → l.isNegated = false →
        (∃ steps answers answers', (∀ patience, steps ≤ patience →
            (({ Solver.new kb settings with patience := patience } : Solver ℚ).solve l none).1 = .ok answers ∧
            (({ Solver.new kb' settings with patience := patience } : Solver ℚ).solve (ρ.literal l) none).1 =
              .ok answers') ∧
          ∀ d, d ∈ answers' ↔ ∃ c ∈ answers, ρ.clause c = d) ∧
        (kb.Weightless → ∃ steps set set', (∀ patience, steps ≤ patience →
            (({ Solver.new kb settings with patience := patience } : Solver ℚ).proofs l).1 = .ok set ∧
            (({ Solver.new kb' settings with patience := patience } : Solver ℚ).proofs (ρ.literal l)).1 = .ok set') ∧
          ∀ settings', (Estimator.mk set' settings').probability (ρ.literal l) none =
            (Estimator.mk set settings').probability l none) := by
  obtain ⟨kb', hload', h⟩ := (Rewords.empty ρ registry).tellAll cs hcs hload
  have hb : kb.Built := by
    have := (Built.empty registry).tellAll hcs
    rwa [hload] at this
  have hb' : kb'.Built := by
    have := (Built.empty registry).tellAll (List.forall_mem_map.2 (fun c hc => ρ.isPlain_clause (hcs c hc)))
    rwa [hload'] at this
  refine ⟨kb', hload', fun l hl hlp hln => ⟨solve_reworded h hb hb' hkb hmax hl hlp hln, fun hweight => ?_⟩⟩
  exact probability_reworded h hb hb' hkb hweight settings hl hlp hln

end Solver

/-! ## Roads for edges -/

namespace OneEdge

def roads : Rewording := .exchange (a := "edge") (b := "road") ⟨by decide, by decide, by decide⟩ ⟨by decide, by decide, by decide⟩

/-- The program with a road for its edge. -/
def roadProgram (w : ℚ) : List (Clause ℚ) :=
  [.fact ⟨w, ⟨"road", 2⟩, [.const ⟨"a"⟩, .const ⟨"b"⟩]⟩,
    ⟨⟨1, ⟨"path", 2⟩, [.var ⟨0, false⟩, .var ⟨1, false⟩]⟩, [⟨1, ⟨"road", 2⟩, [.var ⟨0, false⟩, .var ⟨1, false⟩]⟩]⟩]

theorem roads_program (w : ℚ) : [fact w, rule].map roads.clause = roadProgram w := by
  have hedge : roads.predicate ⟨"edge", 2⟩ = ⟨"road", 2⟩ :=
    congrArg (Predicate.mk · 2) (Equiv.swap_apply_left "edge" "road")
  have hpath : roads.predicate ⟨"path", 2⟩ = ⟨"path", 2⟩ :=
    congrArg (Predicate.mk · 2) (Equiv.swap_apply_of_ne_of_ne (by decide) (by decide))
  simp only [List.map_cons, List.map_nil, Rewording.clause, Rewording.literal, fact, rule, Clause.fact, hedge, hpath]
  rfl

/-- Where do edges lead from `a`? -/
def edges : Literal ℚ := ⟨1, ⟨"edge", 2⟩, [.const ⟨"a"⟩, .var ⟨0, false⟩]⟩

def roadsFromA : Literal ℚ := ⟨1, ⟨"road", 2⟩, [.const ⟨"a"⟩, .var ⟨0, false⟩]⟩

theorem roads_edges : roads.literal edges = roadsFromA :=
  congrArg (fun p => Literal.mk 1 p _) (congrArg (Predicate.mk · 2) (Equiv.swap_apply_left "edge" "road"))

theorem horn (w : ℚ) : (kb w).Horn := by
  have hrule : ∀ {c : Clause ℚ}, c ∈ (kb w).rules.clauses → c = rule := by
    intro c hc
    rw [rules] at hc
    exact List.mem_singleton.1 hc
  exact ⟨fun c hc => by rw [hrule hc]; decide, fun c hc => by rw [hrule hc]; decide, fun c hc => by rw [hrule hc]; decide⟩

end OneEdge

namespace Solver

/-- Roads are where edges are, and as likely. -/
theorem answers_reworded_roads :
    ∃ kb', (KnowledgeBase.empty .empty).tellAll (OneEdge.roadProgram (1 / 3)) = (.ok 2, kb') ∧
      (∃ steps answers answers', (∀ patience, steps ≤ patience →
          (({ Solver.new (OneEdge.kb (1 / 3)) .default with patience := patience } : Solver ℚ).solve OneEdge.edges none).1 =
            .ok answers ∧
          (({ Solver.new kb' .default with patience := patience } : Solver ℚ).solve OneEdge.roadsFromA none).1 =
            .ok answers') ∧
        ∀ d, d ∈ answers' ↔ ∃ c ∈ answers, OneEdge.roads.clause c = d) ∧
      ∃ steps set set', (∀ patience, steps ≤ patience →
          (({ Solver.new (OneEdge.kb (1 / 3)) .default with patience := patience } : Solver ℚ).proofs OneEdge.edges).1 =
            .ok set ∧
          (({ Solver.new kb' .default with patience := patience } : Solver ℚ).proofs OneEdge.roadsFromA).1 = .ok set') ∧
        ∀ settings, (Estimator.mk set' settings).probability OneEdge.roadsFromA none =
          (Estimator.mk set settings).probability OneEdge.edges none := by
  have hplain : ∀ c ∈ [OneEdge.fact (1 / 3), OneEdge.rule], c.isPlain = true :=
    List.forall_mem_cons.2 ⟨OneEdge.fact_plain _, List.forall_mem_singleton.2 rfl⟩
  have hweight : (OneEdge.kb (1 / 3)).Weightless := by
    rw [KnowledgeBase.Weightless, OneEdge.facts, OneEdge.rules]
    decide
  obtain ⟨kb', hload, hall⟩ := answers_reworded OneEdge.roads hplain (OneEdge.tellAll (by norm_num)) (OneEdge.horn _)
    (show Settings.default.maxSamples = none from rfl)
  obtain ⟨hsolve, hproofs⟩ := hall OneEdge.edges rfl rfl rfl
  rw [OneEdge.roads_edges] at hsolve hproofs
  rw [OneEdge.roads_program] at hload
  exact ⟨kb', hload, hsolve, hproofs hweight⟩

end Solver
end Credence
