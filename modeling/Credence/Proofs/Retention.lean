import Credence.Proofs.Compaction
import Credence.Proofs.Stopping
/-!
# Answers after compaction

A merged rule gives nothing that the referring rule and the definition did not give together, so no query gains an answer
by compaction (`Compacts.narrows`).  It can lose one: the definition takes variables from the pool, and one that stands in
the referring rule already is confounded with it.  Where the two are apart at every step, all answers stay
(`Compacts.fires`), and a query has the same answers before and after (`Solver.solve_compact`).
-/
namespace Credence

variable {W : Type} [Weight W]

namespace KnowledgeBase

/-- Every definition that compaction comes to write out shares no variable with the rule it is written out in. -/
def Separate (kb : KnowledgeBase W) (tried : List Predicate) : Prop :=
  ∀ n tried' kb' q site, kb.Compacts tried n tried' kb' → kb'.nextInline? tried' = some (q, site) → kb'.Apart q site

/-- The knowledge base `kb'` is in order and has the facts of `kb`, and its rules give nothing else. -/
structure Narrows (V : Vocabulary W) (kb kb' : KnowledgeBase W) : Prop where
  regular  : kb'.Regular V
  positive : ∀ c ∈ kb'.rules.clauses, ∀ l ∈ c.body, l.isNegated = false
  facts    : kb'.facts = kb.facts
  fires    : ∀ a, kb'.positiveTheory.Fires a → kb.positiveTheory.Fires a

variable {V : Vocabulary W} {kb kb' kb'' : KnowledgeBase W} {q : Predicate} {site : Site} {tried tried' : List Predicate}
  {n : Nat}

omit [Weight W] in
theorem positiveTheory_congr (hf : kb'.facts = kb.facts) (hr : kb'.rules = kb.rules) :
    kb'.positiveTheory = kb.positiveTheory := by
  simp only [positiveTheory, theory, States, hf, hr]

theorem Narrows.of_same (hkb : kb.Regular V) (hpos : ∀ c ∈ kb.rules.clauses, ∀ l ∈ c.body, l.isNegated = false)
    (hf : kb'.facts = kb.facts) (hr : kb'.rules = kb.rules) : Narrows V kb kb' :=
  ⟨⟨hf ▸ hkb.facts, hr ▸ hkb.rules, hf ▸ hkb.fact, hr ▸ hkb.rule⟩, hr ▸ hpos, hf, fun _ ha => positiveTheory_congr hf hr ▸ ha⟩

theorem Narrows.trans (h : Narrows V kb kb') (h' : Narrows V kb' kb'') : Narrows V kb kb'' :=
  ⟨h'.regular, h'.positive, h'.facts.trans h.facts, fun a ha => h.fires a (h'.fires a ha)⟩

/-! ## One step -/

/-- **Writing a definition out adds nothing.** -/
theorem narrows_inlineAt (hkb : kb.Regular V) (hpos : ∀ c ∈ kb.rules.clauses, ∀ l ∈ c.body, l.isNegated = false)
    (hsite : kb.inlineSite? q = some site) : Narrows V kb (kb.inlineAt q site).2 := by
  rcases inlineAt_cases hkb.facts hkb.rules hsite with ⟨hf, hr, -⟩ | ⟨definition, referrer, merged, -, -, -, h⟩
  · exact .of_same hkb hpos hf hr
  · exact ⟨h.regular hpos hkb, h.positive hpos, h.facts, fun a ha => h.fires_of_fires hpos hkb (h.reads_theory _ _) ha⟩

/-- **Writing a definition out loses nothing**, when it shares no variable with the rule. -/
theorem fires_inlineAt (hkb : kb.Regular V) (hpos : ∀ c ∈ kb.rules.clauses, ∀ l ∈ c.body, l.isNegated = false)
    (hsite : kb.inlineSite? q = some site) (hapart : kb.Apart q site) {a : Atom} (ha : kb.positiveTheory.Fires a) :
    (kb.inlineAt q site).2.positiveTheory.Fires a := by
  rcases inlineAt_cases hkb.facts hkb.rules hsite with ⟨hf, hr, -⟩ | ⟨definition, referrer, merged, hdef, href, -, h⟩
  · exact positiveTheory_congr hf hr ▸ ha
  · exact h.fires_after hpos (h.reads_theory _ _) (hapart definition referrer hdef href) ha

/-! ## All steps -/

theorem Separate.tail {did : Bool} (h : kb.Separate tried) (hnext : kb.nextInline? tried = some (q, site))
    (hstep : kb.inlineAt q site = (.ok did, kb')) : kb'.Separate (q :: tried) :=
  fun _ _ _ _ _ hrun => h _ _ _ _ _ (.head hnext hstep hrun)

theorem Compacts.narrows (h : kb.Compacts tried n tried' kb') (hkb : kb.Regular V)
    (hpos : ∀ c ∈ kb.rules.clauses, ∀ l ∈ c.body, l.isNegated = false) : Narrows V kb kb' := by
  induction h with
  | refl kb tried => exact .of_same hkb hpos rfl rfl
  | @head kb kb₁ kb' tried tried' q site did n hnext hstep _ ih =>
    have h := narrows_inlineAt hkb hpos (inlineSite?_of_nextInline? hnext)
    rw [hstep] at h
    exact h.trans (ih h.regular h.positive)

theorem Compacts.fires (h : kb.Compacts tried n tried' kb') (hkb : kb.Regular V)
    (hpos : ∀ c ∈ kb.rules.clauses, ∀ l ∈ c.body, l.isNegated = false) (hsep : kb.Separate tried) {a : Atom}
    (ha : kb.positiveTheory.Fires a) : kb'.positiveTheory.Fires a := by
  induction h with
  | refl kb tried => exact ha
  | @head kb kb₁ kb' tried tried' q site did n hnext hstep _ ih =>
    have hsite := inlineSite?_of_nextInline? hnext
    have h := narrows_inlineAt hkb hpos hsite
    have ha' := fires_inlineAt hkb hpos hsite (hsep _ _ _ _ _ (.refl kb tried) hnext) ha
    rw [hstep] at h ha'
    exact ih h.regular h.positive (hsep.tail hnext hstep) ha'

/-- The clauses after compaction are those at the end of its steps. -/
theorem exists_compacts (kb : KnowledgeBase W) : ∃ n tried kb', kb.Compacts [] n tried kb' ∧
    kb.compact.2.facts = kb'.facts ∧ kb.compact.2.rules = kb'.rules := by
  obtain ⟨n, tried, kb', hrun, ⟨-, e⟩ | ⟨m, pool, -, e⟩⟩ :=
    compactWithin_outcome kb.rules.predicates.length [] kb (List.length_filter_le _ _)
  · exact ⟨n, tried, kb', hrun, by rw [compact, e], by rw [compact, e]⟩
  · exact ⟨n, tried, kb', hrun, by rw [compact, e], by rw [compact, e]⟩

end KnowledgeBase

namespace Solver

variable [LawfulWeight W]

/-- **What compaction does to answers.**  Over a knowledge base that was built from plain clauses and texts, without
primitives, negations and wildcards in the heads of rules, no positive query has an answer after compaction that it did
not have before; and it has the same answers, when each definition that is written out shares no variable with the rule
that takes it in. -/
theorem solve_compact {s : Solver W} (hb : s.kb.Built)
    (hprim : ∀ c ∈ s.kb.rules.clauses, ∀ l ∈ c.body, l.isPrimitive = false)
    (hneg : ∀ c ∈ s.kb.rules.clauses, ∀ l ∈ c.body, l.isNegated = false)
    (hwild : ∀ c ∈ s.kb.rules.clauses, ∀ t ∈ c.head.terms, t.isWildcard = false)
    (hcap : s.storeCapacity = none) (hmax : s.settings.maxSamples = none) {l : Literal W} (hl : l.isPlain = true)
    (hlp : l.isPrimitive = false) (hln : l.isNegated = false) :
    ∃ steps before after, (∀ patience, steps ≤ patience →
        (({ s with patience := patience } : Solver W).solve l none).1 = .ok before ∧
        (({ s with patience := patience, kb := s.kb.compact.2 } : Solver W).solve l none).1 = .ok after) ∧
      (∀ c ∈ after, c ∈ before) ∧ (s.kb.Separate [] → ∀ c ∈ before, c ∈ after) := by
  obtain ⟨V, hreg, n, hlit⟩ := hb.kept.regular hprim hwild hl hlp
  obtain ⟨m, tried, kb', hrun, hfacts, hrules⟩ := s.kb.exists_compacts
  have hkb' := hrun.narrows hreg hneg
  have h := hkb'.trans (.of_same hkb'.regular hkb'.positive hfacts hrules)
  obtain ⟨i, before, hbefore, -, hmem⟩ := solve_positive hreg hneg hcap hmax hlit hln
  obtain ⟨j, after, hafter, -, hmem'⟩ :=
    solve_positive (s := { s with kb := s.kb.compact.2 }) h.regular h.positive hcap hmax hlit hln
  refine ⟨max i j, before, after, fun patience hle => ⟨hbefore _ (by omega), hafter _ (by omega)⟩, fun c hc => ?_,
    fun hsep c hc => ?_⟩
  · refine (hmem c).2 (((hmem' c).1 hc).imp ?_ ?_)
    · rintro ⟨hc, hu⟩
      exact ⟨h.facts ▸ hc, hu⟩
    · rintro ⟨a, e, hu, ha⟩
      exact ⟨a, e, hu, h.fires a ha⟩
  · refine (hmem' c).2 (((hmem c).1 hc).imp ?_ ?_)
    · rintro ⟨hc, hu⟩
      exact ⟨h.facts.symm ▸ hc, hu⟩
    · rintro ⟨a, e, hu, ha⟩
      have ha' := hrun.fires hreg hneg hsep ha
      rw [← KnowledgeBase.positiveTheory_congr hfacts hrules] at ha'
      exact ⟨a, e, hu, ha'⟩

-- `hop` written out in `reach(X, Y) :- hop(Y, X)`, which has the variables that the pool issues first, comes to
-- `reach(X, X) :- edge(X, X)`
example :
    let x : Term := .var ⟨0, false⟩
    let y : Term := .var ⟨1, false⟩
    let pair (name : String) (s t : Term) : Literal ℚ := ⟨1, ⟨name, 2⟩, [s, t]⟩
    let hop : Clause ℚ := ⟨pair "hop" x y, [pair "edge" x y]⟩
    let reach : Clause ℚ := ⟨pair "reach" x y, [pair "hop" y x]⟩
    KnowledgeBase.inline .empty reach (hop.rename .empty).1 0 = .ok (some ⟨pair "reach" x x, [pair "edge" x x]⟩) :=
  rfl

end Solver

/-! ## One edge that is visited -/

namespace OneEdge

/-- The program after it was told of visits. -/
def told (w : ℚ) : KnowledgeBase ℚ := ((kb w).keepRule visit).2

theorem unseen_visit (w : ℚ) : (kb w).seen.contains visit.key = false := by
  have hcert : rule.head.isCertain = true := rfl
  simp only [kb, KnowledgeBase.keepRule, unseen, hcert, Bool.false_eq_true, if_false, if_true]
  simp only [KnowledgeBase.storeRule, KnowledgeBase.storeFact, KnowledgeBase.empty, Std.HashSet.contains_empty,
    Bool.false_eq_true, if_false, Std.HashSet.contains_insert, Bool.or_false, Bool.or_eq_false_iff, beq_eq_false_iff_ne]
  refine ⟨fun e => ?_, fun e => ?_, fun e => ?_⟩
  · exact absurd (congrArg Prod.snd e) (by decide)
  · exact absurd (congrArg Prod.snd e) (by decide)
  · cases congrArg Prod.fst e

theorem tell_visit (w : ℚ) : (kb w).tell visit = .ok (true, told w) := by
  have hcert : visit.head.isCertain = true := rfl
  refine KnowledgeBase.tell_eq_ok_iff.2 (.inr ⟨rfl, ⟨rfl, rfl, fun l hl => ?_⟩,
    .inr ⟨List.cons_ne_nil _ _, rfl, visit, rfl, Prod.ext ?_ rfl⟩⟩)
  · rw [List.mem_singleton.1 hl]
    rfl
  · simp only [KnowledgeBase.keepRule, unseen_visit, hcert, Bool.false_eq_true, if_false, if_true]

theorem told_built {w : ℚ} (hw : 0 < w ∧ w ≤ 1) : (told w).Built := .tell (built hw) rfl (tell_visit w)

/-- Telling of visits adds the rule, and leaves the pool as it is. -/
theorem told_eq (w : ℚ) :
    (told w).facts = (visits w).facts ∧ (told w).rules = (visits w).rules ∧ (told w).pool = (visits w).pool := by
  have hcert : visit.head.isCertain = true := rfl
  simp only [told, visits, KnowledgeBase.keepRule, unseen_visit, hcert, Bool.false_eq_true, if_false, if_true,
    KnowledgeBase.storeRule, and_self]

theorem told_rules (w : ℚ) : (told w).rules = ⟨[(⟨"path", 2⟩, [rule]), (⟨"visit", 1⟩, [visit])]⟩ :=
  (told_eq w).2.1.trans (visits_rules w)

theorem told_facts (w : ℚ) : (told w).facts = ⟨[(⟨"edge", 2⟩, [fact w])]⟩ := (told_eq w).1.trans (visits_facts w)

theorem told_pool (w : ℚ) : (told w).pool = .empty := (told_eq w).2.2.trans (visits_pool w)

/-- What has an edge from it is visited. -/
def visitEdge : Clause ℚ :=
  ⟨⟨1, ⟨"visit", 1⟩, [.var ⟨0, false⟩]⟩, [⟨1, ⟨"edge", 2⟩, [.var ⟨0, false⟩, .var ⟨1, false⟩]⟩]⟩

theorem told_inlineAt (w : ℚ) :
    ((told w).inlineAt ⟨"path", 2⟩ ⟨⟨"visit", 1⟩, 0, 0, false⟩).2.rules =
        ⟨[(⟨"path", 2⟩, [rule]), (⟨"visit", 1⟩, [visitEdge])]⟩ ∧
      ((told w).inlineAt ⟨"path", 2⟩ ⟨⟨"visit", 1⟩, 0, 0, false⟩).2.facts = ⟨[(⟨"edge", 2⟩, [fact w])]⟩ := by
  simp only [KnowledgeBase.inlineAt, told_rules, told_pool]
  exact ⟨rfl, told_facts w⟩

/-- Nothing is left to write out then. -/
theorem nextInline?_visitEdge {kb : KnowledgeBase ℚ} {w : ℚ}
    (hr : kb.rules = ⟨[(⟨"path", 2⟩, [rule]), (⟨"visit", 1⟩, [visitEdge])]⟩) (hf : kb.facts = ⟨[(⟨"edge", 2⟩, [fact w])]⟩) :
    kb.nextInline? [⟨"path", 2⟩] = none := by
  have hsite : kb.inlineSite? ⟨"visit", 1⟩ = none := by
    simp only [KnowledgeBase.inlineSite?, KnowledgeBase.sites, hr, hf]
    rfl
  have hsorted : (kb.rules.predicates.filter (fun q => !List.contains [⟨"path", 2⟩] q)).mergeSort
      Predicate.precedes = [⟨"visit", 1⟩] := by
    rw [hr]
    exact List.mergeSort_of_pairwise (by decide)
  rw [KnowledgeBase.nextInline?]
  simp only [hsorted, List.findSome?_cons, hsite]
  rfl

theorem told_separate (w : ℚ) : (told w).Separate [] := by
  have hfirst := nextInline?_path (told_rules w) (told_facts w)
  intro n tried' kb' q site hrun hnext
  cases hrun with
  | refl =>
    rw [hfirst] at hnext
    obtain ⟨rfl, rfl⟩ := Prod.mk.inj (Option.some.inj hnext)
    exact apart_path (told_rules w) (told_pool w)
  | head hstart hstep hrest =>
    rw [hfirst] at hstart
    obtain ⟨rfl, rfl⟩ := Prod.mk.inj (Option.some.inj hstart)
    have hmerged := told_inlineAt w
    rw [hstep] at hmerged
    have hlast := nextInline?_visitEdge hmerged.1 hmerged.2
    cases hrest with
    | refl =>
      rw [hlast] at hnext
      cases hnext
    | head hagain _ _ =>
      rw [hlast] at hagain
      cases hagain

end OneEdge

namespace Solver

/-- Who asks for visits gets the same answers when paths are written out. -/
theorem solve_compact_visits :
    let s : Solver ℚ := Solver.new (OneEdge.told (1 / 3)) .default
    ∃ steps before after, (∀ patience, steps ≤ patience →
        (({ s with patience := patience } : Solver ℚ).solve OneEdge.visited none).1 = .ok before ∧
        (({ s with patience := patience, kb := s.kb.compact.2 } : Solver ℚ).solve OneEdge.visited none).1 = .ok after) ∧
      ∀ c, c ∈ after ↔ c ∈ before := by
  have hrule : ∀ {c : Clause ℚ}, c ∈ (OneEdge.told (1 / 3)).rules.clauses → c = OneEdge.rule ∨ c = OneEdge.visit := by
    intro c hc
    rw [OneEdge.told_rules] at hc
    exact (List.mem_cons.1 hc).imp_right List.mem_singleton.1
  obtain ⟨steps, before, after, hrun, hnarrow, hkeep⟩ := solve_compact (s := Solver.new (OneEdge.told (1 / 3)) .default)
    (l := OneEdge.visited) (OneEdge.told_built (by norm_num))
    (fun c hc => by rcases hrule hc with rfl | rfl <;> decide) (fun c hc => by rcases hrule hc with rfl | rfl <;> decide)
    (fun c hc => by rcases hrule hc with rfl | rfl <;> decide) rfl rfl rfl rfl rfl
  exact ⟨steps, before, after, hrun, fun c => ⟨hnarrow c, hkeep (OneEdge.told_separate _) c⟩⟩

end Solver
end Credence
