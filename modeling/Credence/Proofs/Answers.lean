import Credence.Proofs.Keeping
import Credence.Proofs.Solving
/-!
# Answers are the least model

Over a program without negations, primitives and wildcards in the heads of rules, a solver finds exactly what the
program says of a query: the stated facts that meet it, and with certainty the atoms that meet it and that some rule
gives in the least model (`Solver.solve_leastModel`).  Recursion of any shape is worked off.
-/
namespace Credence

variable {W : Type}

/-! ## Theories without negations -/

namespace Theory

/-- When no rule has a negation, it does not matter which negations hold. -/
theorem Holds.of_positive {T T' : Theory W} (hf : ∀ a, T.fact a → T'.fact a) (hr : ∀ c, T.rule c → T'.rule c)
    (hpos : ∀ c, T.rule c → ∀ l ∈ c.body, l.isNegated = false) {a : Atom} (h : T.Holds a) : T'.Holds a := by
  induction h with
  | fact h => exact .fact (hf _ h)
  | rule hi _ ih =>
    refine .rule ⟨hr _ hi.rule, hi.head, hi.body, fun l hl hn => ?_⟩ ih
    rw [hpos _ hi.rule l hl] at hn
    cases hn

/-- Without negations it is enough that every literal of the body has an atom that holds. -/
theorem Fires.of_body {T : Theory W} {c : Clause W} {ν : Valuation} {a : Atom} (hc : T.rule c)
    (hpos : ∀ l ∈ c.body, l.isNegated = false) (hh : c.head.Admits ν a)
    (hb : ∀ l ∈ c.body, ∃ b, l.Admits ν b ∧ T.Holds b) : T.Fires a := by
  have : Nonempty Atom := ⟨a⟩
  choose! pick hpick using hb
  refine ⟨c, ν, pick, ⟨hc, hh, fun l hl _ => (hpick l hl).1, fun l hl hn => ?_⟩, fun l hl _ => (hpick l hl).2⟩
  rw [hpos l hl] at hn
  cases hn

theorem Holds.of_rule {T : Theory W} {c : Clause W} {ν : Valuation} {a : Atom} (hc : T.rule c)
    (hpos : ∀ l ∈ c.body, l.isNegated = false) (hh : c.head.Admits ν a)
    (hb : ∀ l ∈ c.body, ∃ b, l.Admits ν b ∧ T.Holds b) : T.Holds a := (Fires.of_body hc hpos hh hb).holds

theorem Fires.of_positive {T T' : Theory W} (hf : ∀ a, T.fact a → T'.fact a) (hr : ∀ c, T.rule c → T'.rule c)
    (hpos : ∀ c, T.rule c → ∀ l ∈ c.body, l.isNegated = false) {a : Atom} (h : T.Fires a) : T'.Fires a := by
  obtain ⟨c, ν, pick, hi, hb⟩ := h
  refine ⟨c, ν, pick, ⟨hr _ hi.rule, hi.head, hi.body, fun l hl hn => ?_⟩, fun l hl hn => (hb l hl hn).of_positive hf hr hpos⟩
  rw [hpos _ hi.rule l hl] at hn
  cases hn

end Theory

variable [Weight W]

namespace KnowledgeBase

/-- The theory of a program whose negations, if it has any, all fail. -/
def positiveTheory (kb : KnowledgeBase W) : Theory W := kb.theory (fun _ _ => False)

omit [Weight W] in
theorem fires_iff_of_positive {kb : KnowledgeBase W} (hneg : ∀ c ∈ kb.rules.clauses, ∀ l ∈ c.body, l.isNegated = false)
    (denied denied' : Predicate → List (Option Constant) → Prop) (a : Atom) :
    (kb.theory denied).Fires a ↔ (kb.theory denied').Fires a := by
  have key : ∀ D D' : Predicate → List (Option Constant) → Prop, (kb.theory D).Fires a → (kb.theory D').Fires a := by
    intro D D' h
    refine h.of_positive ?_ ?_ hneg
    · exact fun _ hf => hf
    · exact fun _ hr => hr
  exact ⟨key denied denied', key denied' denied⟩

theorem Regular.wellFormed_of_fires {kb : KnowledgeBase W} {V : Vocabulary W} (h : kb.Regular V)
    {denied : Predicate → List (Option Constant) → Prop} {a : Atom} (ha : (kb.theory denied).Fires a) : a.WellFormed := by
  obtain ⟨c, ν, pick, hi, -⟩ := ha
  obtain ⟨n, hhead⟩ := (h.rule c hi.rule).head
  rw [Atom.WellFormed, ← hi.head.length_eq, Literal.isWellFormed_iff.1 hhead.wellFormed, hi.head.1]

end KnowledgeBase

namespace Run

variable [LawfulWeight W] {q : Query W} {V : Vocabulary W} {r : Run W} {T : Theory W}

/-- Everything a completed rule rests on is confirmed by a theory that states what was asserted. -/
theorem Valid.confirms_body (hv : r.Valid V q.kb) (hkb : q.kb.Regular V) (hb : r.Backs q.kb T r.table.Asserts) {i : Nat}
    {g : Subgoal W} (hi : r.table.goal? i = some g) {c : Clause W} (hc : c ∈ g.grounded) : ∀ l ∈ c.body, Confirms T l := by
  intro l hl
  have hres := ((hv.goal i g hi).grounded c hc).body l hl
  obtain ⟨f, ⟨j, b, hj, hf⟩, hid⟩ := hres.known
  exact hv.sound hkb hb ((hv.goal j b hj).founded f hf) l hres hid.symm

/-- The negations that the table has facts for. -/
def denials (r : Run W) (p : Predicate) (vs : List (Option Constant)) : Prop :=
  ∃ i g, r.table.goal? i = some g ∧ g.literal.isNegated = true ∧ g.facts ≠ [] ∧ g.literal.predicate = p ∧
    ∀ ν, g.literal.values ν = vs

omit [LawfulWeight W] in
theorem Valid.backs_denials (hv : r.Valid V q.kb) : r.Backs q.kb (q.kb.theory r.denials) r.table.Asserts := by
  refine ⟨fun _ h => h, fun _ h => h, fun a w hs _ => ⟨w, hs⟩, fun i g hi hn f hf _ ν => ?_⟩
  exact ⟨i, g, hi, hn, List.ne_nil_of_mem hf, rfl,
    fun μ => Literal.values_of_isSemiGrounded ((hv.goal i g hi).negation hn) μ ν⟩

omit [LawfulWeight W] in
/-- A negation has one goal, so the goal that asks for it is the one with facts. -/
theorem Valid.models_denials (hv : r.Valid V q.kb) : r.Models q (q.kb.theory r.denials) (fun _ => True) := by
  refine ⟨fun _ h => h, fun a ⟨w, hs⟩ => ⟨w, hs, fun _ => trivial⟩, fun p vs hd j g hj hp hvals => ?_, fun _ _ _ => trivial⟩
  obtain ⟨i, b, hi, hn, hne, hbp, hbv⟩ := hd
  have hg := hv.goal j g hj
  have hb := hv.goal i b hi
  have hgn : g.literal.isNegated = true := by rw [Literal.isNegated, hp, ← hbp]; exact hn
  have hvar : g.literal.variant = b.literal.variant :=
    Literal.variant_eq_of_values_eq (ν := fun _ => ⟨""⟩) hg.literal.isPlain hb.literal.isPlain (hg.negation hgn) (hb.negation hn)
      (hp.trans hbp.symm) ((hvals _).trans (hbv _).symm)
  obtain rfl := hv.goal_unique hj hi hvar
  rw [goal_eq hj hi]
  obtain ⟨f, hf⟩ := List.exists_mem_of_ne_nil _ hne
  exact ⟨f, hf, trivial⟩

/-- **The facts of a settled goal** are the stated ones it covers and, with certainty, what rules give of it where the
negations that have facts hold. -/
theorem Settled.mem_facts_iff (h : r.Settled q V) (hq : q.Regular V) {i : Nat} {g : Subgoal W}
    (hi : r.table.goal? i = some g) (hn : g.literal.isNegated = false) (c : Clause W) :
    c ∈ g.facts ↔ ∃ (a : Atom) (w : W), c = .fact (a.literal w) ∧ g.literal.Covers a ∧
      (q.kb.States a w ∨ w = 1 ∧ (q.kb.theory r.denials).Fires a) := by
  have hb := h.valid.backs_denials
  have hm := h.valid.models_denials
  have hg := h.valid.goal i g hi
  constructor
  · intro hc
    have hacc := hg.fact c hc
    obtain ⟨a, w, e, -, hcov, hs⟩ := hacc.positive hn
    refine ⟨a, w, by rw [← e]; exact hacc.eq_fact, hcov, hs.imp_right ?_⟩
    rintro ⟨rfl, x, hx, ex⟩
    exact ⟨rfl, fires_of_instantiates (hg.grounded x hx) hb.rule (h.valid.confirms_body hq.kb hb hi hx) (ex.trans e)⟩
  · rintro ⟨a, w, rfl, hcov, hs | ⟨rfl, hfires⟩⟩
    · exact h.mem_facts_of_states hq hi hs hcov
    · exact (h.complete_fires hq hm hfires hi hcov).1

end Run

namespace Solver

variable [LawfulWeight W]

/-- The answers to a positive query: the facts of its goal in a settled table. -/
theorem solve_positive {s : Solver W} {V : Vocabulary W} (hkb : s.kb.Regular V)
    (hneg : ∀ c ∈ s.kb.rules.clauses, ∀ l ∈ c.body, l.isNegated = false) (hcap : s.storeCapacity = none)
    (hmax : s.settings.maxSamples = none) {n : Nat} {l : Literal W} (hl : V.HasLiteral n l) (hln : l.isNegated = false) :
    ∃ steps answers, (∀ patience, steps ≤ patience →
        (({ s with patience := patience } : Solver W).solve l none).1 = .ok answers) ∧
      (answers.map Clause.key).Nodup ∧
      ∀ c, c ∈ answers ↔ (c ∈ s.kb.facts.clauses ∧ (l.unify c.head).isSome = true) ∨
        ∃ a : Atom, c = .fact (a.literal 1) ∧ (l.unify c.head).isSome = true ∧ s.kb.positiveTheory.Fires a := by
  have hnn : l.isNegated = true → l.isSemiGrounded = true := fun h => by rw [hln] at h; cases h
  obtain ⟨steps, r, hgrow, hagenda, hstart⟩ := settles hkb hcap hl hnn
  obtain ⟨g, hi, hgl⟩ := exists_root hgrow
  have hq : s.query.Regular V := ⟨hkb, hcap, rfl⟩
  have hset := hagenda.settled
  have hg := hset.valid.goal 0 g hi
  refine ⟨steps, g.facts, fun patience hp => ?_, hg.store.nodup, fun c => ?_⟩
  · have hnone : (none <|> s.settings.maxSamples) = none := by rw [hmax]; rfl
    simp only [solve, hnone, hstart patience hp]
    rw [Table.facts, hi]
    rfl
  · have hgn : g.literal.isNegated = false := by
      rw [hgl]
      exact hln
    have hfires := KnowledgeBase.fires_iff_of_positive hneg r.denials (fun _ _ => False)
    have hcov : ∀ a : Atom, g.literal.Covers a ↔ l.Covers a := fun a => by rw [hgl]; exact asked_covers_iff a
    rw [hset.mem_facts_iff hq hi hgn]
    constructor
    · rintro ⟨a, w, rfl, ha, hs | ⟨rfl, hs⟩⟩
      · refine .inl ⟨hs, ?_⟩
        exact (Literal.unify_literal_isSome_iff hl.wellFormed (hkb.of_states hs).1.wellFormed_atom).2 ((hcov a).1 ha)
      · refine .inr ⟨a, rfl, ?_, (hfires a).1 hs⟩
        exact (Literal.unify_literal_isSome_iff hl.wellFormed (hkb.wellFormed_of_fires hs)).2 ((hcov a).1 ha)
    · rintro (⟨hc, hu⟩ | ⟨a, rfl, hu, hs⟩)
      · obtain ⟨a, w, rfl, -, -, -, hiff⟩ := hkb.fact_covers_iff hl hc
        exact ⟨a, w, rfl, (hcov a).2 (hiff.1 hu), .inl hc⟩
      · refine ⟨a, 1, rfl, (hcov a).2 ?_, .inr ⟨rfl, (hfires a).2 hs⟩⟩
        exact (Literal.unify_literal_isSome_iff hl.wellFormed (hkb.wellFormed_of_fires hs)).1 hu

/-- **Tabled resolution computes the least model.**  Over a knowledge base that was built from plain clauses and texts,
without primitives, negations and wildcards in the heads of rules, a solver with no bound on answers and stores gives
all answers to a positive query once it has patience enough: each once, the stated facts that meet the query, and the
certain atoms that meet it and that some rule gives in the least model. -/
theorem solve_leastModel {s : Solver W} (hb : s.kb.Built)
    (hprim : ∀ c ∈ s.kb.rules.clauses, ∀ l ∈ c.body, l.isPrimitive = false)
    (hneg : ∀ c ∈ s.kb.rules.clauses, ∀ l ∈ c.body, l.isNegated = false)
    (hwild : ∀ c ∈ s.kb.rules.clauses, ∀ t ∈ c.head.terms, t.isWildcard = false)
    (hcap : s.storeCapacity = none) (hmax : s.settings.maxSamples = none) {l : Literal W} (hl : l.isPlain = true)
    (hlp : l.isPrimitive = false) (hln : l.isNegated = false) :
    ∃ steps answers, (∀ patience, steps ≤ patience →
        (({ s with patience := patience } : Solver W).solve l none).1 = .ok answers) ∧
      (answers.map Clause.key).Nodup ∧
      ∀ c, c ∈ answers ↔ (c ∈ s.kb.facts.clauses ∧ (l.unify c.head).isSome = true) ∨
        ∃ a : Atom, c = .fact (a.literal 1) ∧ (l.unify c.head).isSome = true ∧ s.kb.positiveTheory.Fires a := by
  obtain ⟨V, hreg, n, hlit⟩ := hb.kept.regular hprim hwild hl hlp
  exact solve_positive hreg hneg hcap hmax hlit hln

end Solver

/-! ## One edge

A program with a weighted edge and a rule that makes a path of every edge. -/

namespace OneEdge

def fact (w : ℚ) : Clause ℚ := .fact ⟨w, ⟨"edge", 2⟩, [.const ⟨"a"⟩, .const ⟨"b"⟩]⟩

def rule : Clause ℚ :=
  ⟨⟨1, ⟨"path", 2⟩, [.var ⟨0, false⟩, .var ⟨1, false⟩]⟩, [⟨1, ⟨"edge", 2⟩, [.var ⟨0, false⟩, .var ⟨1, false⟩]⟩]⟩

def kb (w : ℚ) : KnowledgeBase ℚ := (((KnowledgeBase.empty .empty).storeFact (fact w)).2.keepRule rule).2

/-- Which paths lead from `a`? -/
def query : Literal ℚ := ⟨1, ⟨"path", 2⟩, [.const ⟨"a"⟩, .var ⟨0, false⟩]⟩

def path : Atom := ⟨⟨"path", 2⟩, [⟨"a"⟩, ⟨"b"⟩]⟩

theorem facts_eq (w : ℚ) : (kb w).facts = Shelf.empty.push (fact w) := by
  simp only [kb, KnowledgeBase.storeFact, KnowledgeBase.keepRule, KnowledgeBase.empty, Std.HashSet.contains_empty,
    Bool.false_eq_true, if_false]
  split
  · rfl
  · rfl

theorem unseen (w : ℚ) :
    ((KnowledgeBase.empty .empty).storeFact (fact w)).2.seen.contains rule.key = false := by
  simp only [KnowledgeBase.storeFact, KnowledgeBase.empty, Std.HashSet.contains_empty, Bool.false_eq_true, if_false]
  rw [Std.HashSet.contains_insert, Std.HashSet.contains_empty, Bool.or_false, beq_eq_false_iff_ne]
  intro e
  cases congrArg Prod.fst e

theorem rules_eq (w : ℚ) : (kb w).rules = Shelf.empty.push rule := by
  have hcert : rule.head.isCertain = true := rfl
  simp only [kb, KnowledgeBase.keepRule, unseen, hcert, Bool.false_eq_true, if_false, if_true]
  simp only [KnowledgeBase.storeRule, KnowledgeBase.storeFact, KnowledgeBase.empty, Std.HashSet.contains_empty,
    Bool.false_eq_true, if_false]

theorem facts (w : ℚ) : (kb w).facts.clauses = [fact w] := by
  rw [facts_eq]
  rfl

theorem rules (w : ℚ) : (kb w).rules.clauses = [rule] := by
  rw [rules_eq]
  rfl

theorem fact_plain (w : ℚ) : (fact w).isPlain = true := by
  have hname : (fact w).head.predicate.isPlain = true := (by decide : (⟨"edge", 2⟩ : Predicate).isPlain = true)
  have hterms : (fact w).head.terms.all Term.isPlain = true :=
    (by decide : [Term.const ⟨"a"⟩, Term.const ⟨"b"⟩].all Term.isPlain = true)
  simp only [Clause.isPlain, Literal.isPlain, hname, hterms]
  rfl

theorem tell_fact {w : ℚ} (hw : 0 < w ∧ w ≤ 1) :
    (KnowledgeBase.empty .empty).tell (fact w) = .ok (true, ((KnowledgeBase.empty .empty).storeFact (fact w)).2) := by
  have hneg : (fact w).head.isNegated = false := (by decide : (⟨"edge", 2⟩ : Predicate).isNegated = false)
  have hprim : (fact w).head.isPrimitive = false := (by decide : (⟨"edge", 2⟩ : Predicate).isPrimitive = false)
  refine KnowledgeBase.tell_eq_ok_iff.2 (.inr ⟨hprim, ⟨hneg, decide_eq_true hw, fun _ hl => by cases hl⟩,
    .inl ⟨rfl, rfl, Prod.ext ?_ rfl⟩⟩)
  simp only [KnowledgeBase.storeFact, KnowledgeBase.empty, Std.HashSet.contains_empty, Bool.false_eq_true, if_false]

theorem tell_rule (w : ℚ) :
    ((KnowledgeBase.empty .empty).storeFact (fact w)).2.tell rule = .ok (true, kb w) := by
  have hcert : rule.head.isCertain = true := rfl
  refine KnowledgeBase.tell_eq_ok_iff.2 (.inr ⟨rfl, ⟨rfl, rfl, fun l hl => ?_⟩,
    .inr ⟨List.cons_ne_nil _ _, rfl, rule, rfl, Prod.ext ?_ rfl⟩⟩)
  · rw [List.mem_singleton.1 hl]
    rfl
  · simp only [KnowledgeBase.keepRule, unseen, hcert, Bool.false_eq_true, if_false, if_true]

theorem tellAll {w : ℚ} (hw : 0 < w ∧ w ≤ 1) : (KnowledgeBase.empty .empty).tellAll [fact w, rule] = (.ok 2, kb w) :=
  KnowledgeBase.tellAll_cons_eq_ok_iff.2 ⟨true, _, 1, tell_fact hw,
    KnowledgeBase.tellAll_cons_eq_ok_iff.2 ⟨true, _, 0, tell_rule w, rfl, rfl⟩, rfl⟩

theorem built {w : ℚ} (hw : 0 < w ∧ w ≤ 1) : (kb w).Built :=
  .tell (.tell (.empty .empty) (fact_plain w) (tell_fact hw)) rfl (tell_rule w)

theorem fires (w : ℚ) : (kb w).positiveTheory.Fires path := by
  refine ⟨rule, fun v => if v.id = 0 then ⟨"a"⟩ else ⟨"b"⟩, fun _ => ⟨⟨"edge", 2⟩, [⟨"a"⟩, ⟨"b"⟩]⟩,
    ⟨?_, ⟨rfl, .cons (.inr rfl) (.cons (.inr rfl) .nil)⟩, fun l hl _ => ?_, fun l hl hn => ?_⟩, fun l _ _ => .fact ⟨w, ?_⟩⟩
  · show rule ∈ (kb w).rules.clauses
    rw [rules]
    exact List.mem_cons_self
  · rw [List.mem_singleton.1 hl]
    exact ⟨rfl, .cons (.inr rfl) (.cons (.inr rfl) .nil)⟩
  · rw [List.mem_singleton.1 hl] at hn
    cases hn
  · show fact w ∈ (kb w).facts.clauses
    rw [facts]
    exact List.mem_cons_self

end OneEdge

namespace Solver

/-- The only path from `a` is the one to `b`. -/
theorem solve_leastModel_oneEdge : ∃ steps answers, (∀ patience, steps ≤ patience →
      (({ Solver.new (OneEdge.kb 1) .default with patience := patience } : Solver ℚ).solve OneEdge.query none).1 =
        .ok answers) ∧ .fact (OneEdge.path.literal 1) ∈ answers := by
  have hrule : ∀ {c : Clause ℚ}, c ∈ (OneEdge.kb 1).rules.clauses → c = OneEdge.rule := by
    intro c hc
    rw [OneEdge.rules] at hc
    exact List.mem_singleton.1 hc
  obtain ⟨steps, answers, h1, -, h2⟩ := solve_leastModel (s := Solver.new (OneEdge.kb 1) .default) (l := OneEdge.query)
    (OneEdge.built (by norm_num)) (fun c hc => by rw [hrule hc]; decide) (fun c hc => by rw [hrule hc]; decide)
    (fun c hc => by rw [hrule hc]; decide) rfl rfl rfl rfl rfl
  exact ⟨steps, answers, h1, (h2 _).2 (.inr ⟨OneEdge.path, rfl, by decide, OneEdge.fires 1⟩)⟩

end Solver
end Credence
