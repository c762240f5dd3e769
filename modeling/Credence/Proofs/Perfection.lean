import Credence.Proofs.Answers
import Credence.Proofs.Strata
/-!
# Tables of programs with negations

A run decides a negation once and does not take the decision back, while its base may still get facts.  What a finished
table says is therefore right in the layers up to which its negations are right (`Settled.holds_iff`).
-/
namespace Credence

namespace Run

variable {W : Type} [Weight W] {q : Query W} {V : Vocabulary W} {r : Run W} {layer : Predicate → Nat} {n : Nat}
  {T : Theory W} {M : Atom → Prop} {leaf : String → Prop}

/-- The theory has the rules of the program, and of its facts those that are leaves. -/
structure Speaks (kb : KnowledgeBase W) (T : Theory W) (leaf : String → Prop) : Prop where
  rule : ∀ c, T.rule c ↔ c ∈ kb.rules.clauses
  fact : ∀ a, T.fact a ↔ ∃ w, kb.States a w ∧ leaf (a.literal w).id

/-- Up to a layer the negations with a leaf are those that hold in the set. -/
def Denies (r : Run W) (layer : Predicate → Nat) (M : Atom → Prop) (leaf : String → Prop) (n : Nat) : Prop :=
  ∀ i g, r.table.goal? i = some g → g.literal.isNegated = true → depth layer g.literal.predicate ≤ n → ∀ ν,
    (∃ f ∈ g.facts, leaf f.head.id) ↔ Unless M g.literal.predicate (g.literal.values ν)

/-- What the asserted leaves lead to. -/
def Reaches (r : Run W) (leaf : String → Prop) : String → Prop :=
  Supported r.table.Completed (fun id => leaf id ∧ r.table.Asserts id)

/-- The literals with the id stand in a layer up to `n`. -/
def Low (layer : Predicate → Nat) (n : Nat) (id : String) : Prop :=
  ∀ l : Literal W, l.isPlain = true → l.id = id → depth layer l.predicate ≤ n

omit [Weight W] in
theorem low_id [Weight W] {l : Literal W} (hl : l.isPlain = true) (h : depth layer l.predicate ≤ n) :
    Low (W := W) layer n l.id := by
  intro m hm e
  rw [Literal.predicate_eq_of_id_eq hm hl e]
  exact h

/-- A completed rule is about positive atoms. -/
theorem Valid.completed_head (hv : r.Valid V q.kb) (hkb : q.kb.Regular V) {c : Clause W} (hc : r.table.Completed c) :
    c.head.isPlain = true ∧ c.head.isNegated = false := by
  obtain ⟨i, g, hi, hc⟩ := hc
  have hinst := (hv.goal i g hi).grounded c hc
  obtain ⟨a, ha, -, rule, hrule, μ, hadm, -⟩ := hinst.trace
  refine ⟨hinst.literal.isPlain, ?_⟩
  rw [ha, Literal.isNegated, show (a.literal (1 : W)).predicate = rule.head.predicate from hadm.1.symm]
  exact (hkb.rule rule hrule).positive

/-- The body of a completed rule stands no higher than its head. -/
theorem Valid.completed_depth (hv : r.Valid V q.kb) (hT : T.Layered layer) (hs : Speaks q.kb T leaf) {c : Clause W}
    (hc : r.table.Completed c) {l : Literal W} (hl : l ∈ c.body) :
    l.isPlain = true ∧ depth layer l.predicate ≤ layer c.head.predicate := by
  obtain ⟨i, g, hi, hc⟩ := hc
  have hinst := (hv.goal i g hi).grounded c hc
  obtain ⟨a, ha, -, rule, hrule, μ, hadm, hmeets⟩ := hinst.trace
  obtain ⟨b, hb, hm⟩ := forall₂_exists_right hmeets hl
  refine ⟨(hinst.body l hl).literal.isPlain, ?_⟩
  rw [hm.predicate, ha, show (a.literal (1 : W)).predicate = rule.head.predicate from hadm.1.symm]
  exact hT rule ((hs.rule rule).2 hrule) b hb

/-- What is reached in a layer is reached from leaves up to that layer. -/
theorem Valid.reaches_low (hv : r.Valid V q.kb) (hkb : q.kb.Regular V) (hT : T.Layered layer) (hs : Speaks q.kb T leaf)
    {id : String} (h : r.Reaches leaf id) (hlow : Low (W := W) layer n id) :
    r.Reaches (fun id => leaf id ∧ Low (W := W) layer n id) id := by
  induction h with
  | leaf h => exact .leaf ⟨⟨h.1, hlow⟩, h.2⟩
  | @rule c hc _ ih =>
    refine .rule hc (fun l hl => ih l hl ?_)
    obtain ⟨hplain, hneg⟩ := hv.completed_head hkb hc
    obtain ⟨hlplain, hle⟩ := hv.completed_depth hT hs hc hl
    refine low_id hlplain (hle.trans ?_)
    rw [← depth_of_positive layer hneg]
    exact hlow c.head hplain rfl

/-- The facts of a negation are asserted: no rule gives them. -/
theorem Valid.asserts_of_negated (hv : r.Valid V q.kb) (hkb : q.kb.Regular V) {i : Nat} {g : Subgoal W}
    (hi : r.table.goal? i = some g) (hn : g.literal.isNegated = true) {f : Clause W} (hf : f ∈ g.facts) :
    r.table.Asserts f.head.id := by
  obtain ⟨hres, hp⟩ := hv.resolved hi hf
  have key : ∀ id, r.table.Founded id → id = f.head.id → r.table.Asserts id := by
    intro id h e
    cases h with
    | leaf h => exact h
    | @rule c hc _ =>
      obtain ⟨hplain, hpos⟩ := hv.completed_head hkb hc
      rw [Literal.isNegated_of_id_eq hplain hres.literal.isPlain e, Literal.isNegated, hp] at hpos
      rw [Literal.isNegated, hpos] at hn
      cases hn
  exact key _ ((hv.goal i g hi).founded f hf) rfl

variable [LawfulWeight W]

/-- What is reached up to a layer holds, when the negations up to that layer do. -/
theorem Settled.holds_of_reaches (h : r.Settled q V) (hq : q.Regular V) (hs : Speaks q.kb T leaf) (hT : T.Layered layer)
    (hd : r.Denies layer M leaf n) {i : Nat} {g : Subgoal W} (hi : r.table.goal? i = some g)
    (hn : g.literal.isNegated = false) (hle : layer g.literal.predicate ≤ n) {a : Atom} {w : W}
    (hf : .fact (a.literal w) ∈ g.facts) (hr : r.Reaches leaf (a.literal w).id) : (T.against M).Holds a := by
  obtain ⟨hres, hp⟩ := h.valid.resolved hi hf
  have hp : (a.literal w).predicate = g.literal.predicate := hp
  have hlow : Low (W := W) layer n (a.literal w).id := by
    refine low_id hres.literal.isPlain ?_
    rw [hp, depth_of_positive layer hn]
    exact hle
  have hback : r.Backs q.kb (T.against M) (fun id => (leaf id ∧ Low (W := W) layer n id) ∧ r.table.Asserts id) := by
    refine ⟨fun _ hid => hid.2, fun c hc => (hs.rule c).2 hc, fun b v hb hid => (hs.fact b).2 ⟨v, hb, hid.1.1⟩,
      fun j b hj hbn f hfb hid ν => ?_⟩
    obtain ⟨hfres, hfp⟩ := h.valid.resolved hj hfb
    exact (hd j b hj hbn (hfp ▸ hid.1.2 f.head hfres.literal.isPlain rfl) ν).1 ⟨f, hfb, hid.1.1⟩
  have hconf := h.valid.sound hq.kb hback (h.valid.reaches_low hq.kb hT hs hr hlow) _ hres rfl
  have hpos : (a.literal w).isNegated = false := by
    rw [Literal.isNegated, hp]
    exact hn
  exact hconf.atom hpos a w rfl

omit [LawfulWeight W] in
theorem Settled.models (h : r.Settled q V) (hq : q.Regular V) (hs : Speaks q.kb T leaf) (hd : r.Denies layer M leaf n) :
    r.Models q (T.upTo layer n M) (r.Reaches leaf) := by
  refine ⟨fun c hc => (hs.rule c).1 hc, fun a ha => ?_, fun p vs ⟨hn, hle, hu⟩ j g hj hp hv => ?_,
    fun c hc hbody => .rule hc hbody⟩
  · obtain ⟨w, hw, hleaf⟩ := (hs.fact a).1 ha
    exact ⟨w, hw, fun has => .leaf ⟨hleaf, has⟩⟩
  · have hgn : g.literal.isNegated = true := by rw [Literal.isNegated, hp]; exact hn
    obtain ⟨f, hf, hleaf⟩ := (hd j g hj hgn (hp ▸ hle) (fun _ => ⟨""⟩)).2 (by rw [hp, hv]; exact hu)
    exact ⟨f, hf, .leaf ⟨hleaf, h.valid.asserts_of_negated hq.kb hj hgn hf⟩⟩

/-- **A settled table is right up to a layer when its negations are**: an atom that a goal covers is reached from the
leaves exactly when it is in the stable set. -/
theorem Settled.holds_iff (h : r.Settled q V) (hq : q.Regular V) (hs : Speaks q.kb T leaf) (hT : T.Layered layer)
    (hM : T.IsStable M) (hd : r.Denies layer M leaf n) {i : Nat} {g : Subgoal W} (hi : r.table.goal? i = some g)
    (hn : g.literal.isNegated = false) (hle : layer g.literal.predicate ≤ n) {a : Atom} (hcov : g.literal.Covers a) :
    (∃ w, .fact (a.literal w) ∈ g.facts ∧ r.Reaches leaf (a.literal w).id) ↔ M a := by
  have hpred : g.literal.predicate = a.predicate := hcov.elim (fun _ h => h.1)
  constructor
  · rintro ⟨w, hf, hr⟩
    exact (hM a).2 (h.holds_of_reaches hq hs hT hd hi hn hle hf hr)
  · intro ha
    exact h.complete hq (h.models hq hs hd) (hT.holds_upTo ((hM a).1 ha) (hpred ▸ hle)) i g hi hcov

/-! ## Decisions -/

/-- The goal `j` is about what the negation of the goal `i` negates. -/
structure Opposes (r : Run W) (i j : Nat) (g b : Subgoal W) : Prop where
  goal    : r.table.goal? i = some g
  negated : g.literal.isNegated = true
  base    : r.table.goal? j = some b
  literal : ∃ l, g.literal.negate = .ok l ∧ b.literal.variant = l.variant

section Opposes

omit [LawfulWeight W]

variable {i j : Nat} {g b : Subgoal W}

theorem Opposes.predicate (h : r.Opposes i j g b) (hv : r.Valid V q.kb) :
    b.literal.predicate = g.literal.predicate.positive ∧ b.literal.isNegated = false := by
  obtain ⟨l, hneg, hvar⟩ := h.literal
  obtain ⟨l', hneg', hshape, hpos, hlit⟩ := (hv.goal i g h.goal).literal.negate h.negated
  rw [hneg] at hneg'
  injection hneg' with hneg'
  subst hneg'
  have hp : b.literal.predicate = l.predicate :=
    (Literal.shape_eq_of_variant_eq (hv.goal j b h.base).literal.isPlain hlit.isPlain hvar).1
  refine ⟨by rw [hp, hshape]; rfl, ?_⟩
  rw [Literal.isNegated, hp]
  exact hpos

/-- The base of a negation stands below. -/
theorem Opposes.depth_eq (h : r.Opposes i j g b) (hv : r.Valid V q.kb) :
    depth layer g.literal.predicate = layer b.literal.predicate + 1 := by
  rw [depth_of_negated h.negated, (h.predicate hv).1]

/-- The atoms that the goal of a base covers are the instances of what is negated. -/
theorem Opposes.covers_iff (h : r.Opposes i j g b) (hv : r.Valid V q.kb) (ν : Valuation) (a : Atom) :
    b.literal.Covers a ↔ a.predicate = g.literal.predicate.positive ∧ List.Forall₂ Allows (g.literal.values ν) a.args := by
  obtain ⟨l, hneg, hvar⟩ := h.literal
  have hg := hv.goal i g h.goal
  obtain ⟨l', hneg', hshape, -, hlit⟩ := hg.literal.negate h.negated
  rw [hneg] at hneg'
  injection hneg' with hneg'
  subst hneg'
  have hp : l.predicate = g.literal.predicate.positive := by
    rw [hshape]
    rfl
  have hvals : ∀ μ, l.values μ = g.literal.values ν := fun μ => by
    rw [← Literal.values_of_isSemiGrounded (hg.negation h.negated) μ ν, hshape]
    rfl
  rw [Literal.covers_iff_of_variant_eq (hv.goal j b h.base).literal.isPlain hlit.isPlain hvar]
  constructor
  · rintro ⟨μ, h1, h2⟩
    exact ⟨h1.symm.trans hp, hvals μ ▸ h2⟩
  · rintro ⟨h1, h2⟩
    exact ⟨ν, hp.trans h1.symm, (hvals ν).symm ▸ h2⟩

theorem Opposes.unless_iff (h : r.Opposes i j g b) (hv : r.Valid V q.kb) (ν : Valuation) :
    Unless M g.literal.predicate (g.literal.values ν) ↔ ∀ a, b.literal.Covers a → ¬ M a := by
  refine forall_congr' (fun a => ?_)
  rw [h.covers_iff hv ν, and_imp]

/-- **In the end every negation has been decided once**, and has the one fact that the decision gave or none. -/
theorem Agenda.exists_decision (h : r.Agenda q V []) (hi : r.table.goal? i = some g) (hn : g.literal.isNegated = true) :
    ∃ r₀ j b₀ b base outcome, r₀.Valid V q.kb ∧ r₀.Provided q ∧ r₀.Grows r ∧ r₀.table.goal? j = some b₀ ∧ r.Opposes i j g b ∧
      b₀.Grows b ∧ g.literal.negate = .ok base ∧ Outcome q r₀ r g b₀ base outcome ∧ g.facts = outcome.toList := by
  rcases h.covered (.deny i) ⟨g, hi, hn⟩ with hdid | ⟨t, ht, -⟩
  · obtain ⟨outcome, ⟨r₀, j, g₀, b₀, base, hv, hp, hgrow, hg₀, hb, hgn, hneg, hvar, hout⟩, g', hi', hsome, hnone⟩ := hdid
    obtain rfl := goal_eq hi' hi
    obtain ⟨g'', hg'', hgg⟩ := hgrow.goal i g₀ hg₀
    obtain rfl := goal_eq hg'' hi
    obtain ⟨b, hb', hbb⟩ := hgrow.goal j b₀ hb
    have hst := h.staked i g'' hi hn
    rw [List.map_nil, List.sum_nil, Nat.zero_add, Table.stake] at hst
    refine ⟨r₀, j, b₀, b, base, outcome, hv, hp, hgrow, hb,
      ⟨hi, hn, hb', base, hgg.literal ▸ hneg, hbb.literal ▸ hvar⟩, hbb, hgg.literal ▸ hneg, ?_, ?_⟩
    · cases hout with
      | certain he => exact hgg.literal ▸ .certain he
      | dropped he hd => exact .dropped he hd
      | weighted he hd hl hent => exact .weighted he hd (hgg.literal ▸ hl) hent
    · cases outcome with
      | none =>
        rw [hnone rfl, if_pos rfl] at hst
        exact List.length_eq_zero_iff.1 (by omega)
      | some f =>
        have hf := hsome f rfl
        obtain ⟨x, hx⟩ := List.length_eq_one_iff.1 (le_antisymm (by omega) (List.length_pos_of_mem hf))
        rw [hx, List.mem_singleton] at hf
        rw [hx, hf]
        rfl
  · cases ht

end Opposes

/-! ## Certain programs -/

/-- No negation was accepted that has a fact against it. -/
def Consistent (r : Run W) : Prop := ∀ i j g b, r.Opposes i j g b → g.facts = [] ∨ b.facts = []

omit [LawfulWeight W] in
/-- Nothing stands against a negation that is about nothing stated and no head. -/
theorem Valid.facts_of_unstated (hv : r.Valid V q.kb) (h : ∀ p ∈ V.predicates, p.isNegated = true →
    ∀ c ∈ q.kb.facts.clauses ++ q.kb.rules.clauses, c.head.predicate ≠ p.positive) {i j : Nat} {g b : Subgoal W}
    (hop : r.Opposes i j g b) : b.facts = [] := by
  refine List.eq_nil_iff_forall_not_mem.2 (fun f hf => ?_)
  have hb := hv.goal j b hop.base
  obtain ⟨hp, hn⟩ := hop.predicate hv
  have hno := h _ (hv.goal i g hop.goal).literal.predicate hop.negated
  obtain ⟨a, w, -, -, ⟨ν, hcov, -⟩, hs | ⟨-, c, hc, e⟩⟩ := (hb.fact f hf).positive hn
  · exact hno _ (List.mem_append_left _ hs) (hcov.symm.trans hp)
  · obtain ⟨a', -, ⟨κ, hcov', -⟩, rule, hrule, μ, hadm, -⟩ := (hb.grounded c hc).trace
    exact hno rule (List.mem_append_right _ hrule) ((hadm.1.trans hcov'.symm).trans hp)

omit [LawfulWeight W] in
/-- What everything asserted leads to is what has been found. -/
theorem Valid.reaches_true (hv : r.Valid V q.kb) {i : Nat} {g : Subgoal W} (hi : r.table.goal? i = some g) {f : Clause W}
    (hf : f ∈ g.facts) : r.Reaches (fun _ => True) f.head.id :=
  ((hv.goal i g hi).founded f hf).mono (fun _ hc => hc) (fun _ hid => ⟨trivial, hid⟩)

/-- **A finished table without contradiction denies what is not in the perfect model.** -/
theorem Agenda.denies (h : r.Agenda q V []) (hq : q.Regular V) (hc : r.Consistent) (hs : Speaks q.kb T (fun _ => True))
    (hT : T.Layered layer) (hM : T.IsStable M) : ∀ n, r.Denies layer M (fun _ => True) n := by
  intro n
  induction n with
  | zero =>
    intro i g _ hn hle
    rw [depth_of_negated hn] at hle
    omega
  | succ n ih =>
    intro i g hi hn hle ν
    obtain ⟨r₀, j, b₀, b, base, outcome, -, -, -, -, hop, hbb, -, hout, hfacts⟩ := h.exists_decision hi hn
    have hbn := (hop.predicate h.valid).2
    have hlow : layer b.literal.predicate ≤ n := by
      rw [hop.depth_eq h.valid] at hle
      omega
    rw [hop.unless_iff h.valid]
    constructor
    · rintro ⟨f, hf, -⟩ a hcov ha
      obtain ⟨w, hw, -⟩ := (h.settled.holds_iff hq hs hT hM ih hop.base hbn hlow hcov).2 ha
      rcases hc i j g b hop with he | he
      · exact absurd hf (he ▸ List.not_mem_nil)
      · exact absurd hw (he ▸ List.not_mem_nil)
    · intro hno
      have hempty : b₀.facts = [] := by
        refine List.eq_nil_iff_forall_not_mem.2 (fun f hf => ?_)
        have hf' := hbb.facts f hf
        have hacc := (h.valid.goal j b hop.base).fact f hf'
        obtain ⟨a, w, ha, -, hcov, -⟩ := hacc.positive hbn
        have hfact : f = .fact (a.literal w) := by rw [← ha]; exact hacc.eq_fact
        refine hno a hcov ((h.settled.holds_iff hq hs hT hM ih hop.base hbn hlow hcov).1 ⟨w, hfact ▸ hf', ?_⟩)
        exact ha ▸ h.valid.reaches_true hop.base hf'
      cases hout with
      | certain _ => exact ⟨.fact g.literal, by rw [hfacts]; exact List.mem_singleton.2 rfl, trivial⟩
      | dropped he _ => exact absurd hempty he
      | weighted he _ _ _ => exact absurd hempty he

end Run

namespace KnowledgeBase

variable {W : Type} [Weight W] {kb : KnowledgeBase W} {V : Vocabulary W}

theorem speaks (kb : KnowledgeBase W) : Run.Speaks kb kb.positiveTheory (fun _ => True) :=
  ⟨fun _ => Iff.rfl, fun _ => ⟨fun ⟨w, h⟩ => ⟨w, h, trivial⟩, fun ⟨w, h, _⟩ => ⟨w, h⟩⟩⟩

theorem Regular.wellFormed_of_holds (h : kb.Regular V) {denied : Predicate → List (Option Constant) → Prop} {a : Atom}
    (ha : (kb.theory denied).Holds a) : a.WellFormed := by
  cases ha with
  | fact hf =>
    obtain ⟨w, hf⟩ := hf
    exact (h.of_states hf).1.wellFormed_atom
  | rule hi hb => exact h.wellFormed_of_fires ⟨_, _, _, hi, hb⟩

end KnowledgeBase

namespace Run

variable {W : Type} [Weight W] [LawfulWeight W] {q : Query W} {V : Vocabulary W} {r : Run W} {layer : Predicate → Nat}
  {M : Atom → Prop} {i : Nat} {g : Subgoal W}

/-- **The facts of a positive goal**, where all facts of the program are certain, are its atoms in the perfect model. -/
theorem Agenda.mem_facts_iff (h : r.Agenda q V []) (hq : q.Regular V) (hc : r.Consistent)
    (hcert : ∀ c ∈ q.kb.facts.clauses, c.head.isCertain = true) (hT : q.kb.positiveTheory.Layered layer)
    (hM : q.kb.positiveTheory.IsStable M) (hi : r.table.goal? i = some g) (hn : g.literal.isNegated = false) (c : Clause W) :
    c ∈ g.facts ↔ ∃ a : Atom, c = .fact (a.literal 1) ∧ g.literal.Covers a ∧ M a := by
  have hd := h.denies hq hc q.kb.speaks hT hM (layer g.literal.predicate)
  have hg := h.valid.goal i g hi
  have hone : ∀ {a : Atom} {w : W}, .fact (a.literal w) ∈ g.facts → w = 1 := by
    intro a w hf
    obtain ⟨a', w', e, -, -, hs | ⟨rfl, -⟩⟩ := (hg.fact _ hf).positive hn
    · obtain ⟨rfl, rfl⟩ := Atom.literal_inj e
      exact (LawfulWeight.isCertain_iff w).1 (hcert _ hs)
    · exact (Atom.literal_inj e).2
  constructor
  · intro hf
    have hacc := hg.fact c hf
    obtain ⟨a, w, e, -, hcov, -⟩ := hacc.positive hn
    have hfact : c = .fact (a.literal w) := by
      rw [← e]
      exact hacc.eq_fact
    subst hfact
    obtain rfl := hone hf
    exact ⟨a, rfl, hcov, (h.settled.holds_iff hq q.kb.speaks hT hM hd hi hn (Nat.le_refl _) hcov).1
      ⟨1, hf, h.valid.reaches_true hi hf⟩⟩
  · rintro ⟨a, rfl, hcov, ha⟩
    obtain ⟨w, hf, -⟩ := (h.settled.holds_iff hq q.kb.speaks hT hM hd hi hn (Nat.le_refl _) hcov).2 ha
    obtain rfl := hone hf
    exact hf

/-- **The facts of a negation**: itself, with certainty, where it holds in the perfect model. -/
theorem Agenda.facts_negated (h : r.Agenda q V []) (hq : q.Regular V) (hc : r.Consistent)
    (hT : q.kb.positiveTheory.Layered layer) (hM : q.kb.positiveTheory.IsStable M) (hi : r.table.goal? i = some g)
    (hn : g.literal.isNegated = true) (ν : Valuation) :
    (Unless M g.literal.predicate (g.literal.values ν) → g.facts = [.fact g.literal]) ∧
      (¬ Unless M g.literal.predicate (g.literal.values ν) → g.facts = []) := by
  have hd := h.denies hq hc q.kb.speaks hT hM (depth layer g.literal.predicate) i g hi hn (Nat.le_refl _) ν
  obtain ⟨r₀, j, b₀, b, base, outcome, -, -, -, -, hop, hbb, -, hout, hfacts⟩ := h.exists_decision hi hn
  refine ⟨fun hu => ?_, fun hu => List.eq_nil_iff_forall_not_mem.2 (fun f hf => hu (hd.1 ⟨f, hf, trivial⟩))⟩
  obtain ⟨f, hf, -⟩ := hd.2 hu
  -- a decision that was not certain stands against a fact
  have hagainst : ∀ {x : Clause W}, x ∈ b₀.facts → False := by
    intro x hx
    rcases hc i j g b hop with he | he
    · exact absurd hf (he ▸ List.not_mem_nil)
    · exact absurd (hbb.facts x hx) (he ▸ List.not_mem_nil)
  cases hout with
  | certain _ => exact hfacts
  | dropped he _ => exact (hagainst (List.exists_mem_of_ne_nil _ he).choose_spec).elim
  | weighted he _ _ _ => exact (hagainst (List.exists_mem_of_ne_nil _ he).choose_spec).elim

end Run

namespace Solver

variable {W : Type} [Weight W] [LawfulWeight W]

/-- **Negation as failure.**  Over a knowledge base that was built from plain clauses and texts, with certain facts and
without primitives and wildcards in the heads of rules, where no predicate rests on itself through a negation, there is
one perfect model.  A solver with no bound on answers and stores ends, and if it has accepted no negation that has a fact
against it in the end, it gives exactly the atoms of the perfect model that meet a positive query, and a negation exactly
where it holds there.

The condition on the run is sufficient, not necessary.  A run may accept a negation while what it negates is still being
searched for and get a fact against it afterwards, and then its answers may be wrong; but they may also be right, where
nothing rests on that negation, and of such runs nothing is said. -/
theorem solve_perfect {s : Solver W} (hb : s.kb.Built)
    (hprim : ∀ c ∈ s.kb.rules.clauses, ∀ l ∈ c.body, l.isPrimitive = false)
    (hwild : ∀ c ∈ s.kb.rules.clauses, ∀ t ∈ c.head.terms, t.isWildcard = false)
    (hcert : ∀ c ∈ s.kb.facts.clauses, c.head.isCertain = true) (hstrat : Stratified s.kb.rules.clauses)
    (hcap : s.storeCapacity = none) (hmax : s.settings.maxSamples = none) {l : Literal W} (hl : l.isPlain = true)
    (hlp : l.isPrimitive = false) (hsg : l.isNegated = true → l.isSemiGrounded = true) :
    ∃ M, s.kb.positiveTheory.IsStable M ∧ (∀ M', s.kb.positiveTheory.IsStable M' → ∀ a, M' a ↔ M a) ∧
      ∃ steps answers r, (∀ patience, steps ≤ patience → ({ s with patience := patience } : Solver W).solve l none =
          (.ok answers, { s with patience := patience, run := r })) ∧
        (r.Consistent →
          (l.isNegated = false → ∀ c, c ∈ answers ↔
            ∃ a : Atom, c = .fact (a.literal 1) ∧ (l.unify c.head).isSome = true ∧ M a) ∧
          (l.isNegated = true → ∀ ν, (Unless M l.predicate (l.values ν) → answers = [.fact (s.asked l)]) ∧
            (¬ Unless M l.predicate (l.values ν) → answers = []))) := by
  obtain ⟨V, hreg, n, hlit⟩ := hb.kept.regular hprim hwild hl hlp
  obtain ⟨layer, hlayer⟩ := stratified_iff.1 hstrat
  have hT : s.kb.positiveTheory.Layered layer := hlayer
  obtain ⟨M, hM, hunique⟩ := hT.exists_unique_stable
  obtain ⟨steps, r, hgrow, hagenda, hstart⟩ := settles hreg hcap hlit hsg
  obtain ⟨g, hi, hgl⟩ := exists_root hgrow
  have hq : s.query.Regular V := ⟨hreg, hcap, rfl⟩
  refine ⟨M, hM, hunique, steps, g.facts, r, fun patience hp => ?_, fun hc => ⟨fun hn c => ?_, fun hn ν => ?_⟩⟩
  · have hnone : (none <|> s.settings.maxSamples) = none := by rw [hmax]; rfl
    simp only [solve, hnone, hstart patience hp]
    rw [Table.facts, hi]
    rfl
  · have hgn : g.literal.isNegated = false := by
      rw [hgl]
      exact hn
    rw [hagenda.mem_facts_iff hq hc hcert hT hM hi hgn]
    refine exists_congr (fun a => and_congr_right (fun e => and_congr_left (fun ha => ?_)))
    have hwf : a.WellFormed := hreg.wellFormed_of_holds ((hM a).1 ha)
    rw [e, hgl, asked_covers_iff]
    exact (Literal.unify_literal_isSome_iff hlit.wellFormed hwf).symm
  · have hgn : g.literal.isNegated = true := by
      rw [hgl]
      exact hn
    have := hagenda.facts_negated hq hc hT hM hi hgn ν
    rw [hgl, asked_values (hsg hn) ν ν] at this
    exact this

end Solver

/-! ## A path that nothing bars -/

namespace OneEdge

/-- Who has a path passes, unless it is barred. -/
def pass : Clause ℚ :=
  ⟨⟨1, ⟨"pass", 2⟩, [.var ⟨0, false⟩, .var ⟨1, false⟩]⟩, [⟨1, ⟨"path", 2⟩, [.var ⟨0, false⟩, .var ⟨1, false⟩]⟩,
    ⟨1, ⟨"~barred", 1⟩, [.var ⟨1, false⟩]⟩]⟩

/-- The program with one edge, and nothing barred. -/
def passes : KnowledgeBase ℚ := ((kb 1).keepRule pass).2

/-- Who passes from `a`? -/
def passing : Literal ℚ := ⟨1, ⟨"pass", 2⟩, [.const ⟨"a"⟩, .var ⟨0, false⟩]⟩

def passed : Atom := ⟨⟨"pass", 2⟩, [⟨"a"⟩, ⟨"b"⟩]⟩

theorem unseen_pass : (kb 1).seen.contains pass.key = false := by
  have hcert : rule.head.isCertain = true := rfl
  simp only [kb, KnowledgeBase.keepRule, unseen, hcert, Bool.false_eq_true, if_false, if_true]
  simp only [KnowledgeBase.storeRule, KnowledgeBase.storeFact, KnowledgeBase.empty, Std.HashSet.contains_empty,
    Bool.false_eq_true, if_false, Std.HashSet.contains_insert, Bool.or_false, Bool.or_eq_false_iff, beq_eq_false_iff_ne]
  refine ⟨fun e => ?_, fun e => ?_, fun e => ?_⟩
  · cases congrArg Prod.fst e
  · cases congrArg Prod.fst e
  · cases congrArg Prod.fst e

theorem passes_eq : passes.facts = (kb 1).facts ∧ passes.rules = (kb 1).rules.push pass := by
  have hcert : pass.head.isCertain = true := rfl
  simp only [passes, KnowledgeBase.keepRule, unseen_pass, hcert, Bool.false_eq_true, if_false, if_true,
    KnowledgeBase.storeRule, and_self]

theorem mem_passes_facts {c : Clause ℚ} : c ∈ passes.facts.clauses ↔ c = fact 1 := by
  rw [passes_eq.1, facts, List.mem_singleton]

theorem mem_passes_rules {c : Clause ℚ} : c ∈ passes.rules.clauses ↔ c = pass ∨ c = rule := by
  rw [passes_eq.2, Shelf.mem_push, rules, List.mem_singleton]

theorem tell_pass : (kb 1).tell pass = .ok (true, passes) := by
  have hcert : pass.head.isCertain = true := rfl
  refine KnowledgeBase.tell_eq_ok_iff.2 (.inr ⟨rfl, ⟨rfl, rfl, fun l hl => ?_⟩,
    .inr ⟨List.cons_ne_nil _ _, rfl, pass, rfl, Prod.ext ?_ rfl⟩⟩)
  · have hbody : ∀ l ∈ pass.body, l.isCertain = true := by decide
    exact hbody l hl
  · simp only [KnowledgeBase.keepRule, unseen_pass, hcert, Bool.false_eq_true, if_false, if_true]

theorem passes_built : passes.Built := .tell (built (by norm_num)) rfl tell_pass

theorem passes_stratified : Stratified passes.rules.clauses := by
  refine stratified_iff.2 ⟨fun p => if p = ⟨"pass", 2⟩ then 1 else 0, fun c hc => ?_⟩
  rcases mem_passes_rules.1 hc with rfl | rfl
  · decide
  · decide

/-- Nothing is barred, so whoever has a path passes. -/
theorem passed_of_isStable {M : Atom → Prop} (hM : passes.positiveTheory.IsStable M) : M passed := by
  let ν : Valuation := fun v => if v.id = 0 then ⟨"a"⟩ else ⟨"b"⟩
  have hedge : M ⟨⟨"edge", 2⟩, [⟨"a"⟩, ⟨"b"⟩]⟩ := (hM _).2 (.fact ⟨1, mem_passes_facts.2 rfl⟩)
  have hedges : (passes.positiveTheory.against M).Instance rule ν (fun _ => ⟨⟨"edge", 2⟩, [⟨"a"⟩, ⟨"b"⟩]⟩) path := by
    refine ⟨mem_passes_rules.2 (.inr rfl), ⟨rfl, .cons (.inr rfl) (.cons (.inr rfl) .nil)⟩, fun l hl _ => ?_, fun l hl hn => ?_⟩
    · rw [List.mem_singleton.1 hl]
      exact ⟨rfl, .cons (.inr rfl) (.cons (.inr rfl) .nil)⟩
    · rw [List.mem_singleton.1 hl] at hn
      cases hn
  have hpath : (passes.positiveTheory.against M).Holds path := .rule hedges fun _ _ _ => (hM _).1 hedge
  have hbarred : ∀ a, a.predicate = ⟨"barred", 1⟩ → ¬ M a := by
    intro a ha hMa
    cases (hM a).1 hMa with
    | fact hf =>
      obtain ⟨w, hf⟩ := hf
      have := congrArg (fun c => c.head.predicate) (mem_passes_facts.1 hf)
      rw [show (Clause.fact (a.literal w)).head.predicate = a.predicate from rfl, ha] at this
      exact absurd this (by decide)
    | @rule c _ _ _ hi _ =>
      have hp : c.head.predicate = ⟨"barred", 1⟩ := hi.head.1.trans ha
      rcases mem_passes_rules.1 hi.rule with rfl | rfl
      · exact absurd hp (by decide)
      · exact absurd hp (by decide)
  have hpass : (passes.positiveTheory.against M).Instance pass ν (fun _ => path) passed := by
    refine ⟨mem_passes_rules.2 (.inl rfl), ⟨rfl, .cons (.inr rfl) (.cons (.inr rfl) .nil)⟩, fun l hl hn => ?_, fun l hl hn => ?_⟩
    · rcases List.mem_cons.1 hl with rfl | hl
      · exact ⟨rfl, .cons (.inr rfl) (.cons (.inr rfl) .nil)⟩
      · rw [List.mem_singleton.1 hl] at hn
        exact absurd hn (by decide)
    · rcases List.mem_cons.1 hl with rfl | hl
      · exact absurd hn (by decide)
      · rw [List.mem_singleton.1 hl]
        exact fun a ha _ => hbarred a (ha.trans (by decide))
  exact (hM passed).2 (.rule hpass fun _ _ _ => hpath)

theorem negated_word {p : Predicate} (h : ∃ l ∈ passes.literals passing, p = l.predicate ∨ p = l.predicate.positive)
    (hn : p.isNegated = true) : p = ⟨"~barred", 1⟩ := by
  obtain ⟨l, hl, hp⟩ := h
  have hmem : l ∈ [passing, (fact 1).head, rule.head, pass.head] ++ rule.body ++ pass.body := by
    rcases List.mem_cons.1 hl with rfl | hl
    · simp
    rcases List.mem_append.1 hl with hl | hl
    · obtain ⟨c, hc, rfl⟩ := List.mem_map.1 hl
      rw [mem_passes_facts.1 hc]
      simp
    · obtain ⟨c, hc, hl⟩ := List.mem_flatMap.1 hl
      rcases mem_passes_rules.1 hc with rfl | rfl
      · rcases List.mem_cons.1 hl with rfl | hl
        · simp
        · simp [hl]
      · rcases List.mem_cons.1 hl with rfl | hl
        · simp
        · simp [hl]
  have hall : ∀ l ∈ [passing, (fact 1).head, rule.head, pass.head] ++ rule.body ++ pass.body,
      (l.predicate.isNegated = true → l.predicate = ⟨"~barred", 1⟩) ∧ l.predicate.positive.isNegated = false := by
    decide
  rcases hp with rfl | rfl
  · exact (hall l hmem).1 hn
  · rw [(hall l hmem).2] at hn
    cases hn

end OneEdge

namespace Solver

/-- Who has a path from `a` passes, and the run accepts no negation that has a fact against it. -/
theorem solve_perfect_passes : ∃ steps answers, (∀ patience, steps ≤ patience →
      (({ Solver.new OneEdge.passes .default with patience := patience } : Solver ℚ).solve OneEdge.passing none).1 =
        .ok answers) ∧ .fact (OneEdge.passed.literal 1) ∈ answers := by
  have hclause : ∀ c ∈ OneEdge.passes.facts.clauses ++ OneEdge.passes.rules.clauses,
      c = OneEdge.fact 1 ∨ c = OneEdge.pass ∨ c = OneEdge.rule := by
    intro c hc
    rcases List.mem_append.1 hc with hc | hc
    · exact .inl (OneEdge.mem_passes_facts.1 hc)
    · exact .inr (OneEdge.mem_passes_rules.1 hc)
  have hprim : ∀ c ∈ OneEdge.passes.rules.clauses, ∀ l ∈ c.body, l.isPrimitive = false := by
    intro c hc
    rcases OneEdge.mem_passes_rules.1 hc with rfl | rfl
    · decide
    · decide
  have hwild : ∀ c ∈ OneEdge.passes.rules.clauses, ∀ t ∈ c.head.terms, t.isWildcard = false := by
    intro c hc
    rcases OneEdge.mem_passes_rules.1 hc with rfl | rfl
    · decide
    · decide
  have hcert : ∀ c ∈ OneEdge.passes.facts.clauses, c.head.isCertain = true := by
    intro c hc
    rw [OneEdge.mem_passes_facts.1 hc]
    rfl
  let s : Solver ℚ := Solver.new OneEdge.passes .default
  obtain ⟨M, hM, -, steps, answers, r, hrun, hanswers⟩ := solve_perfect (s := s) (l := OneEdge.passing)
    OneEdge.passes_built hprim hwild hcert OneEdge.passes_stratified rfl rfl rfl rfl (fun h => by cases h)
  obtain ⟨V, hreg, ⟨n, hlit⟩, hwords⟩ := OneEdge.passes_built.kept.exists_regular hprim hwild (q := OneEdge.passing) rfl rfl
  obtain ⟨steps', r', -, hagenda, hstart⟩ := settles (s := s) hreg rfl hlit (fun h => by cases h)
  have hsame : r = r' := by
    have h1 : (({ s with patience := max steps steps' } : Solver ℚ).start OneEdge.passing none).2.run = r :=
      congrArg (fun x => x.2.run) (hrun _ (Nat.le_max_left _ _))
    rw [hstart _ (Nat.le_max_right _ _)] at h1
    exact h1.symm
  refine ⟨steps, answers, fun patience hp => by rw [hrun patience hp], ?_⟩
  refine ((hanswers ?_).1 rfl _).2 ⟨OneEdge.passed, rfl, by decide, OneEdge.passed_of_isStable hM⟩
  rw [hsame]
  refine fun i j g b hop => .inr (hagenda.valid.facts_of_unstated (fun p hp hn c hc => ?_) hop)
  -- the only negation that the program and the query have a word for
  have hbarred : p = ⟨"~barred", 1⟩ := OneEdge.negated_word (hwords p hp) hn
  subst hbarred
  rcases hclause c hc with rfl | rfl | rfl
  · decide
  · decide
  · decide

end Solver
end Credence
