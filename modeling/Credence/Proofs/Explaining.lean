import Credence.Proofs.Legible
import Credence.Proofs.Outputs
import Credence.Proofs.Sampling
import Credence.Proofs.Probability
/-!
# Every answer is explained

Over a program in plain words, with negation, recursion and primitives of any kind, a run that ends well leaves a table
from which every answer can be proved.  Completed rules lead from asserted facts and from answers of primitives to every
fact of the table; the rules of a prover are the marked instances of the completed ones; and expanding an id gives a body
whenever there is a derivation at all.  What a proof rests on was asserted, is an answer of a primitive, or is a marked
rule weight (`Table.Grants`), never something that was only derived.
-/
namespace Credence

variable {W : Type} [Weight W]

/-- Some goal has the literal for an asserted fact. -/
def Table.HasAsserted (t : Table W) (l : Literal W) : Prop :=
  ∃ i g f, t.goal? i = some g ∧ f ∈ g.facts ∧ g.isAsserted f.head = true ∧ f.head.id = l.id

/-- What a proof may rest on: an asserted fact, an answer of a primitive, or the weight of a rule, marked with the number
of an instance. -/
def Table.Grants (t : Table W) (q : Query W) (l : Literal W) : Prop :=
  t.HasAsserted l ∨ q.Answered l.id ∨ ∃ n m, Prover.isRuleWeight m = true ∧ t.HasAsserted m ∧ l = Prover.mark n m

omit [Weight W] in
theorem Standard.Admits.legible {l : Literal W} (h : Standard.plain.Admits l) : l.Legible := ⟨h.name, h.constant, h.closed⟩

namespace Prover

variable {l : Literal W}

omit [Weight W] in
theorem isRuleWeight_mark (hl : isRuleWeight l = true) (n : Nat) : isRuleWeight (mark n l) = true := by
  rw [mark, if_pos hl]
  exact hl

omit [Weight W] in
theorem isPrimitive_of_isRuleWeight (hl : isRuleWeight l = true) : l.isPrimitive = false := by
  rw [isRuleWeight, Bool.and_eq_true, Bool.not_eq_true'] at hl
  obtain ⟨t, ht⟩ := Text.startsWith_iff.1 hl.2
  refine Bool.eq_false_of_not_eq_true (fun hp => ?_)
  rw [Literal.isPrimitive, Predicate.isPrimitive, Predicate.base_of_not_isNegated hl.1] at hp
  obtain ⟨t', ht'⟩ := Text.startsWith_iff.1 hp
  have hlist := congrArg String.toList ((show l.name = _ from ht).symm.trans ht')
  rw [String.toList_append, String.toList_append] at hlist
  exact absurd (List.cons.inj hlist).1 (by decide)

end Prover

omit [Weight W] in
/-- The number of an instance is plain. -/
theorem Literal.Legible.mark {l : Literal W} (h : l.Legible) (n : Nat) : (Prover.mark n l).Legible := by
  cases hw : Prover.isRuleWeight l with
  | false => rwa [Prover.mark_of_not hw]
  | true =>
    have hmark : Prover.mark n l = l.extend (.const ⟨"r" ++ toString n⟩) := by rw [Prover.mark, if_pos hw]
    have hfit : Prover.mark n l.fitted = l.extend (.const ⟨"r" ++ toString n⟩) := by
      rw [Prover.mark, if_pos (show Prover.isRuleWeight l.fitted = true from hw)]
      rfl
    have hplain := (Prover.isPlain_mark h.isPlain_fitted n).1
    rw [hfit] at hplain
    rw [hmark]
    refine ⟨Literal.isPlain.predicate hplain, fun c hc => Literal.isPlain.terms hplain _ hc, ?_⟩
    rw [Literal.isSemiGrounded, Literal.extend, List.all_append, Bool.and_eq_true]
    exact ⟨h.closed, rfl⟩

/-- A program in plain words meets the standard when its extensions keep to plain constants and its rules are not about
rule weights. -/
theorem KnowledgeBase.Formed.meets [LawfulWeight W] {q : Query W} (h : q.kb.Formed) (hreg : q.kb.registry.IsPlain)
    (hweight : ∀ c ∈ q.kb.rules.clauses, Prover.isRuleWeight c.head = false) : q.Meets .plain where
  fitted _ := trivial
  base p hp hn := by
    have hb : (⟨p.base, p.arity⟩ : Predicate).isNegated = false := Predicate.isName.not_negated hp
    show Predicate.isName (⟨p.base, p.arity⟩ : Predicate).base = true
    rw [Predicate.base_of_not_isNegated hb]
    exact hp
  fact c hc :=
    have hc := h.fact c hc
    ⟨hc.body, hc.grounded, Standard.allows_plain_iff.2 hc.plain⟩
  rule c hc :=
    have hr := h.rule c hc
    ⟨hr.body, Standard.allows_plain_iff.2 hr.head, ⟨hr.ordinary, hweight c hc⟩,
      fun l hl => Standard.allows_plain_iff.2 (hr.literal l hl), fun hg => hg.elim⟩
  answer _ hl _ hm := Query.isPlain_of_answers hreg hl.constant hm
  legible _ c d hc hd e :=
    (Clause.ids_of_key ⟨hc.1.legible, fun l hl => (hc.2 l hl).legible⟩ ⟨hd.1.legible, fun l hl => (hd.2 l hl).legible⟩ e).1

namespace Run

variable {q : Query W} {r : Run W} {prune : Bool}

theorem Backed.hasAsserted (h : r.Backed q .plain) {l : Literal W} (hl : r.table.Asserts l.id) : r.table.HasAsserted l := by
  obtain ⟨i, g, hi, ha⟩ := hl
  obtain ⟨f, hf, e⟩ := (h i g hi).asserted l.id ha
  exact ⟨i, g, f, hi, hf, by rw [Subgoal.isAsserted, e]; exact ha, e⟩

theorem Backed.completed (h : r.Backed q .plain) {c : Clause W} (hc : r.table.Completed c) :
    c.Legible ∧ c.head.isPrimitive = false ∧ Prover.isRuleWeight c.head = false ∧ ∀ l ∈ c.body, r.Rests q l.id := by
  obtain ⟨i, g, hi, hg⟩ := hc
  obtain ⟨⟨hord, hw⟩, hadmits, hbody⟩ := (h i g hi).grounded c hg
  exact ⟨⟨hadmits.legible, fun l hl => (hbody l hl).admits.legible⟩, hord, hw,
    fun l hl => (hbody l hl).rests h trivial⟩

theorem mem_snapshot_asserted (h : r.Backed q .plain) (id : String) :
    r.table.snapshot.asserted.contains id = true ↔ r.table.Asserts id := by
  rw [r.table.snapshot_spec.2.1 id]
  constructor
  · rintro ⟨i, g, hi, f, -, -, ha⟩
    exact ⟨i, g, hi, ha⟩
  · rintro ⟨i, g, hi, ha⟩
    obtain ⟨f, hf, e⟩ := (h i g hi).asserted id ha
    exact ⟨i, g, hi, f, hf, e, ha⟩

variable [LawfulWeight W]

/-- A completed rule is a rule of the snapshot, up to its key. -/
theorem Backed.exists_rule (h : r.Backed q .plain) {c : Clause W} (hc : r.table.Completed c) :
    ∃ c' n, (c', n) ∈ Prover.numberRules r.table.snapshot.rules.toList ∧ c'.head.id = c.head.id ∧
      c'.body.map Literal.id = c.body.map Literal.id := by
  obtain ⟨c', hc', hk⟩ := r.table.snapshot_spec.1.found c hc
  have hcomp := r.table.snapshot_spec.1.given c' hc'
  obtain ⟨n, hn⟩ := Prover.mem_numberRules.2 (Array.mem_toList_iff.2 hc')
  obtain ⟨e1, e2⟩ := Clause.ids_of_key (h.completed hcomp).1 (h.completed hc).1 hk
  exact ⟨c', n, hn, e1, e2⟩

/-- Neither a primitive nor a rule weight is concluded by a rule. -/
theorem Backed.none_of (h : r.Backed q .plain) (prune : Bool) {l : Literal W} (hl : l.isPrimitive = true ∨ Prover.isRuleWeight l = true) :
    (r.prover prune).rules[l.id]? = none := by
  refine (Prover.ofSnapshot_none _ _).2 (fun d hd e => ?_)
  obtain ⟨-, hord, hw, -⟩ := h.completed (r.table.snapshot_spec.1.given d hd)
  rcases hl with hl | hl
  · rw [← Literal.isPrimitive_of_id e, hord] at hl
    cases hl
  · rw [← Prover.isRuleWeight_of_id e, hw] at hl
    cases hl

theorem Backed.prover_sound (h : r.Backed q .plain) (prune : Bool) : (r.prover prune).Sound :=
  Prover.ofSnapshot_sound _ _ (fun _ _ _ _ hw n _ hd =>
    prover_none (h.none_of prune (.inr (Prover.isRuleWeight_mark hw n))) hd)

/-! ## From the table to proofs -/

omit [LawfulWeight W] in
/-- An answer of a primitive is the instance of a primitive literal. -/
theorem isPrimitive_of_answers {k m : Literal W} (hm : m ∈ q.answers k) : m.isPrimitive = true := by
  rw [Literal.isPrimitive, (Query.answers_spec hm).1]
  cases hname : k.primitive? with
  | none =>
    simp only [Query.answers, hname] at hm
    cases hm
  | some name =>
    cases hs : Text.startsWith Predicate.primitiveMark k.predicate.base with
    | true => exact hs
    | false =>
      rw [show k.primitive? = none from Text.after?_eq_none hs] at hname
      cases hname

/-- **What the table has a foundation for, the prover derives.** -/
theorem Backed.derives (h : r.Backed q .plain) {id : String} (hid : r.Rests q id) :
    (r.prover prune).Derives (fun _ => True) [] id := by
  induction hid with
  | leaf hl =>
    refine .leaf List.not_mem_nil ?_ trivial
    rcases hl with ha | ⟨k, m, hm, rfl⟩
    · exact .inr ((mem_snapshot_asserted h _).2 ha)
    · exact .inl (h.none_of prune (.inl (isPrimitive_of_answers hm)))
  | @rule c hc _ ih =>
    obtain ⟨c', n, hn, hhead, hids⟩ := h.exists_rule hc
    rw [← hhead]
    refine .rule List.not_mem_nil ((Prover.ofSnapshot_rule _ _).2 ⟨c', n, hn, rfl, rfl⟩) (fun m hm => ?_)
    obtain ⟨l', hl', rfl⟩ := List.mem_map.1 hm
    obtain ⟨l, hl, e⟩ := List.mem_map.1 (hids ▸ List.mem_map_of_mem hl' : l'.id ∈ c.body.map Literal.id)
    cases hw : Prover.isRuleWeight l' with
    | false =>
      rw [Prover.mark_of_not hw, ← e]
      exact ih l hl
    | true => exact .leaf List.not_mem_nil (.inl (h.none_of prune (.inr (Prover.isRuleWeight_mark hw n)))) trivial

/-- What no rule concludes was asserted or answered. -/
theorem Backed.of_none (h : r.Backed q .plain) {l : Literal W} (hnone : (r.prover prune).rules[l.id]? = none)
    (hl : r.Rests q l.id) : r.table.HasAsserted l ∨ q.Answered l.id := by
  generalize hid : l.id = id at hnone hl
  cases hl with
  | leaf hl => exact hid ▸ (hid ▸ hl).imp_left h.hasAsserted
  | rule hc _ =>
    obtain ⟨c', n, hn, hhead, -⟩ := h.exists_rule hc
    exact absurd hhead (prover_none hnone (Array.mem_toList_iff.1 (Prover.mem_numberRules.1 ⟨n, hn⟩)))

/-- A literal of a proof is the target or comes from the body of a completed rule. -/
theorem Backed.origin (h : r.Backed q .plain) {target : Literal W} {b : Body W} (hb : b ∈ (r.prover prune).expand target)
    {l : Literal W} (hl : l ∈ b) : (r.prover prune).Leaf l.id ∧
      (l = target ∨ ∃ c n m, r.table.Completed c ∧ m ∈ c.body ∧ l = Prover.mark n m) := by
  obtain ⟨hleaf, horigin⟩ := Prover.expand_consists (h.prover_sound prune) target b hb l hl
  refine ⟨hleaf, horigin.imp_right ?_⟩
  rintro ⟨id, body, hrule, hmem⟩
  obtain ⟨c, n, hn, -, rfl⟩ := (Prover.ofSnapshot_rule _ _).1 hrule
  obtain ⟨m, hm, rfl⟩ := List.mem_map.1 hmem
  exact ⟨c, n, m, r.table.snapshot_spec.1.given c (Array.mem_toList_iff.1 (Prover.mem_numberRules.1 ⟨n, hn⟩)), hm, rfl⟩

/-- **What a proof rests on.** -/
theorem Backed.grants (h : r.Backed q .plain) {target : Literal W} (ht : r.Rests q target.id) {b : Body W}
    (hb : b ∈ (r.prover prune).expand target) {l : Literal W} (hl : l ∈ b) : r.table.Grants q l := by
  obtain ⟨hnone | hasserted, horigin⟩ := h.origin hb hl
  · rcases horigin with rfl | ⟨c, n, m, hc, hm, rfl⟩
    · exact (h.of_none hnone ht).imp_right .inl
    · have hrests := (h.completed hc).2.2.2 m hm
      cases hw : Prover.isRuleWeight m with
      | false =>
        rw [Prover.mark_of_not hw] at hnone ⊢
        exact (h.of_none hnone hrests).imp_right .inl
      | true =>
        refine .inr (.inr ⟨n, m, hw, ?_, rfl⟩)
        rcases h.of_none (h.none_of prune (.inr hw)) hrests with ha | ⟨k, x, hx, e⟩
        · exact ha
        · have hp := isPrimitive_of_answers hx
          rw [Literal.isPrimitive_of_id e, Prover.isPrimitive_of_isRuleWeight hw] at hp
          cases hp
  · exact .inl (h.hasAsserted ((mem_snapshot_asserted h _).1 hasserted))

theorem Backed.legible_proof (h : r.Backed q .plain) {target : Literal W} (ht : target.Legible) {b : Body W}
    (hb : b ∈ (r.prover prune).expand target) : (⟨target, b⟩ : Clause W).Legible := by
  refine ⟨ht, fun l hl => ?_⟩
  rcases (h.origin hb hl).2 with rfl | ⟨c, n, m, hc, hm, rfl⟩
  · exact ht
  · exact ((h.completed hc).1.2 m hm).mark n

omit [LawfulWeight W] in
theorem Backed.answer (h : r.Backed q .plain) {f : Clause W} (hf : f ∈ r.table.facts 0) :
    ∃ g, r.table.goal? 0 = some g ∧ f ∈ g.facts ∧ f.body = [] ∧ f.head.Legible ∧ r.Rests q f.head.id := by
  cases hi : r.table.goal? 0 with
  | none =>
    rw [Table.facts, hi] at hf
    cases hf
  | some g =>
    rw [Table.facts, hi] at hf
    obtain ⟨hbody, hadmits, hrests⟩ := (h 0 g hi).fact f hf
    exact ⟨g, rfl, hf, hbody, hadmits.legible, hrests trivial⟩

theorem Backed.answer_eq (h : r.Backed q .plain) {f f' : Clause W} (hf : f ∈ r.table.facts 0) (hf' : f' ∈ r.table.facts 0)
    (e : f.head.id = f'.head.id) : f = f' := by
  obtain ⟨g, hi, hf, hbody, hleg, -⟩ := h.answer hf
  obtain ⟨g', hi', hf', hbody', hleg', -⟩ := h.answer hf'
  obtain rfl := goal_eq hi hi'
  exact List.inj_on_of_nodup_map (h 0 g hi).keyed.nodup hf hf' (Clause.key_of_id hbody hbody' hleg hleg' e)

/-- Every target with a foundation is the head of a proof, if their ids tell the targets apart. -/
theorem Backed.exists_proof (h : r.Backed q .plain) {targets : List (Literal W)}
    (htargets : ∀ t ∈ targets, t.Legible ∧ r.Rests q t.id) (hids : ∀ t ∈ targets, ∀ u ∈ targets, t.id = u.id → t = u)
    {t : Literal W} (ht : t ∈ targets) : ∃ p ∈ ((r.prover prune).proofSet targets).proofs, p.head = t := by
  obtain ⟨b, hb, -⟩ := (Prover.expand_spec (S := fun _ => True) (h.prover_sound prune) (fun _ _ _ => trivial) t).2
    (h.derives (htargets t ht).2)
  have hmem : (⟨t, b⟩ : Clause W) ∈ targets.flatMap (r.prover prune).proofs :=
    List.mem_flatMap.2 ⟨t, ht, List.mem_map_of_mem hb⟩
  rcases (Prover.distinctClauses_spec (targets.flatMap (r.prover prune).proofs) ∅).2 _ hmem with hseen | ⟨p, hp, e⟩
  · simp at hseen
  · obtain ⟨hhead, hbody⟩ := Prover.of_mem_proofsOf hp
    refine ⟨p, hp, hids _ hhead _ ht ?_⟩
    exact (Clause.ids_of_key (h.legible_proof (htargets _ hhead).1 hbody) (h.legible_proof (htargets t ht).1 hb) e).1

end Run

/-- Without negations, rule weights and pruning, a proof of an answer rests on stated facts, of which there is one. -/
theorem Run.Valid.proof_rests {q : Query ℚ} {r : Run ℚ} {V : Vocabulary ℚ} (hv : r.Valid V q.kb) (hkb : q.kb.Regular V)
    (hd : q.kb.Definite) {g : Subgoal ℚ} (hi : r.table.goal? 0 = some g) (hn : g.literal.isNegated = false) {p : Clause ℚ}
    (hp : p ∈ ((r.prover false).proofSet ((r.table.facts 0).map Clause.head)).proofs) :
    p.body ≠ [] ∧ ∀ m ∈ p.body, ∃ c ∈ q.kb.facts.clauses, c.head.id = m.id := by
  obtain ⟨ht, hbody⟩ := Prover.of_mem_proofsOf (show p ∈ (r.prover false).proofsOf _ from hp)
  obtain ⟨f, hf, e⟩ := List.mem_map.1 ht
  rw [Table.facts, hi] at hf
  rw [← e] at hbody
  refine ⟨fun hnil => ?_, fun m hm => ?_⟩
  · exact Prover.nil_not_mem_expand (hv.prover_sound (hv.unweighted hd.rule)) rfl (fun _ _ h => hv.prover_body hkb h)
      f.head (hnil ▸ hbody)
  · obtain ⟨-, -, hstated⟩ := hv.rests_on_stated hd hi hn hf false hbody hm
    exact hstated

theorem OneEdge.registry (w : ℚ) : (kb w).registry = .empty := by
  rw [kb, KnowledgeBase.registry_keepRule, KnowledgeBase.registry_storeFact]
  rfl

namespace Solver

variable [LawfulWeight W] {s : Solver W} {l : Literal W}

/-- **Every answer is explained.**  Over a program in plain words that has no rule about a rule weight, and with no bound
on the answers, a query that is answered can be proved: every answer is the head of a proof, no proof has another head,
and what a proof rests on was asserted, is an answer of a primitive, or is the marked weight of a rule. -/
theorem proofs_explain (hkb : s.kb.Made) (hreg : s.kb.registry.IsPlain)
    (hweight : ∀ c ∈ s.kb.rules.clauses, Prover.isRuleWeight c.head = false) (hmax : s.settings.maxSamples = none)
    (hl : l.isPlain = true) (hcheck : l.predicate.check = .ok l.predicate) {answers : List (Clause W)}
    (h : (s.solve l none).1 = .ok answers) :
    ∃ set, (s.proofs l).1 = .ok set ∧
      (∀ a ∈ answers, ∃ p ∈ set.proofs, p.head = a.head) ∧
      ∀ p ∈ set.proofs, (∃ a ∈ answers, p.head = a.head) ∧
        ∀ m ∈ p.body, (s.proofs l).2.run.table.Grants (s.asking none) m := by
  obtain ⟨hopen, hrun, rfl⟩ := of_solve_ok h
  rw [show (none <|> s.settings.maxSamples) = none by rw [hmax]; rfl] at hrun ⊢
  have hback := (execute_upholds (hkb.formed.meets (q := s.asking none) hreg hweight) (Standard.allows_plain_iff.2 hl)
    (fun hn => ⟨hopen hn, Predicate.isPrimitive_of_check hcheck hn⟩)).1 hrun
  rcases s.start_cases l none with ⟨-, hn, hs⟩ | ⟨-, hstart⟩
  · rw [hopen hn] at hs
    cases hs
  have htable : (s.proofs l).2 = (s.start l none).2 := rfl
  have hproofs := s.proofs_fst l
  rw [hstart] at hproofs htable
  rw [hrun] at hproofs
  rw [htable]
  generalize (Run.execute (s.asking none) s.patience [.search 0] (s.opening l)).2 = r at *
  refine ⟨_, hproofs, fun a ha => ?_, fun p hp => ?_⟩
  · refine hback.exists_proof (fun t ht => ?_) (fun t ht u hu e => ?_) (List.mem_map_of_mem ha)
    · obtain ⟨f, hf, rfl⟩ := List.mem_map.1 ht
      obtain ⟨g, -, -, -, hleg, hrests⟩ := hback.answer hf
      exact ⟨hleg, hrests⟩
    · obtain ⟨f, hf, rfl⟩ := List.mem_map.1 ht
      obtain ⟨f', hf', rfl⟩ := List.mem_map.1 hu
      rw [hback.answer_eq hf hf' e]
  · obtain ⟨hhead, hbody⟩ := Prover.of_mem_proofsOf hp
    obtain ⟨f, hf, e⟩ := List.mem_map.1 hhead
    refine ⟨⟨f, hf, e.symm⟩, fun m hm => ?_⟩
    obtain ⟨g, -, -, -, -, hrests⟩ := hback.answer hf
    exact hback.grants (e ▸ hrests) hbody hm

/-- The path from `a` to `b` is an answer, and it has a proof that rests on the edge, which is likely at best, and on
nothing else. -/
theorem proofs_explain_oneEdge : ∃ patience answers set,
    let s : Solver ℚ :=
      { Solver.new (OneEdge.kb (1 / 2)) { Settings.default with pruneCertain := false } with patience := patience }
    (s.solve OneEdge.query none).1 = .ok answers ∧ (s.proofs OneEdge.query).1 = .ok set ∧
    .fact (OneEdge.path.literal 1) ∈ answers ∧
    ∃ p ∈ set.proofs, p.head = OneEdge.path.literal 1 ∧ p.body ≠ [] ∧
      ∀ m ∈ p.body, m.id = (OneEdge.fact (1 / 2)).head.id := by
  have hbuilt : (OneEdge.kb (1 / 2)).Built := OneEdge.built (by norm_num)
  have hrule : ∀ c ∈ (OneEdge.kb (1 / 2)).rules.clauses, c = OneEdge.rule := fun c hc =>
    List.mem_singleton.1 (OneEdge.rules (1 / 2) ▸ hc)
  have hpos : ∀ c ∈ (OneEdge.kb (1 / 2)).rules.clauses, ∀ l ∈ c.body, l.isNegated = false := fun c hc => by
    rw [hrule c hc]
    decide
  have hweight : ∀ c ∈ (OneEdge.kb (1 / 2)).rules.clauses, Prover.isRuleWeight c.head = false := fun c hc => by
    rw [hrule c hc]
    decide
  obtain ⟨V, hreg, n, hlit⟩ := hbuilt.kept.regular (q := OneEdge.query) (fun c hc => by rw [hrule c hc]; decide)
    (fun c hc => by rw [hrule c hc]; decide) rfl rfl
  let s : Solver ℚ := Solver.new (OneEdge.kb (1 / 2)) { Settings.default with pruneCertain := false }
  obtain ⟨steps, r, hgrow, hagenda, hstart⟩ := settles (s := s) hreg rfl hlit (fun h => by cases h)
  obtain ⟨steps', answers, hsolve, -, hmem⟩ := solve_positive (s := s) hreg hpos rfl rfl hlit rfl
  have hpatience := hsolve (max steps steps') (le_max_right _ _)
  have hpath : .fact (OneEdge.path.literal 1) ∈ answers :=
    (hmem _).2 (.inr ⟨OneEdge.path, rfl, by decide, OneEdge.fires (1 / 2)⟩)
  obtain ⟨set, hset, hheads, -⟩ := proofs_explain (s := { s with patience := max steps steps' }) hbuilt.made
    (OneEdge.registry (1 / 2) ▸ Registry.isPlain_empty) hweight rfl rfl rfl hpatience
  obtain ⟨p, hp, hhead⟩ := hheads _ hpath
  refine ⟨max steps steps', answers, set, hpatience, hset, hpath, p, hp, hhead, ?_⟩
  -- the set comes of the run that was valid in the end
  have hproofs := proofs_eq (hstart (max steps steps') (le_max_left _ _))
  rw [hset] at hproofs
  injection hproofs with hproofs
  have hfact : ∀ c ∈ (OneEdge.kb (1 / 2)).facts.clauses, c = OneEdge.fact (1 / 2) := fun c hc =>
    List.mem_singleton.1 (OneEdge.facts (1 / 2) ▸ hc)
  have hd : (OneEdge.kb (1 / 2)).Definite := ⟨hpos, fun c hc => by rw [hfact c hc]; decide, hweight⟩
  obtain ⟨g, hi, hgl⟩ := exists_root hgrow
  have hgn : g.literal.isNegated = false := by
    rw [hgl]
    exact (rfl : OneEdge.query.isNegated = false)
  obtain ⟨hne, hrests⟩ := Run.Valid.proof_rests (q := s.query) hagenda.valid hreg hd hi hgn (hproofs ▸ hp)
  refine ⟨hne, fun m hm => ?_⟩
  obtain ⟨c, hc, hid⟩ := hrests m hm
  rw [← hid, hfact c hc]

end Solver
end Credence
