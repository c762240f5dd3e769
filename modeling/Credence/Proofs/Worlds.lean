import Credence.Proofs.Answers
import Credence.Proofs.Chance
import Credence.Proofs.Estimation
import Credence.Proofs.Snapshot
/-!
# Possible worlds

A world keeps every certain fact of a program and some of the uncertain ones, each independently of the others with its
own weight, and what holds in it is the least model of the facts it keeps and the rules.  The chance of a literal is the
weight of the worlds in which an instance of it holds (`KnowledgeBase.chance`).

A settled table has the derivations of all worlds at once.  In each of them a covered atom holds exactly when some
alternative of a fact of the goal rests on facts that the world keeps (`Settled.anyMet_iff`).
-/
namespace Credence

deriving instance DecidableEq for Literal
deriving instance DecidableEq for Clause

/-! ## Worlds of a program -/

namespace KnowledgeBase

/-- The facts that a world may lack. -/
def uncertain (kb : KnowledgeBase ℚ) : Finset (Clause ℚ) := (kb.facts.clauses.filter (fun c => !c.head.isCertain)).toFinset

/-- What the program says where the uncertain facts in `B` are true. -/
def world (kb : KnowledgeBase ℚ) (B : Finset (Clause ℚ)) : Theory ℚ where
  fact a   := kb.States a 1 ∨ ∃ w, Clause.fact (a.literal w) ∈ B
  rule c   := c ∈ kb.rules.clauses
  denied _ _ := False

/-- Some instance of the literal holds in the least model of the world. -/
def HoldsIn (kb : KnowledgeBase ℚ) (l : Literal ℚ) (B : Finset (Clause ℚ)) : Prop :=
  ∃ a, l.Covers a ∧ (kb.world B).Holds a

/-- **The chance of a literal**: the weight of the worlds with an instance of it. -/
noncomputable def chance (kb : KnowledgeBase ℚ) (l : Literal ℚ) : ℚ :=
  mass kb.uncertain (fun c => c.head.weight) (kb.HoldsIn l)

theorem mem_uncertain {kb : KnowledgeBase ℚ} {c : Clause ℚ} :
    c ∈ kb.uncertain ↔ c ∈ kb.facts.clauses ∧ c.head.isCertain = false := by
  rw [uncertain, List.mem_toFinset, List.mem_filter, Bool.not_eq_true']

/-- Without negations, and without weights of rules. -/
structure Definite (kb : KnowledgeBase ℚ) : Prop where
  positive : ∀ c ∈ kb.rules.clauses, ∀ l ∈ c.body, l.isNegated = false
  fact     : ∀ c ∈ kb.facts.clauses, Prover.isRuleWeight c.head = false
  rule     : ∀ c ∈ kb.rules.clauses, Prover.isRuleWeight c.head = false

variable {kb : KnowledgeBase ℚ} {V : Vocabulary ℚ}

/-- Stated facts are known by the ids of their atoms. -/
theorem Regular.fact_eq_of_id (h : kb.Regular V) {c d : Clause ℚ} (hc : c ∈ kb.facts.clauses) (hd : d ∈ kb.facts.clauses)
    (hid : c.head.id = d.head.id) : c = d := by
  obtain ⟨a, v, rfl, ha, hv, -⟩ := h.fact c hc
  obtain ⟨b, w, rfl, hb, hw, -⟩ := h.fact d hd
  have hform := (Literal.id_eq_iff ha.isPlain hb.isPlain).1 hid
  exact congrArg Clause.fact (Atom.literal_eq_of_form ha hb hv hw hform)

end KnowledgeBase

/-- The id is certain, or among those of the facts in `B`. -/
def Present (B : Finset (Clause ℚ)) (id : String) : Prop := idWeight id = 1 ∨ ∃ c ∈ B, c.head.id = id

theorem Literal.isCertain_iff_idWeight (l : Literal ℚ) : l.isCertain = true ↔ idWeight l.id = 1 := by
  rw [idWeight_id]
  exact LawfulWeight.isCertain_iff l.weight

theorem Prover.isRuleWeight_congr {W : Type} {l m : Literal W} (h : l.predicate = m.predicate) :
    isRuleWeight l = isRuleWeight m := by
  rw [isRuleWeight, isRuleWeight, Literal.isNegated, Literal.isNegated, Literal.name, Literal.name, h]

theorem Prover.mark_weight {W : Type} (n : Nat) (l : Literal W) : (mark n l).weight = l.weight := by
  unfold mark
  split
  · rfl
  · rfl

/-! ## What a table makes of them -/

namespace Run

variable {q : Query ℚ} {V : Vocabulary ℚ} {r : Run ℚ} {B : Finset (Clause ℚ)}

/-- A completed rule is about what a rule of the program is about. -/
theorem Valid.unweighted (hv : r.Valid V q.kb) (hd : ∀ c ∈ q.kb.rules.clauses, Prover.isRuleWeight c.head = false) :
    r.Unweighted := by
  rintro c ⟨i, g, hi, hc⟩
  obtain ⟨a, e, -, rule, hrule, μ, hadm, -⟩ := ((hv.goal i g hi).grounded c hc).trace
  rw [← hd rule hrule]
  refine Prover.isRuleWeight_congr ?_
  rw [e]
  exact hadm.1.symm

/-- Every fact of a positive goal is about what a fact or a rule of the program is about. -/
theorem Valid.isRuleWeight_fact (hv : r.Valid V q.kb) (hd : q.kb.Definite) {i : Nat} {g : Subgoal ℚ}
    (hi : r.table.goal? i = some g) (hn : g.literal.isNegated = false) {f : Clause ℚ} (hf : f ∈ g.facts) :
    Prover.isRuleWeight f.head = false := by
  have hg := hv.goal i g hi
  have hacc := hg.fact f hf
  obtain ⟨a, w, e, -, -, hs | ⟨-, c, hc, hhead⟩⟩ := hacc.positive hn
  · refine hd.fact f ?_
    rw [hacc.eq_fact, e]
    exact hs
  · rw [← hhead]
    exact hv.unweighted hd.rule c ⟨i, g, hi, hc⟩

/-- A world does not tell instances of a rule weight apart: it has none. -/
theorem present_mark (hkb : q.kb.Regular V) (hd : q.kb.Definite) (hB : ∀ c ∈ B, c ∈ q.kb.facts.clauses) {l : Literal ℚ}
    (hl : l.isPlain = true) (hw : Prover.isRuleWeight l = true) (n : Nat) :
    Present B (Prover.mark n l).id ↔ Present B l.id := by
  obtain ⟨hpl, hwm⟩ := Prover.isPlain_mark hl n
  have hno : ∀ {m : Literal ℚ}, m.isPlain = true → Prover.isRuleWeight m = true → ¬ ∃ c ∈ B, c.head.id = m.id := by
    rintro m hm hwm ⟨c, hc, e⟩
    obtain ⟨a, w, hfact, ha, -⟩ := hkb.fact c (hB c hc)
    have hplain : c.head.isPlain = true := by
      rw [hfact]
      exact ha.isPlain
    have hsame := Prover.isRuleWeight_of_id_eq hplain hm e
    rw [hwm, hd.fact c (hB c hc)] at hsame
    cases hsame
  rw [Present, Present, idWeight_id, idWeight_id, Prover.mark_weight, or_iff_left (hno hpl (hwm.trans hw)), or_iff_left (hno hl hw)]

/-- **A goal in a world.**  Some fact of a settled goal is reached from the facts of the world exactly when some atom
that the goal covers holds there. -/
theorem Settled.supported_iff (h : r.Settled q V) (hq : q.Regular V) (hd : q.kb.Definite)
    (hB : ∀ c ∈ B, c ∈ q.kb.facts.clauses) {i : Nat} {g : Subgoal ℚ} (hi : r.table.goal? i = some g)
    (hn : g.literal.isNegated = false) :
    (∃ f ∈ g.facts, Supported r.table.Completed (fun id => Present B id ∧ r.table.Asserts id) f.head.id) ↔
      q.kb.HoldsIn g.literal B := by
  constructor
  · rintro ⟨f, hf, hs⟩
    obtain ⟨a, w, e, -, hcov, -⟩ := ((h.valid.goal i g hi).fact f hf).positive hn
    -- which negations hold does not matter to a program without any, so all of them may
    have hback : r.Backs q.kb { q.kb.world B with denied := fun _ _ => True }
        (fun id => Present B id ∧ r.table.Asserts id) := by
      refine ⟨fun _ hid => hid.2, fun _ hc => hc, fun x v hx hid => ?_, fun _ _ _ _ _ _ _ _ => trivial⟩
      rcases hid.1 with hone | ⟨c, hc, hid⟩
      · rw [idWeight_id] at hone
        have hone : v = 1 := hone
        exact .inl (hone ▸ hx)
      · exact .inr ⟨v, hq.kb.fact_eq_of_id (hB c hc) hx hid ▸ hc⟩
    have hconf := h.valid.sound hq.kb hback hs f.head (h.valid.resolved hi hf).1 rfl
    have hpos : f.head.isNegated = false := by
      rw [Literal.isNegated, (h.valid.resolved hi hf).2]
      exact hn
    refine ⟨a, hcov, (hconf.atom hpos a w e).of_positive ?_ ?_ hd.positive⟩
    · exact fun _ hx => hx
    · exact fun _ hx => hx
  · rintro ⟨a, hcov, ha⟩
    have hm : r.Models q (q.kb.world B) (Supported r.table.Completed (fun id => Present B id ∧ r.table.Asserts id)) := by
      refine ⟨fun _ hc => hc, fun x hx => ?_, fun _ _ hx => hx.elim, fun c hc hbody => .rule hc hbody⟩
      rcases hx with hx | ⟨w, hx⟩
      · exact ⟨1, hx, fun has => .leaf ⟨.inl (idWeight_id _), has⟩⟩
      · exact ⟨w, hB _ hx, fun has => .leaf ⟨.inr ⟨_, hx, rfl⟩, has⟩⟩
    obtain ⟨w, hf, hs⟩ := h.complete hq hm ha i g hi hcov
    exact ⟨_, hf, hs⟩

/-- **The alternatives of the facts of a goal, in a world.** -/
theorem Settled.anyMet_iff (h : r.Settled q V) (hq : q.Regular V) (hd : q.kb.Definite)
    (hB : ∀ c ∈ B, c ∈ q.kb.facts.clauses) {i : Nat} {g : Subgoal ℚ} (hi : r.table.goal? i = some g)
    (hn : g.literal.isNegated = false) (prune : Bool) :
    (∃ f ∈ g.facts, Prover.AnyMet (Present B) ((r.prover prune).expand f.head)) ↔ q.kb.HoldsIn g.literal B := by
  have hu := h.valid.unweighted hd.rule
  rw [← h.supported_iff hq hd hB hi hn]
  refine exists_congr (fun f => and_congr_right (fun hf => ?_))
  have hcert : (r.prover prune).prune = true → ∀ l : Literal ℚ, l.isCertain = true → Present B l.id :=
    fun _ l hl => .inl ((Literal.isCertain_iff_idWeight l).1 hl)
  rw [Prover.expand_spec (h.valid.prover_sound hu) hcert]
  refine h.valid.derives_iff hu (fun _ _ _ => Iff.rfl) (fun c n hcn l hl hw => ?_) (h.valid.resolved hi hf).1
    (h.valid.isRuleWeight_fact hd hi hn hf)
  have hc := r.table.snapshot_spec.1.given c (Array.mem_toList_iff.1 (Prover.mem_numberRules.1 ⟨n, hcn⟩))
  exact present_mark hq.kb hd hB ((h.valid.completed_isPlain hc).2 l hl).literal.isPlain hw n

/-! ## What proofs rest on -/

/-- The literals of completed rules are positive, and no rule weights. -/
theorem Valid.completed_body (hv : r.Valid V q.kb) (hd : q.kb.Definite) {c : Clause ℚ} (hc : r.table.Completed c)
    {l : Literal ℚ} (hl : l ∈ c.body) : r.table.Resolved V l ∧ l.isNegated = false ∧ Prover.isRuleWeight l = false := by
  obtain ⟨i, g, hi, hc⟩ := hc
  have hinst := (hv.goal i g hi).grounded c hc
  have hres := hinst.body l hl
  obtain ⟨-, -, -, rule, hrule, μ, -, hmeets⟩ := hinst.trace
  obtain ⟨b, hb, hm⟩ := forall₂_exists_right hmeets hl
  have hpos : l.isNegated = false := by
    rw [Literal.isNegated, hm.predicate]
    exact hd.positive rule hrule b hb
  obtain ⟨f, ⟨j, b, hj, hf⟩, hid⟩ := hres.known
  obtain ⟨hfres, hfp⟩ := hv.resolved hj hf
  have hbn : b.literal.isNegated = false := by
    rw [Literal.isNegated, ← hfp]
    exact (Literal.isNegated_of_id_eq hfres.literal.isPlain hres.literal.isPlain hid).trans hpos
  refine ⟨hres, hpos, ?_⟩
  rw [← Prover.isRuleWeight_of_id_eq hfres.literal.isPlain hres.literal.isPlain hid]
  exact hv.isRuleWeight_fact hd hj hbn hf

/-- Completed rules have bodies, as the rules have that they come from. -/
theorem Valid.prover_body (hv : r.Valid V q.kb) (hkb : q.kb.Regular V) {prune : Bool} {id : String} {body : Body ℚ}
    (h : (r.prover prune).Rule id body) : body ≠ [] := by
  obtain ⟨c, n, hn, -, rfl⟩ := (Prover.ofSnapshot_rule _ _).1 h
  obtain ⟨i, g, hi, hg⟩ := r.table.snapshot_spec.1.given c (Array.mem_toList_iff.1 (Prover.mem_numberRules.1 ⟨n, hn⟩))
  obtain ⟨-, -, -, rule, hrule, μ, -, hmeets⟩ := ((hv.goal i g hi).grounded c hg).trace
  rw [Ne, List.map_eq_nil_iff]
  intro e
  rw [e] at hmeets
  exact (hkb.rule rule hrule).nonempty (List.forall₂_nil_left_iff.1 hmeets)

/-- A positive leaf of a proof is stated. -/
theorem Valid.stated_of_leaf (hv : r.Valid V q.kb) {l : Literal ℚ} (hl : r.table.Resolved V l) (hn : l.isNegated = false)
    {prune : Bool} (hleaf : (r.prover prune).Leaf l.id) : ∃ c ∈ q.kb.facts.clauses, c.head.id = l.id := by
  have has : r.table.Asserts l.id := by
    rcases hleaf with hnone | has
    · exact hv.asserts_of_none hnone (hv.founded_of_resolved hl)
    · exact (hv.isAsserted_iff _).1 has
  obtain ⟨j, b, hj, has⟩ := has
  obtain ⟨c, hc, hid, hstated⟩ := (hv.goal j b hj).asserted _ has
  obtain ⟨hcres, hcp⟩ := hv.resolved hj hc
  refine ⟨c, hstated ?_, hid⟩
  rw [Literal.isNegated, ← hcp]
  exact (Literal.isNegated_of_id_eq hcres.literal.isPlain hl.literal.isPlain hid).trans hn

/-- **Proofs of positive facts rest on stated facts.** -/
theorem Valid.rests_on_stated (hv : r.Valid V q.kb) (hd : q.kb.Definite) {i : Nat} {g : Subgoal ℚ}
    (hi : r.table.goal? i = some g) (hn : g.literal.isNegated = false) {f : Clause ℚ} (hf : f ∈ g.facts) (prune : Bool)
    {b : Body ℚ} (hb : b ∈ (r.prover prune).expand f.head) {l : Literal ℚ} (hl : l ∈ b) :
    r.table.Resolved V l ∧ l.isNegated = false ∧ ∃ c ∈ q.kb.facts.clauses, c.head.id = l.id := by
  obtain ⟨hleaf, hocc⟩ := Prover.expand_consists (hv.prover_sound (hv.unweighted hd.rule)) f.head b hb l hl
  have hlit : r.table.Resolved V l ∧ l.isNegated = false := by
    rcases hocc with rfl | ⟨id, body, hr, hm⟩
    · obtain ⟨hres, hp⟩ := hv.resolved hi hf
      refine ⟨hres, ?_⟩
      rw [Literal.isNegated, hp]
      exact hn
    · obtain ⟨c, n, hc, -, rfl⟩ := (Prover.ofSnapshot_rule _ _).1 hr
      have hcomp := r.table.snapshot_spec.1.given c (Array.mem_toList_iff.1 (Prover.mem_numberRules.1 ⟨n, hc⟩))
      obtain ⟨x, hx, rfl⟩ := List.mem_map.1 hm
      obtain ⟨hres, hpos, hw⟩ := hv.completed_body hd hcomp hx
      rw [Prover.mark_of_not hw]
      exact ⟨hres, hpos⟩
  exact ⟨hlit.1, hlit.2, hv.stated_of_leaf hlit.1 hlit.2 hleaf⟩

end Run
end Credence
