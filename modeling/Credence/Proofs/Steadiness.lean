import Credence.Proofs.Coins
import Credence.Proofs.Entries
import Credence.Proofs.Probability
/-!
# Decisions that stand

A run decides each negation once, from the proofs that its base has at the time.  A decision stands when what is known in
the end bears it out (`Run.Stands`): a negation that was taken for certain has nothing against it, one that was given up
has nothing left, and one that was given a weight is known to be against all that there is.  All decisions stand where the
atoms that are negated are stated and no rule gives them (`Agenda.steady_of_onlyStates`).

Where all decisions stand, a finished table is right in every world and in every layer (`Concluded.right`).  The proofs of
a goal then picture the worlds, and their weighted count is the weight of the worlds that the goal is right about
(`Concluded.probability_eq`).
-/
namespace Credence

open Prover (isRuleWeight mark Closed Met AnyMet)

/-- Atoms of the predicate are stated, if at all: it is no head, and no literal of it meets two facts. -/
structure KnowledgeBase.OnlyStates (kb : KnowledgeBase ℚ) (p : Predicate) : Prop where
  head : ∀ c ∈ kb.rules.clauses, c.head.predicate ≠ p
  fact : ∀ l : Literal ℚ, l.predicate = p → ∀ c ∈ kb.factsFor l, ∀ d ∈ kb.factsFor l,
    (l.unify c.head).isSome = true → (l.unify d.head).isSome = true → c = d

namespace Run

variable {q : Query ℚ} {V : Vocabulary ℚ} {r : Run ℚ} {layer : Predicate → Nat} {n : Nat}

/-! ## Decisions -/

/-- What is recorded as standing against a negation, by its id. -/
def against (r : Run ℚ) (id : String) : List (Literal ℚ) := (r.table.negations[id]?.map Prod.snd).getD []

/-- **A decision that stands**: what is known in the end of the negation `g` and its base `b` bears it out. -/
structure Stands (q : Query ℚ) (r : Run ℚ) (g b : Subgoal ℚ) (base : Literal ℚ) : Prop where
  certain : ∀ f ∈ g.facts, f.head.isCertain = true → b.facts = []
  dropped : g.facts = [] → IsDropped q (r.complement q base b)
  against : ∀ f ∈ g.facts, ∀ c ∈ b.facts, c.head ∈ r.against f.head.id

/-- **A steady run**: its decisions stand. -/
def Steady (q : Query ℚ) (r : Run ℚ) : Prop :=
  ∀ i j g b base, r.Opposes i j g b → g.literal.negate = .ok base → r.Stands q g b base

/-- A negation has one base. -/
theorem Opposes.unique (hv : r.Valid V q.kb) {i j k : Nat} {g b b' : Subgoal ℚ} (h : r.Opposes i j g b)
    (h' : r.Opposes i k g b') : b = b' := by
  obtain ⟨l, hneg, hvar⟩ := h.literal
  obtain ⟨l', hneg', hvar'⟩ := h'.literal
  rw [hneg] at hneg'
  injection hneg' with e
  obtain rfl := hv.goal_unique h.base h'.base (hvar.trans (e ▸ hvar'.symm))
  exact goal_eq h.base h'.base

/-- What is negated covers the same as the goal of the base. -/
theorem Opposes.base_spec (hv : r.Valid V q.kb) {i j : Nat} {g b : Subgoal ℚ} (h : r.Opposes i j g b) {base : Literal ℚ}
    (hneg : g.literal.negate = .ok base) : base.isWellFormed = true ∧ base.isPlain = true ∧ base.isNegated = false ∧
      base.isSemiGrounded = true ∧ ∀ a, b.literal.Covers a ↔ base.Covers a := by
  obtain ⟨l, hl, hvar⟩ := h.literal
  have hg := hv.goal i g h.goal
  obtain ⟨l', hl', hshape, hpos, hlit⟩ := hg.literal.negate h.negated
  rw [hneg] at hl hl'
  injection hl with hl
  injection hl' with hl'
  subst hl hl'
  refine ⟨hlit.wellFormed, hlit.isPlain, hpos, ?_,
    Literal.covers_iff_of_variant_eq (hv.goal j b h.base).literal.isPlain hlit.isPlain hvar⟩
  rw [Literal.isSemiGrounded, hshape]
  exact hg.negation h.negated

/-- A literal that covers what a goal covers meets its facts. -/
theorem Valid.unify_fact (hv : r.Valid V q.kb) {j : Nat} {b : Subgoal ℚ} (hj : r.table.goal? j = some b)
    (hn : b.literal.isNegated = false) {f : Clause ℚ} (hf : f ∈ b.facts) {m : Literal ℚ} (hm : m.isWellFormed = true)
    (hcov : ∀ a, b.literal.Covers a → m.Covers a) : (m.unify f.head).isSome = true := by
  have hacc := (hv.goal j b hj).fact f hf
  obtain ⟨a, w, ha, -, ha', -⟩ := hacc.positive hn
  have hwf : a.WellFormed := Vocabulary.HasLiteral.wellFormed_atom (ha ▸ hacc.literal)
  rw [ha]
  exact (Literal.unify_literal_isSome_iff hm hwf).2 (hcov a ha')

/-! ## Bases that are only stated

A goal that one stated fact meets has it before any negation is decided, and no rule adds anything to it.  So what a
negation of it was decided from is what is known in the end. -/

section Stated

variable {j : Nat} {b : Subgoal ℚ} {c : Clause ℚ}

/-- A fact of such a goal is its only one. -/
theorem Valid.facts_of_onlyStates (hv : r.Valid V q.kb) (hkb : q.kb.Regular V) (hj : r.table.goal? j = some b)
    (hn : b.literal.isNegated = false) (hs : q.kb.OnlyStates b.literal.predicate) (hc : c ∈ b.facts) :
    q.kb.Sole b.literal c ∧ b.facts = [c] := by
  have hb := hv.goal j b hj
  have hstated : ∀ f ∈ b.facts, f ∈ q.kb.factsFor b.literal ∧ (b.literal.unify f.head).isSome = true := by
    intro f hf
    have hacc := hb.fact f hf
    obtain ⟨a, w, ha, -, hcov, hst | ⟨-, d, hd, -⟩⟩ := hacc.positive hn
    · have hfact : f = .fact (a.literal w) := by
        rw [← ha]
        exact hacc.eq_fact
      refine ⟨hfact ▸ hkb.mem_factsFor_of_covers hst hcov, ?_⟩
      rw [ha]
      exact (Literal.unify_literal_isSome_iff hb.literal.wellFormed (hkb.of_states hst).1.wellFormed_atom).2 hcov
    · obtain ⟨a', -, ⟨κ, hcov', -⟩, rule, hrule, μ, hadm, -⟩ := (hb.grounded d hd).trace
      exact absurd (hadm.1.trans hcov'.symm) (hs.head rule hrule)
  obtain ⟨hlooked, hmeets⟩ := hstated c hc
  have hall : ∀ f ∈ b.facts, f = c := by
    intro f hf
    obtain ⟨h1, h2⟩ := hstated f hf
    exact hs.fact b.literal rfl f h1 c hlooked h2 hmeets
  refine ⟨⟨hlooked, hmeets, fun d hd hu => hs.fact b.literal rfl d hd c hlooked hu hmeets⟩, ?_⟩
  have hnodup : b.facts.Nodup := hb.store.nodup.of_map Clause.key
  have hrep := List.eq_replicate_of_mem hall
  rw [hrep, List.nodup_replicate] at hnodup
  have hpos := List.length_pos_of_mem hc
  rw [hrep, show b.facts.length = 1 by omega]
  rfl

/-- What is left to the negation of such a goal is what the weight of the fact leaves. -/
theorem Valid.complement_of_onlyStates (hv : r.Valid V q.kb) (hkb : q.kb.Regular V) (hj : r.table.goal? j = some b)
    (hn : b.literal.isNegated = false) (hs : q.kb.OnlyStates b.literal.predicate) (hc : c ∈ b.facts) {base : Literal ℚ}
    (hu : (base.unify c.head).isSome = true) : r.complement q base b = 1 - c.head.weight := by
  obtain ⟨hres, hp⟩ := hv.resolved hj hc
  have hneg : c.head.isNegated = false := by
    rw [Literal.isNegated, hp]
    exact hn
  have hnone := hv.none_of_no_head hres.literal.isPlain (fun d hd e => hs.head d hd (e.trans hp)) q.settings.pruneCertain
  have hset : (r.prover q.settings.pruneCertain).proofSet (b.facts.map Clause.head) = .ofProofs [⟨c.head, [c.head]⟩] := by
    rw [(hv.facts_of_onlyStates hkb hj hn hs hc).2]
    exact Prover.proofSet_of_leaf hneg hnone
  have hestimate : r.estimate q base (b.facts.map Clause.head) = c.head.weight := by
    rw [← Estimator.probability_ofLeaf hneg hu q.settings, ← hset]
    rfl
  rw [complement, hestimate]

/-- **A run is steady when what its negations negate is only stated.** -/
theorem Agenda.steady_of_onlyStates (h : r.Agenda q V []) (hkb : q.kb.Regular V)
    (hs : ∀ p ∈ V.predicates, p.isNegated = true → q.kb.OnlyStates p.positive) : r.Steady q := by
  intro i j g b base hop hneg
  obtain ⟨r₀, k, b₀, b', base', outcome, hv₀, hprov, hgrow, hb₀, hop', hbb, hneg', hout, hfacts⟩ :=
    h.exists_decision hop.goal hop.negated
  obtain rfl := hop.unique h.valid hop'
  obtain rfl : base = base' := by
    rw [hneg] at hneg'
    injection hneg'
  obtain ⟨hp, hn⟩ := hop.predicate h.valid
  have honly : q.kb.OnlyStates b.literal.predicate := hp ▸ hs _ (h.valid.goal i g hop.goal).literal.predicate hop.negated
  have hn₀ : b₀.literal.isNegated = false := hbb.literal ▸ hn
  have honly₀ : q.kb.OnlyStates b₀.literal.predicate := hbb.literal ▸ honly
  -- a fact that the base has in the end it had when the negation was decided
  have hhad : ∀ c ∈ b.facts, c ∈ b₀.facts := by
    intro c hc
    have hsole := (h.valid.facts_of_onlyStates hkb hop.base hn honly hc).1
    exact hprov k b₀ c hb₀ hn₀ (hbb.literal ▸ hsole)
  have hweight : ∀ c ∈ b.facts, 0 < c.head.weight := by
    intro c hc
    obtain ⟨a, w, ha, hw, -⟩ := ((h.valid.goal j b hop.base).fact c hc).positive hn
    have hproper : 0 < w ∧ w ≤ 1 := of_decide_eq_true (V.proper w hw)
    rw [ha]
    exact hproper.1
  obtain ⟨hwf, -, -, -, hcov⟩ := hop.base_spec h.valid hneg
  have hmeets : ∀ c ∈ b.facts, (base.unify c.head).isSome = true := fun c hc =>
    h.valid.unify_fact hop.base hn hc hwf (fun a => (hcov a).1)
  have hleft : ∀ c ∈ b.facts, r₀.complement q base b₀ = 1 - c.head.weight ∧ r.complement q base b = 1 - c.head.weight :=
    fun c hc => ⟨hv₀.complement_of_onlyStates hkb hb₀ hn₀ honly₀ (hhad c hc) (hmeets c hc),
      h.valid.complement_of_onlyStates hkb hop.base hn honly hc (hmeets c hc)⟩
  cases hout with
  | certain he =>
    have hnone : b.facts = [] := List.eq_nil_iff_forall_not_mem.2 (fun c hc => by simpa [he] using hhad c hc)
    refine ⟨fun _ _ _ => hnone, fun hnil => ?_, fun _ _ c hc => ?_⟩
    · rw [hfacts] at hnil
      cases hnil
    · rw [hnone] at hc
      cases hc
  | dropped he hd =>
    obtain ⟨c, hc⟩ := List.exists_mem_of_ne_nil _ he
    obtain ⟨h1, h2⟩ := hleft c (hbb.facts c hc)
    refine ⟨fun f hf _ => ?_, fun _ => by rwa [h2, ← h1], fun f hf _ _ => ?_⟩
    · rw [hfacts] at hf
      cases hf
    · rw [hfacts] at hf
      cases hf
  | @weighted leaf he hd hl hent =>
    refine ⟨fun f hf hcert => ?_, fun hnil => ?_, fun f hf c hc => ?_⟩
    · -- the fact has some weight, so not all is left to the negation
      obtain ⟨c, hc⟩ := List.exists_mem_of_ne_nil _ he
      have hc' := hbb.facts c hc
      rw [hfacts] at hf
      obtain rfl := List.mem_singleton.1 hf
      have hone : leaf.weight = 1 := (LawfulWeight.isCertain_iff _).1 hcert
      rw [hl, show ({ g.literal with weight := r₀.complement q base b₀ } : Literal ℚ).weight = 1 - c.head.weight from
        (hleft c hc').1] at hone
      linarith [hweight c hc']
    · rw [hfacts] at hnil
      cases hnil
    · rw [hfacts] at hf
      obtain rfl := List.mem_singleton.1 hf
      rw [against, show (Clause.fact leaf).head.id = leaf.id from rfl, hent]
      exact List.mem_map_of_mem (hhad c hc)

end Stated

/-- **A steady run that is over**, of a program in layers that draws every rule weight once. -/
structure Concluded (q : Query ℚ) (V : Vocabulary ℚ) (layer : Predicate → Nat) (r : Run ℚ) : Prop where
  agenda    : r.Agenda q V []
  query     : q.Regular V
  layered   : q.kb.positiveTheory.Layered layer
  once      : q.kb.DrawsOnce
  negations : ∀ p ∈ V.predicates, p.isNegated = true → Text.startsWith KnowledgeBase.weightMark p.base = false
  entered   : r.Entered
  steady    : r.Steady q

/-! ## Worlds -/

/-- What is true in a world, by the names of proofs. -/
noncomputable def truth (q : Query ℚ) (layer : Predicate → Nat) (r : Run ℚ) (B : Finset (Clause ℚ)) : String → Prop :=
  TrueAt r.name ((q.kb.world B).perfect layer) B

/-- The same, by the ids of stated facts. -/
def leaf (q : Query ℚ) (layer : Predicate → Nat) (B : Finset (Clause ℚ)) : String → Prop :=
  TrueAt (fun c => c.head.id) ((q.kb.world B).perfect layer) B

/-- **Right up to a layer**: in every world the negations up to there are those that hold. -/
def RightUpTo (q : Query ℚ) (layer : Predicate → Nat) (r : Run ℚ) (n : Nat) : Prop :=
  ∀ B ⊆ q.kb.uncertain, r.Denies layer ((q.kb.world B).perfect layer) (leaf q layer B) n

namespace Concluded

variable {B : Finset (Clause ℚ)} {i : Nat} {g : Subgoal ℚ} {l : Literal ℚ} {prune : Bool}

theorem valid (h : r.Concluded q V layer) : r.Valid V q.kb := h.agenda.valid

theorem drawsOnce (h : r.Concluded q V layer) : r.DrawsOnce := h.agenda.drawsOnce h.once

theorem unweighted (h : r.Concluded q V layer) : r.Unweighted := h.valid.unweighted h.once.head

theorem names (h : r.Concluded q V layer) : Names q.kb r.name := h.valid.names h.query.kb h.once

theorem prover_sound (h : r.Concluded q V layer) : (r.prover prune).Sound := h.valid.prover_sound h.unweighted

theorem facts_of_subset (hB : B ⊆ q.kb.uncertain) : ∀ c ∈ B, c ∈ q.kb.facts.clauses := fun _ hc =>
  (KnowledgeBase.mem_uncertain.1 (hB hc)).1

/-- In a world, the alternatives of a resolved literal come from what completed rules lead to. -/
theorem anyMet_iff_reaches (h : r.Concluded q V layer) (hB : B ⊆ q.kb.uncertain) (hl : r.table.Resolved V l)
    (hw : isRuleWeight l = false) :
    AnyMet (truth q layer r B) ((r.prover prune).expand l) ↔ r.Reaches (leaf q layer B) l.id := by
  have hfacts := facts_of_subset hB
  have hcert : (r.prover prune).prune = true → ∀ x : Literal ℚ, x.isCertain = true → truth q layer r B x.id :=
    fun _ x hx => .inl ((Literal.isCertain_iff_idWeight x).1 hx)
  rw [Prover.expand_spec h.prover_sound hcert]
  exact h.valid.derives_iff h.unweighted (fun x hx hxw => h.valid.trueAt_name h.query.kb h.once hfacts hx hxw)
    (fun c k hc x hx hxw => h.valid.trueAt_mark h.query.kb h.once h.drawsOnce hfacts hc hx hxw) hl hw

/-- **A goal in a world**, where the table is right up to its layer. -/
theorem anyMet_iff (h : r.Concluded q V layer) (hr : RightUpTo q layer r n) (hB : B ⊆ q.kb.uncertain)
    (hi : r.table.goal? i = some g) (hn : g.literal.isNegated = false) (hw : isRuleWeight g.literal = false)
    (hle : layer g.literal.predicate ≤ n) (prune : Bool) :
    (∃ f ∈ g.facts, AnyMet (truth q layer r B) ((r.prover prune).expand f.head)) ↔ q.kb.PerfectIn g.literal B := by
  have hT : (q.kb.world B).Layered layer := h.layered
  have hspeaks := h.query.kb.speaks_world (M := (q.kb.world B).perfect layer) (facts_of_subset hB)
  have hholds := fun {a : Atom} =>
    h.agenda.settled.holds_iff (a := a) h.query hspeaks hT hT.isStable_perfect (hr B hB) hi hn hle
  rw [KnowledgeBase.perfectIn_iff h.layered]
  have hfact : ∀ f ∈ g.facts, AnyMet (truth q layer r B) ((r.prover prune).expand f.head) ↔
      r.Reaches (leaf q layer B) f.head.id := by
    intro f hf
    obtain ⟨hres, hp⟩ := h.valid.resolved hi hf
    exact h.anyMet_iff_reaches hB hres ((Prover.isRuleWeight_congr hp).trans hw)
  constructor
  · rintro ⟨f, hf, hm⟩
    have hacc := (h.valid.goal i g hi).fact f hf
    obtain ⟨a, w, e, -, hcov, -⟩ := hacc.positive hn
    refine ⟨a, hcov, (hholds hcov).1 ⟨w, ?_, ?_⟩⟩
    · rw [← e, ← hacc.eq_fact]
      exact hf
    · rw [← e]
      exact (hfact f hf).1 hm
  · rintro ⟨a, hcov, ha⟩
    obtain ⟨w, hf, hreach⟩ := (hholds hcov).2 ha
    exact ⟨_, hf, (hfact _ hf).2 hreach⟩

end Concluded

/-! ## Low leaves -/

/-- The literal is one of the table, from a layer up to `n`, as it stands in proofs. -/
def Comes (V : Vocabulary ℚ) (layer : Predicate → Nat) (r : Run ℚ) (n : Nat) (x : Literal ℚ) : Prop :=
  ∃ m, r.table.Resolved V m ∧ depth layer m.predicate ≤ n ∧
    (x = m ∧ isRuleWeight m = false ∨ ∃ c, r.table.snapshot.Draws c m x)

namespace Comes

variable {x : Literal ℚ} {k : Nat}

theorem mono (h : Comes V layer r n x) (hk : n ≤ k) : Comes V layer r k x := by
  obtain ⟨m, hm, hle, hx⟩ := h
  exact ⟨m, hm, hle.trans hk, hx⟩

theorem isPlain (h : Comes V layer r n x) : x.isPlain = true := by
  obtain ⟨m, hm, -, ⟨rfl, -⟩ | ⟨c, k, -, -, -, rfl⟩⟩ := h
  · exact hm.literal.isPlain
  · exact (Prover.isPlain_mark hm.literal.isPlain k).1

/-- A negation comes as it is resolved. -/
theorem resolved (h : Comes V layer r n x) (hn : x.isNegated = true) :
    r.table.Resolved V x ∧ depth layer x.predicate ≤ n := by
  obtain ⟨m, hm, hle, ⟨rfl, -⟩ | ⟨c, k, -, -, hw, rfl⟩⟩ := h
  · exact ⟨hm, hle⟩
  · have hweigh := (Prover.isPlain_mark hm.literal.isPlain k).2.trans hw
    rw [Prover.isNegated_of_isRuleWeight hweigh] at hn
    cases hn

theorem low (h : Comes V layer r n x) (hn : x.isNegated = true) : Comes V layer r (depth layer x.predicate) x := by
  refine ⟨x, (h.resolved hn).1, Nat.le_refl _, .inl ⟨rfl, ?_⟩⟩
  rw [isRuleWeight, hn]
  rfl

theorem closed (h : Comes V layer r n x) : Closed x := by
  refine ⟨h.isPlain, ?_⟩
  cases hn : x.isNegated with
  | true => exact (h.resolved hn).1.negation hn
  | false =>
    obtain ⟨m, hm, -, ⟨rfl, -⟩ | ⟨c, k, -, -, hw, rfl⟩⟩ := h
    · obtain ⟨a, w, rfl, -⟩ := hm.atom hn
      exact Atom.literal_isSemiGrounded a w
    · obtain ⟨a, w, rfl, -⟩ := hm.atom (Prover.isNegated_of_isRuleWeight hw)
      rw [Prover.mark_of_weight hw, Literal.isSemiGrounded, Literal.extend, List.all_append,
        show (a.literal w).terms.all _ = true from Atom.literal_isSemiGrounded a w]
      rfl

end Comes

namespace Concluded

variable {i j : Nat} {g b : Subgoal ℚ} {x base : Literal ℚ} {targets : List (Literal ℚ)} {prune : Bool}

/-- Facts come from the layer of their goal. -/
theorem comes_fact (h : r.Concluded q V layer) (hi : r.table.goal? i = some g) (hw : isRuleWeight g.literal = false)
    (hle : depth layer g.literal.predicate ≤ n) {f : Clause ℚ} (hf : f ∈ g.facts) : Comes V layer r n f.head := by
  obtain ⟨hres, hp⟩ := h.valid.resolved hi hf
  exact ⟨f.head, hres, hp ▸ hle, .inl ⟨rfl, (Prover.isRuleWeight_congr hp).trans hw⟩⟩

/-- **Rules lead to nothing above them.** -/
theorem comes_rule (h : r.Concluded q V layer) (hx : Comes V layer r n x) {body : Body ℚ}
    (hr : (r.prover prune).Rule x.id body) : ∀ y ∈ body, Comes V layer r n y := by
  obtain ⟨c, k, hc, hid, rfl⟩ := (Prover.ofSnapshot_rule _ _).1 hr
  have hcomp := r.table.snapshot_spec.1.given c (Array.mem_toList_iff.1 (Prover.mem_numberRules.1 ⟨k, hc⟩))
  obtain ⟨hplain, hpos⟩ := h.valid.completed_head h.query.kb hcomp
  have hweigh := Prover.isRuleWeight_of_id_eq hplain hx.isPlain hid
  rw [h.unweighted c hcomp] at hweigh
  obtain ⟨m, hm, hle, ⟨rfl, -⟩ | ⟨d, k', -, -, hmw, rfl⟩⟩ := hx
  · intro y hy
    obtain ⟨z, hz, rfl⟩ := List.mem_map.1 hy
    have hdepth := (h.valid.completed_depth h.layered q.kb.speaks hcomp hz).2
    rw [← depth_of_positive layer hpos, Literal.predicate_eq_of_id_eq hplain hm.literal.isPlain hid] at hdepth
    refine ⟨z, (h.valid.completed_isPlain hcomp).2 z hz, hdepth.trans hle, ?_⟩
    cases hzw : isRuleWeight z with
    | false => exact .inl ⟨Prover.mark_of_not hzw, rfl⟩
    | true => exact .inr ⟨c, k, hc, hz, hzw, rfl⟩
  · rw [(Prover.isPlain_mark hm.literal.isPlain k').2, hmw] at hweigh
    cases hweigh

theorem comes_expand (h : r.Concluded q V layer) (hx : Comes V layer r n x) :
    (r.prover prune).Consists (Comes V layer r n) ((r.prover prune).expand x) :=
  Prover.expand_built h.prover_sound (fun _ hy _ hr => h.comes_rule hy hr) hx

theorem comes_proof (h : r.Concluded q V layer) (ht : ∀ t ∈ targets, Comes V layer r n t) {p : Clause ℚ}
    (hp : p ∈ (r.prover prune).proofsOf targets) : ∀ x ∈ p.body, (r.prover prune).Leaf x.id ∧ Comes V layer r n x := by
  obtain ⟨hhead, hbody⟩ := Prover.of_mem_proofsOf hp
  exact h.comes_expand (ht _ hhead) _ hbody

theorem met_iff (h : r.Concluded q V layer) (ht : ∀ t ∈ targets, Comes V layer r n t) (S : String → Prop) :
    (∃ p ∈ (r.prover prune).proofsOf targets, Met S p.body) ↔ ∃ t ∈ targets, AnyMet S ((r.prover prune).expand t) :=
  Prover.proofsOf_met (fun t hm => (ht t hm).closed) (fun t hm b hb l hl => (h.comes_expand (ht t hm) b hb l hl).2.closed) S

/-- No negation is about a rule weight. -/
theorem not_isRuleWeight_base (h : r.Concluded q V layer) (hop : r.Opposes i j g b) : isRuleWeight b.literal = false := by
  have hmark := h.negations _ (h.valid.goal i g hop.goal).literal.predicate hop.negated
  have hname : b.literal.name = g.literal.predicate.base := by
    rw [Literal.name, (hop.predicate h.valid).1]
    rfl
  rw [isRuleWeight, hname, hmark, Bool.and_false]

/-- **A negation of a proof has been decided**, and its base stands below. -/
theorem exists_decision (h : r.Concluded q V layer) (hx : Comes V layer r n x) (hn : x.isNegated = true) :
    ∃ i j g b base f, r.Opposes i j g b ∧ r.Stands q g b base ∧ f ∈ g.facts ∧ f.head.id = x.id ∧
      layer b.literal.predicate < n := by
  obtain ⟨hres, hle⟩ := hx.resolved hn
  obtain ⟨f, ⟨i, g, hi, hf⟩, hid⟩ := hres.known
  obtain ⟨hfres, hfp⟩ := h.valid.resolved hi hf
  have hp : g.literal.predicate = x.predicate :=
    hfp.symm.trans (Literal.predicate_eq_of_id_eq hfres.literal.isPlain hres.literal.isPlain hid)
  have hgn : g.literal.isNegated = true := by
    rw [Literal.isNegated, hp]
    exact hn
  obtain ⟨_, j, _, b, base, _, -, -, -, -, hop, -, hneg, -, -⟩ := h.agenda.exists_decision hi hgn
  refine ⟨i, j, g, b, base, f, hop, h.steady i j g b base hop hneg, hf, hid, ?_⟩
  rw [← hp, hop.depth_eq h.valid] at hle
  omega

/-- **What a negation is entered against** is all that its base has. -/
theorem mem_against (h : r.Concluded q V layer) (hop : r.Opposes i j g b) (hstands : r.Stands q g b base) {f : Clause ℚ}
    (hf : f ∈ g.facts) : x ∈ r.against f.head.id ↔ ∃ c ∈ b.facts, c.head = x := by
  constructor
  · intro hx
    rw [against] at hx
    cases hk : r.table.negations[f.head.id]? with
    | none =>
      rw [hk] at hx
      cases hx
    | some v =>
      rw [hk] at hx
      obtain ⟨i', k, g', b', hop', hp, ht, hfacts⟩ := h.entered _ v hk
      -- an entry with the id of a fact is about the negation that has the fact
      have hshape : ∀ {i : Nat} {g : Subgoal ℚ} {m : Literal ℚ}, r.table.goal? i = some g → g.literal.isNegated = true →
          m.predicate = g.literal.predicate → m.terms = g.literal.terms → Closed m ∧ m.variant = g.literal.variant := by
        intro i g m hi hn hmp hmt
        have hg := h.valid.goal i g hi
        refine ⟨⟨(Literal.isPlain_congr hmp hmt).trans hg.literal.isPlain, ?_⟩, Literal.variant_congr hmp hmt⟩
        rw [Literal.isSemiGrounded, hmt]
        exact hg.negation hn
      obtain ⟨hfp, hft⟩ := ((h.valid.goal i g hop.goal).fact f hf).negative hop.negated
      obtain ⟨hcv, hvv⟩ := hshape hop'.goal hop'.negated hp ht
      obtain ⟨hcf, hvf⟩ := hshape hop.goal hop.negated hfp hft
      have hid := (h.valid.negations _ v hk).1
      have hvar := (Literal.variant_eq_of_id_eq hcv.1 hcf.1 hcv.2 hcf.2 hid).2
      obtain rfl := h.valid.goal_unique hop'.goal hop.goal (hvv.symm.trans (hvar.trans hvf))
      obtain rfl := goal_eq hop'.goal hop.goal
      rw [hop.unique h.valid hop']
      exact hfacts x hx
  · rintro ⟨c, hc, rfl⟩
    exact hstands.against f hf c hc

theorem bases_eq (h : r.Concluded q V layer) (id : String) : (r.prover prune).bases id = r.against id := by
  have hsnap := r.table.snapshot_spec.2.2 (fun k v hk => (h.valid.negations k v hk).1) id
  show r.table.snapshot.negations.getD id [] = _
  rw [Std.HashMap.getD_eq_getD_getElem?, hsnap]
  rfl

/-- What stands against a negation of a proof comes from below. -/
theorem comes_bases (h : r.Concluded q V layer) (prune : Bool) (hx : Comes V layer r n x) (hn : x.isNegated = true) :
    ∃ k < n, ∀ t ∈ (r.prover prune).bases x.id, Comes V layer r k t := by
  obtain ⟨i, j, g, b, base, f, hop, hstands, hf, hid, hlt⟩ := h.exists_decision hx hn
  refine ⟨layer b.literal.predicate, hlt, fun t ht => ?_⟩
  rw [h.bases_eq, ← hid, h.mem_against hop hstands hf] at ht
  obtain ⟨c, hc, rfl⟩ := ht
  refine h.comes_fact hop.base (h.not_isRuleWeight_base hop) ?_ hc
  rw [depth_of_positive layer (hop.predicate h.valid).2]

/-- **Every negation that is met comes from below the targets.** -/
theorem comes_meets (h : r.Concluded q V layer) (ht : ∀ t ∈ targets, Comes V layer r n t) {id : String}
    (hm : (r.prover prune).Meets targets id) : ∃ x, Comes V layer r n x ∧ x.isNegated = true ∧ x.id = id := by
  have hof : ∀ {ts : List (Literal ℚ)} {id}, (∀ t ∈ ts, Comes V layer r n t) → (r.prover prune).NegationOf ts id →
      ∃ x, Comes V layer r n x ∧ x.isNegated = true ∧ x.id = id := by
    rintro ts id hts ⟨p, hp, x, hx, hn, e⟩
    exact ⟨x, (h.comes_proof hts hp x hx).2, hn, e⟩
  induction hm with
  | direct hd => exact hof ht hd
  | behind _ hd ih =>
    obtain ⟨x, hx, hn, rfl⟩ := ih
    obtain ⟨k, hk, hbases⟩ := h.comes_bases prune hx hn
    exact hof (fun t ht => (hbases t ht).mono hk.le) hd

/-! ## Pictures -/

/-- The positive leaves of proofs are stated, under their names. -/
theorem stated (h : r.Concluded q V layer) (hx : Comes V layer r n x) (hn : x.isNegated = false)
    (hleaf : (r.prover prune).Leaf x.id) : x.isCertain = true ∨ ∃ c ∈ q.kb.uncertain, r.name c = x.id := by
  suffices hfact : ∃ c ∈ q.kb.facts.clauses, r.name c = x.id ∧ c.head.isCertain = x.isCertain by
    obtain ⟨c, hc, hname, hcert⟩ := hfact
    cases hone : x.isCertain with
    | true => exact .inl rfl
    | false => exact .inr ⟨c, KnowledgeBase.mem_uncertain.2 ⟨hc, hcert.trans hone⟩, hname⟩
  obtain ⟨m, hm, -, ⟨rfl, hw⟩ | ⟨d, hd⟩⟩ := hx
  · obtain ⟨c, hc, hid⟩ := h.valid.stated_of_leaf hm hn hleaf
    have hplain : c.head.isPlain = true := by
      obtain ⟨a, w, rfl, ha, -⟩ := h.query.kb.fact c hc
      exact ha.isPlain
    refine ⟨c, hc, ?_, ?_⟩
    · rcases r.name_cases c with ⟨y, hy, -⟩ | ⟨-, e⟩
      · have hno := (h.valid.draft h.query.kb hc hy).fact
        rw [Prover.isRuleWeight_of_id_eq hplain hm.literal.isPlain hid, hw] at hno
        cases hno
      · exact e.trans hid
    · rw [Literal.isCertain, Literal.isCertain, Literal.weight_eq_of_id hid]
  · obtain ⟨k, -, -, hmw, rfl⟩ := id hd
    obtain ⟨a, w, rfl, -⟩ := hm.atom (Prover.isNegated_of_isRuleWeight hmw)
    rcases h.valid.source hm (Prover.isNegated_of_isRuleWeight hmw) with hs | ⟨-, c, hc, hp⟩
    · refine ⟨_, hs, h.drawsOnce.name_eq ⟨d, _, hd, rfl⟩, ?_⟩
      rw [Literal.isCertain, Literal.isCertain, Prover.mark_weight]
      rfl
    · have hno := h.once.head c hc
      rw [Prover.isRuleWeight_congr (m := a.literal w) hp, hmw] at hno
      cases hno

/-- A negation of a proof is true in the worlds that have no instance of its base. -/
theorem truth_negation (h : r.Concluded q V layer) (hr : RightUpTo q layer r n) {B : Finset (Clause ℚ)}
    (hB : B ⊆ q.kb.uncertain) (hop : r.Opposes i j g b) (hstands : r.Stands q g b base) {f : Clause ℚ} (hf : f ∈ g.facts)
    (hle : layer b.literal.predicate ≤ n) :
    truth q layer r B f.head.id ↔ ¬ q.kb.PerfectIn b.literal B := by
  obtain ⟨hres, hp⟩ := h.valid.resolved hop.goal hf
  have hfn : f.head.isNegated = true := by
    rw [Literal.isNegated, hp]
    exact hop.negated
  have hterms := (((h.valid.goal i g hop.goal).fact f hf).negative hop.negated).2
  have hvalues : ∀ ν, f.head.values ν = g.literal.values ν := fun ν => by rw [Literal.values, Literal.values, hterms]
  have hbn := (hop.predicate h.valid).2
  have hperfect : q.kb.PerfectIn b.literal B ↔
      ¬ ∀ ν, Unless ((q.kb.world B).perfect layer) f.head.predicate (f.head.values ν) := by
    rw [KnowledgeBase.perfectIn_iff h.layered, hp]
    simp only [hvalues, hop.unless_iff h.valid]
    constructor
    · rintro ⟨a, hcov, ha⟩ hno
      exact hno (fun _ => ⟨""⟩) a hcov ha
    · exact fun hno => by_contra fun hnone => hno fun _ a hcov ha => hnone ⟨a, hcov, ha⟩
  rw [truth, trueAt_negation h.names (facts_of_subset hB) ⟨hres.literal.isPlain, hres.negation hfn⟩ hfn, hperfect, not_not,
    or_iff_right_of_imp]
  -- a certain negation has nothing against it
  intro hcert
  by_contra hno
  obtain ⟨c, hc, -⟩ := (h.anyMet_iff hr hB hop.base hbn (h.not_isRuleWeight_base hop) hle false).2 (hperfect.2 hno)
  rw [hstands.certain f hf hcert] at hc
  cases hc

/-- What a recorded negation is met as. -/
theorem recorded (h : r.Concluded q V layer) (ht : ∀ t ∈ targets, Comes V layer r n t) {id : String}
    {base : List (Clause ℚ)} (hb : ((r.prover prune).proofSet targets).negations[id]? = some base) :
    (r.prover prune).Meets targets id ∧ base = (r.prover prune).proofsOf ((r.prover prune).bases id) ∧
      ∃ x, Comes V layer r n x ∧ x.isNegated = true ∧ x.id = id := by
  obtain ⟨hm, hbase⟩ := Prover.proofSet_negations.1 hb
  exact ⟨hm, hbase, h.comes_meets ht hm⟩

theorem occurs (h : r.Concluded q V layer) (ht : ∀ t ∈ targets, Comes V layer r n t)
    (hx : ((r.prover prune).proofSet targets).Occurs x) :
    (r.prover prune).Leaf x.id ∧ Comes V layer r n x ∧ (x.isNegated = true → (r.prover prune).Meets targets x.id) := by
  rcases hx with ⟨p, hp, hx⟩ | ⟨id, base, hb, p, hp, hx⟩
  · obtain ⟨hleaf, hcomes⟩ := h.comes_proof ht hp x hx
    exact ⟨hleaf, hcomes, fun hn => .direct ⟨p, hp, x, hx, hn, rfl⟩⟩
  · obtain ⟨hm, rfl, y, hy, hn, rfl⟩ := h.recorded ht hb
    obtain ⟨k, hk, hbases⟩ := h.comes_bases prune hy hn
    obtain ⟨hleaf, hcomes⟩ := h.comes_proof hbases hp x hx
    exact ⟨hleaf, hcomes.mono hk.le, fun hn => .behind hm ⟨p, hp, x, hx, hn, rfl⟩⟩

open Classical in
/-- The layer of a negation, by its id. -/
noncomputable def rank (V : Vocabulary ℚ) (layer : Predicate → Nat) (r : Run ℚ) (n : Nat) (id : String) : Nat :=
  if h : ∃ x, Comes V layer r n x ∧ x.id = id then depth layer h.choose.predicate else 0

theorem rank_id (hx : Comes V layer r n x) : rank V layer r n x.id = depth layer x.predicate := by
  have hex : ∃ y, Comes V layer r n y ∧ y.id = x.id := ⟨x, hx, rfl⟩
  rw [rank, dif_pos hex, Literal.predicate_eq_of_id_eq hex.choose_spec.1.isPlain hx.isPlain hex.choose_spec.2]

/-- **The negations of a proof set rest on lower ones.** -/
theorem acyclic (h : r.Concluded q V layer) (ht : ∀ t ∈ targets, Comes V layer r n t) :
    ((r.prover prune).proofSet targets).Acyclic := by
  refine ProofSet.acyclic_of_rank (rank V layer r n) (fun id id' => ?_)
  rintro ⟨base, hb, p, hp, y, hy, hyn, rfl⟩
  obtain ⟨-, rfl, x, hx, hn, rfl⟩ := h.recorded ht hb
  obtain ⟨k, hk, hbases⟩ := h.comes_bases prune (hx.low hn) hn
  have hcomes := (h.comes_proof hbases hp y hy).2
  rw [rank_id hx, rank_id (hcomes.mono (hk.le.trans (hx.resolved hn).2))]
  exact (hcomes.resolved hyn).2.trans_lt hk

/-- **The proofs of a finished table picture the worlds.** -/
theorem pictures (h : r.Concluded q V layer) (hr : RightUpTo q layer r n) (ht : ∀ t ∈ targets, Comes V layer r n t) :
    ((r.prover prune).proofSet targets).Pictures q.kb r.name (truth q layer r) := by
  refine ⟨h.acyclic ht, fun x hx hn => ?_, fun x hx hn => ?_, fun B hB x hx hn => ?_, fun B hB id base hb => ?_⟩
  · have hrec : ((r.prover prune).proofSet targets).negations[x.id]? = some _ :=
      Prover.proofSet_negations.2 ⟨(h.occurs ht hx).2.2 hn, rfl⟩
    rw [ProofSet.negation?, hrec]
    rfl
  · obtain ⟨hleaf, hcomes, -⟩ := h.occurs ht hx
    exact h.stated hcomes hn hleaf
  · exact trueAt_positive (h.occurs ht hx).2.1.isPlain hn
  · obtain ⟨-, rfl, x, hx, hn, rfl⟩ := h.recorded ht hb
    obtain ⟨i, j, g, b, base, f, hop, hstands, hf, hid, hlt⟩ := h.exists_decision hx hn
    obtain ⟨k, hk, hbases⟩ := h.comes_bases prune hx hn
    rw [h.met_iff hbases, ← hid, h.truth_negation hr hB hop hstands hf hlt.le,
      ← h.anyMet_iff hr hB hop.base (hop.predicate h.valid).2 (h.not_isRuleWeight_base hop) hlt.le prune]
    refine not_congr ⟨fun ⟨c, hc, hm⟩ => ⟨c.head, ?_, hm⟩, fun ⟨t, htm, hm⟩ => ?_⟩
    · rw [h.bases_eq, h.mem_against hop hstands hf]
      exact ⟨c, hc, rfl⟩
    · rw [h.bases_eq, h.mem_against hop hstands hf] at htm
      obtain ⟨c, hc, rfl⟩ := htm
      exact ⟨c, hc, hm⟩

end Concluded
end Run
end Credence
