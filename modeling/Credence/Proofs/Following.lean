import Credence.Proofs.Backing
import Credence.Proofs.Mirroring
import Credence.Proofs.Wildcards
/-!
# Runs in other variables

A run from a pool that is further on does what the run does, with variables further on: the same tasks in the same order,
the same facts up to wildcards, the same counts (`Run.step_mirrors`, `Run.execute_mirrors`).  Everything a goal is looked
up or sorted by is the same in other variables; where a fact meets a derivation, the fact has wildcards at most
(`Subgoal.Closed`), so it is the same however far the derivation is shifted.
-/
namespace Credence

variable {W : Type} {n : Nat}

/-! ## Programs with all wildcards alike -/

def Shelf.plain (s : Shelf W) : Shelf W := ⟨s.entries.map (fun e => (e.1, e.2.map (Clause.shift 0)))⟩

theorem Shelf.get_plain (s : Shelf W) (p : Predicate) : s.plain.get p = (s.get p).map (Clause.shift 0) := by
  have h := lookup_map (f := fun p : Predicate => p) (List.map (Clause.shift (W := W) 0)) (a := p) (l := s.entries)
    (fun _ _ e => e)
  rw [get, get, plain, h]
  cases s.entries.lookup p <;> rfl

def KnowledgeBase.plain (kb : KnowledgeBase W) : KnowledgeBase W :=
  { kb with facts := kb.facts.plain, rules := kb.rules.plain }

/-- The facts of a knowledge base have no variables. -/
def KnowledgeBase.Grounded (kb : KnowledgeBase W) : Prop := ∀ c ∈ kb.facts.clauses, c.head.isGrounded = true

namespace KnowledgeBase

variable (kb : KnowledgeBase W)

theorem factsFor_plain (l : Literal W) : kb.plain.factsFor (l.shift n) = (kb.factsFor l).map (Clause.shift 0) := by
  have hget : kb.plain.facts.get (l.shift n).predicate = (kb.facts.get l.predicate).map (Clause.shift 0) :=
    kb.facts.get_plain l.predicate
  rw [factsFor, factsFor, hget, List.filter_map]
  simp only [Function.comp_def, Clause.head_shift, Literal.isRelevant_shift]

theorem rulesFor_plain (l : Literal W) : kb.plain.rulesFor (l.shift n) = (kb.rulesFor l).map (Clause.shift 0) := by
  have hget : kb.plain.rules.get (l.shift n).predicate = (kb.rules.get l.predicate).map (Clause.shift 0) :=
    kb.rules.get_plain l.predicate
  rw [rulesFor, rulesFor, hget, List.filter_map]
  simp only [Function.comp_def, Clause.head_shift, Literal.isRelevant_shift]

end KnowledgeBase

/-- The same question to the program with all wildcards alike. -/
def Query.plain (q : Query W) : Query W := { q with kb := q.kb.plain }

/-! ## Answers of primitives -/

namespace Run

theorem inputs_shift (kind : PrimitiveKind) (l : Literal W) : inputs kind (l.shift n) = (inputs kind l).map (Term.shift n) := by
  cases kind with
  | test => rfl
  | function => exact (List.map_drop ..).symm

theorem mapM_const?_shift : ∀ ts : List Term, (ts.map (Term.shift n)).mapM Term.const? = ts.mapM Term.const?
  | []      => rfl
  | t :: ts => by rw [List.map_cons, List.mapM_cons, List.mapM_cons, Term.const?_shift, mapM_const?_shift ts]

variable [Weight W]

theorem instances_shift {kind : PrimitiveKind} {l : Literal W} (h : ∀ t ∈ inputs kind l, t.isConst = true)
    (results : List Constant) : instances kind (l.shift n) results = (instances kind l results).map (Literal.shift 0) := by
  cases kind with
  | test =>
    have hl : l.isSemiGrounded = true := List.all_eq_true.2 (fun t ht => by rw [h t ht, Bool.true_or])
    simp only [instances]
    split
    · rw [List.map_singleton, Literal.shift_of_semiGrounded hl]
    · rfl
  | function =>
    have hground : ∀ c : Constant, (⟨1, l.predicate, .const c :: inputs .function (l.shift n)⟩ : Literal W) =
        Literal.shift n ⟨1, l.predicate, .const c :: inputs .function l⟩ := fun c => by
      rw [inputs_shift]
      rfl
    simp only [instances, List.map_filterMap]
    congr 1
    funext c
    have hplain : Literal.shift n (⟨1, l.predicate, .const c :: inputs .function l⟩ : Literal W) =
        Literal.shift 0 ⟨1, l.predicate, .const c :: inputs .function l⟩ := by
      refine Literal.shift_of_semiGrounded (List.all_eq_true.2 (fun t ht => ?_)) n
      rcases List.mem_cons.1 ht with rfl | ht
      · rfl
      · rw [h t ht, Bool.true_or]
    rw [Literal.predicate_shift, hground, Literal.unify_shift, Option.isSome_map, hplain]
    split <;> rfl

end Run

/-! ## Runs side by side -/

/-- Facts, and negations that are searched, have wildcards at most. -/
structure Subgoal.Closed (g : Subgoal W) : Prop where
  literal : g.literal.isNegated = true → g.literal.isSemiGrounded = true
  fact    : ∀ f ∈ g.facts, f.head.isSemiGrounded = true

variable [Weight W]

/-- The second run is the first in variables `n` further on. -/
structure Run.Mirrors (n : Nat) (r r' : Run W) : Prop where
  pool      : r'.pool = r.pool.shift n
  goals     : r'.table.goals = r.table.goals.map (Subgoal.shift n)
  index     : r'.table.index = r.table.index
  negations : Carries (fun x => (x.1.shift 0, x.2.map (Literal.shift 0))) r.table.negations r'.table.negations
  stats     : r'.stats = r.stats
  closed    : ∀ i g, r.table.goal? i = some g → g.Closed
  keyed     : ∀ (k : String) (x : Literal W × List (Literal W)), r.table.negations[k]? = some x → x.1.id = k

/-- A task in variables `n` further on. -/
def Task.shift (n : Nat) : Task W → Task W
  | .search i                => .search i
  | .tryFacts i left matched => .tryFacts i (left.map (Clause.shift 0)) matched
  | .tryRules i left matched => .tryRules i (left.map (Clause.shift 0)) matched
  | .decideNegation i j l    => .decideNegation i j (l.shift n)
  | .accept i f origin       => .accept i (f.shift 0) origin
  | .notify left f           => .notify (left.map (Waiter.shift n)) (f.shift 0)
  | .feed i d left           => .feed i (d.shift n) (left.map (Clause.shift 0))
  | .advance i d             => .advance i (d.shift n)
  | .resolve i d f           => .resolve i (d.shift n) (f.shift 0)

/-- The facts a task brings have wildcards at most, and what it decides is a negation. -/
def Task.Closed (r : Run W) : Task W → Prop
  | .tryFacts _ left _    => ∀ c ∈ left, c.head.isSemiGrounded = true
  | .decideNegation i _ _ => ∃ g, r.table.goal? i = some g ∧ g.literal.isNegated = true
  | .accept _ f _         => f.head.isSemiGrounded = true
  | .notify _ f           => f.head.isSemiGrounded = true
  | .feed _ _ left        => ∀ c ∈ left, c.head.isSemiGrounded = true
  | .resolve _ _ f        => f.head.isSemiGrounded = true
  | _                     => True

/-- Errors of one kind differ in their texts at most. -/
def Error.kind (e : Error) : Nat := e.ctorIdx

namespace Run

/-- The second step is the first in variables `n` further on. -/
inductive Parallels (n : Nat) : Stepped W → Stepped W → Prop
  | on {ts : List (Task W)} {r r' : Run W} : r.Mirrors n r' → (∀ t ∈ ts, t.Closed r) →
    Parallels n (.ok ts, r) (.ok (ts.map (Task.shift n)), r')
  | refused {e e' : Error} {r r' : Run W} : e'.kind = e.kind → r.Mirrors n r' → Parallels n (.error e, r) (.error e', r')

variable {q : Query W} {r r' : Run W} {i : Nat} {g : Subgoal W}

omit [Weight W] in
theorem addGoal_stats {l : Literal W} (h : r.table.index[l.variant]? = none) :
    (r.addGoal q l).stats = { r.stats with subgoals := r.stats.subgoals + 1 } := by
  simp only [addGoal, goalFor, h]
  rfl

/-- A step may leave nothing to do. -/
theorem Parallels.rest (h : r.Mirrors n r') : Parallels n (.ok [], r) (.ok [], r') := .on h (List.forall_mem_nil _)

namespace Mirrors

theorem goal? (h : r.Mirrors n r') (i : Nat) : r'.table.goal? i = (r.table.goal? i).map (Subgoal.shift n) := by
  simp only [Table.goal?, h.goals, Array.getElem?_map]

theorem isDone (h : r.Mirrors n r') : r'.isDone = r.isDone := by
  rw [Run.isDone, Run.isDone, h.goal?, Option.any_map]
  rfl

theorem count (h : r.Mirrors n r') (f : Stats → Stats) : (r.count f).Mirrors n (r'.count f) :=
  ⟨h.pool, h.goals, h.index, h.negations, congrArg f h.stats, h.closed, h.keyed⟩

theorem modify (h : r.Mirrors n r') {f k : Subgoal W → Subgoal W} (hf : ∀ g, k (g.shift n) = (f g).shift n)
    (hc : ∀ g, r.table.goal? i = some g → (f g).Closed) : (r.modify i f).Mirrors n (r'.modify i k) := by
  refine ⟨h.pool, ?_, h.index, h.negations, h.stats, fun j b hj => ?_, h.keyed⟩
  · simp only [Run.modify, Table.modify, h.goals]
    exact modify_map hf _ i
  · rw [goal?_modify] at hj
    split at hj
    · rename_i e
      subst e
      obtain ⟨g, hi, rfl⟩ := Option.map_eq_some_iff.1 hj
      exact hc g hi
    · exact h.closed j b hj

/-- Only the trie of a goal changes. -/
theorem setTrie (h : r.Mirrors n r') {t t' : Subgoal W → Trie W} (ht : ∀ g, t' (g.shift n) = (t g).plain) :
    (r.modify i (fun g => { g with trie := t g })).Mirrors n (r'.modify i (fun g => { g with trie := t' g })) := by
  refine h.modify (fun g => ?_) (fun g hi => ⟨(h.closed i g hi).literal, (h.closed i g hi).fact⟩)
  rw [ht]
  rfl

theorem goalFor (h : r.Mirrors n r') (q : Query W) {l : Literal W} (hl : l.isNegated = true → l.isSemiGrounded = true) :
    ∃ r₁, r'.goalFor q.plain (l.shift n) = ((r.goalFor q l).1, (r.goalFor q l).2.1, r₁) ∧
      (r.goalFor q l).2.2.Mirrors n r₁ := by
  cases hk : r.table.index[l.variant]? with
  | some i =>
    have hk' : r'.table.index[(l.shift n).variant]? = some i := by rw [h.index, Literal.variant_shift, hk]
    rw [goalFor_known hk, goalFor_known hk']
    exact ⟨r', rfl, h⟩
  | none =>
    have hk' : r'.table.index[(l.shift n).variant]? = none := by rw [h.index, Literal.variant_shift, hk]
    have hsize : r'.table.goals.size = r.table.goals.size := by rw [h.goals, Array.size_map]
    have hnew : newGoal q.plain (l.shift n) = (newGoal q l).shift n := Subgoal.new_shift l _ _
    rw [goalFor_new hk, goalFor_new hk', hsize]
    refine ⟨_, rfl, ?_, ?_, ?_, ?_, ?_, fun j g hj => ?_, ?_⟩
    · rw [addGoal_pool hk, addGoal_pool hk', h.pool]
    · rw [addGoal_goals hk, addGoal_goals hk', h.goals, hnew, Array.map_push]
    · rw [addGoal_index hk, addGoal_index hk', h.index, hsize, Literal.variant_shift]
    · rw [addGoal_negations hk, addGoal_negations hk']
      exact h.negations
    · rw [addGoal_stats hk, addGoal_stats hk', h.stats]
    · rw [addGoal_goal? hk] at hj
      split at hj
      · injection hj with hj
        subst hj
        exact ⟨hl, List.forall_mem_nil _⟩
      · exact h.closed j g hj
    · rw [addGoal_negations hk]
      exact h.keyed

theorem markUnprovable (h : r.Mirrors n r') (i : Nat) : (r.markUnprovable i).Mirrors n (r'.markUnprovable i) := by
  have key : ∀ (l : Literal W) (ws : List (Waiter W)) {r r' : Run W}, r.Mirrors n r' →
      (ws.foldl (fun r w => r.modify w.goal (fun p => { p with trie := (p.trie.cleanup l).2 })) r).Mirrors n
        ((ws.map (Waiter.shift n)).foldl
          (fun r w => r.modify w.goal (fun p => { p with trie := (p.trie.cleanup (l.shift n)).2 })) r') := by
    intro l ws
    induction ws with
    | nil => exact fun h => h
    | cons w ws ih => exact fun h => ih (h.setTrie (fun g => by rw [Subgoal.trie_shift, Trie.cleanup_plain]))
  rw [Run.markUnprovable, Run.markUnprovable, h.goal?]
  cases hi : r.table.goal? i with
  | none => exact h
  | some g =>
    have hcount := h.count (fun s => { s with unprovable := s.unprovable + 1 })
    have h₁ := hcount.modify (f := fun g => { g with unprovable := true }) (k := fun g => { g with unprovable := true })
      (fun _ => rfl) (fun g hi => ⟨(h.closed i g hi).literal, (h.closed i g hi).fact⟩)
    simp only [Option.map_some, Subgoal.waiters_shift, Subgoal.literal_shift, ← Array.foldl_toList, Array.toList_map]
    exact key g.literal g.waiters.toList h₁

theorem runPrimitive (h : r.Mirrors n r') (q : Query W) (l : Literal W) :
    ∃ r₁, r'.runPrimitive q.plain (l.shift n) = ((r.runPrimitive q l).1.map (Literal.shift 0), r₁) ∧
      (r.runPrimitive q l).2.Mirrors n r₁ := by
  rw [Run.runPrimitive, Run.runPrimitive, Literal.primitive?_shift]
  cases l.primitive? with
  | none => exact ⟨r', rfl, h⟩
  | some name =>
    have hregistry : q.plain.kb.registry = q.kb.registry := rfl
    have hcall : callPrimitive q.kb.registry name (inputs (q.kb.registry.kind name) (l.shift n)) =
        callPrimitive q.kb.registry name (inputs (q.kb.registry.kind name) l) := by
      rw [callPrimitive, callPrimitive, inputs_shift, mapM_const?_shift]
    simp only [hregistry, hcall]
    cases hout : callPrimitive q.kb.registry name (inputs (q.kb.registry.kind name) l) with
    | error e =>
      dsimp only
      exact ⟨_, rfl, (h.count _).count _⟩
    | ok out =>
      dsimp only
      rw [instances_shift (isConst_of_callPrimitive hout)]
      exact ⟨_, rfl, h.count _⟩

end Mirrors

end Run

/-! ## Snapshots and estimates -/

namespace Table

theorem mirrors_addFact {s s' : Snapshot W} (h : s.Mirrors s') (l : Literal W) (origin : Origin) :
    (s.addFact l origin).Mirrors (s'.addFact (l.shift 0) origin) := by
  refine ⟨?_, h.rules, h.ruleKeys, h.negations⟩
  simp only [Snapshot.addFact, Literal.id_shift, h.asserted]

theorem mirrors_addRule {s s' : Snapshot W} (h : s.Mirrors s') (c : Clause W) :
    (s.addRule c).Mirrors (s'.addRule (c.shift 0)) := by
  rw [Snapshot.addRule, Snapshot.addRule, Clause.key_shift, h.ruleKeys]
  split
  · exact h
  · refine ⟨h.asserted, ?_, rfl, h.negations⟩
    rw [h.rules, Array.map_push]

theorem mirrors_addGoal {s s' : Snapshot W} (h : s.Mirrors s') (g : Subgoal W) :
    (addGoal s g).Mirrors (addGoal s' (g.shift n)) := by
  have hasserted : ∀ l : Literal W, (g.shift n).isAsserted (l.shift 0) = g.isAsserted l := fun l => by
    rw [Subgoal.isAsserted, Subgoal.isAsserted, Literal.id_shift]
    rfl
  have hfacts : ∀ (fs : List (Clause W)) {s s' : Snapshot W}, s.Mirrors s' →
      (fs.foldl (fun s f => s.addFact f.head (if g.isAsserted f.head then .asserted else .derived)) s).Mirrors
        ((fs.map (Clause.shift 0)).foldl
          (fun s f => s.addFact f.head (if (g.shift n).isAsserted f.head then .asserted else .derived)) s') := by
    intro fs
    induction fs with
    | nil => exact fun h => h
    | cons f fs ih =>
      intro s s' h
      rw [List.map_cons, List.foldl_cons, List.foldl_cons, Clause.head_shift, hasserted]
      exact ih (mirrors_addFact h _ _)
  have hrules : ∀ (cs : List (Clause W)) {s s' : Snapshot W}, s.Mirrors s' →
      (cs.foldl Snapshot.addRule s).Mirrors ((cs.map (Clause.shift 0)).foldl Snapshot.addRule s') := by
    intro cs
    induction cs with
    | nil => exact fun h => h
    | cons c cs ih => exact fun h => ih (mirrors_addRule h c)
  have hgrounded : (g.shift n).grounded.toList = g.grounded.toList.map (Clause.shift 0) := Array.toList_map
  simp only [addGoal, ← Array.foldl_toList, hgrounded, Subgoal.facts_shift]
  exact hrules _ (hfacts _ h)

end Table

namespace Run.Mirrors

variable {q : Query W} {r r' : Run W}

/-- **What the second run has established is what the first has**, up to wildcards. -/
theorem snapshot (h : r.Mirrors n r') : r.table.snapshot.Mirrors r'.table.snapshot := by
  have hgoals : ∀ (gs : List (Subgoal W)) {s s' : Snapshot W}, s.Mirrors s' →
      (gs.foldl Table.addGoal s).Mirrors ((gs.map (Subgoal.shift n)).foldl Table.addGoal s') := by
    intro gs
    induction gs with
    | nil => exact fun h => h
    | cons g gs ih => exact fun h => ih (Table.mirrors_addGoal h g)
  have hempty : (Snapshot.empty : Snapshot W).Mirrors .empty := ⟨rfl, by simp [Snapshot.empty], rfl, .empty _⟩
  have hkeyed' : ∀ (k : String) (x : Literal W × List (Literal W)), r'.table.negations[k]? = some x → x.1.id = k := by
    intro k x hx
    rw [h.negations k] at hx
    obtain ⟨y, hy, rfl⟩ := Option.map_eq_some_iff.1 hx
    exact y.1.id_shift.trans (h.keyed k y hy)
  obtain ⟨h1, h2, h3, -⟩ := hgoals r.table.goals.toList hempty
  rw [← Array.toList_map, ← h.goals, Array.foldl_toList, Array.foldl_toList] at h1 h2 h3
  obtain ⟨e1, e2, e3, -⟩ := Snapshot.foldl_addNegation r.table.negations.toList (r.table.goals.foldl Table.addGoal .empty)
  obtain ⟨f1, f2, f3, -⟩ := Snapshot.foldl_addNegation r'.table.negations.toList (r'.table.goals.foldl Table.addGoal .empty)
  refine ⟨f1.trans (h1.trans e1.symm), f2.trans (h2.trans (congrArg _ e2.symm)), f3.trans (h3.trans e3.symm), fun k => ?_⟩
  rw [r'.table.snapshot_spec.2.2 hkeyed' k, r.table.snapshot_spec.2.2 h.keyed k, h.negations k, Option.map_map,
    Option.map_map]
  rfl

theorem proofSet (h : r.Mirrors n r') (prune : Bool) (targets : List (Literal W)) :
    ((Prover.ofSnapshot r.table.snapshot prune).proofSet targets).Mirrors
      ((Prover.ofSnapshot r'.table.snapshot prune).proofSet (targets.map (Literal.shift 0))) :=
  (Prover.mirrors_ofSnapshot h.snapshot prune).proofSet targets

theorem estimate (h : r.Mirrors n r') (q : Query W) (base : Literal W) {facts : List (Literal W)}
    (hfacts : ∀ f ∈ facts, f.isSemiGrounded = true) :
    r'.estimate q.plain (base.shift n) (facts.map (Literal.shift 0)) = r.estimate q base facts :=
  Estimator.probability_shift (h.proofSet q.settings.pruneCertain facts)
    (fun _ hp => hfacts _ (Prover.of_mem_proofsOf hp).1) q.settings base none

end Run.Mirrors
/-! ## Steps -/

namespace Run

variable {q : Query W} {r r' : Run W} {i : Nat} {g : Subgoal W}

theorem parallels_searchNegation (h : r.Mirrors n r') (hi : r.table.goal? i = some g) (hn : g.literal.isNegated = true) :
    Parallels n (r.searchNegation q i g.literal) (r'.searchNegation q.plain i (g.literal.shift n)) := by
  have hnegate : (g.literal.shift n).negate = g.literal.negate.map (Literal.shift n) := by
    rw [Literal.negate, Literal.negate, Literal.predicate_shift]
    cases g.literal.predicate.negate <;> rfl
  have hclosed := (h.closed i g hi).literal hn
  simp only [searchNegation, Literal.isSemiGrounded_shift, hclosed, hnegate, Bool.not_true, Bool.false_eq_true, if_false]
  cases hbase : g.literal.negate with
  | error e => exact .refused rfl h
  | ok base =>
    have hterms : base.terms = g.literal.terms := by
      unfold Literal.negate at hbase
      cases hp : g.literal.predicate.negate with
      | error e =>
        rw [hp] at hbase
        cases hbase
      | ok p =>
        rw [hp] at hbase
        cases hbase
        rfl
    have hl : base.isSemiGrounded = true := by rw [Literal.isSemiGrounded, hterms]; exact hclosed
    obtain ⟨r₁, e, h₁⟩ := h.goalFor q (fun _ => hl)
    have hext := (develops_goalFor q base r).extends
    obtain ⟨g', hi', hg'⟩ := hext i g hi
    have hdecide : ∀ j, (Task.decideNegation i j base).Closed (r.goalFor q base).2.2 := fun _ =>
      ⟨g', hi', by rw [hg'.literal]; exact hn⟩
    simp only [Except.map, e]
    split
    · exact .on h₁ (List.forall_mem_cons.2 ⟨trivial, List.forall_mem_singleton.2 (hdecide _)⟩)
    · exact .on h₁ (List.forall_mem_singleton.2 (hdecide _))

theorem parallels_search (hq : q.kb.Grounded) (h : r.Mirrors n r') (i : Nat) :
    Parallels n (r.search q i) (r'.search q.plain i) := by
  rw [search, search, h.goal?]
  cases hi : r.table.goal? i with
  | none => exact .rest h
  | some g =>
    simp only [Option.map_some, Subgoal.literal_shift, Literal.isNegated_shift, Literal.isPrimitive_shift]
    split
    · rename_i hn
      exact parallels_searchNegation h hi hn
    · split
      · obtain ⟨r₁, e, h₁⟩ := h.runPrimitive q g.literal
        have htasks : ((r.runPrimitive q g.literal).1.map (Literal.shift 0)).map
            (fun a => Task.accept i (.fact a) .asserted) =
            ((r.runPrimitive q g.literal).1.map (fun a => Task.accept i (.fact a) .asserted)).map (Task.shift n) := by
          rw [List.map_map, List.map_map]
          rfl
        rw [e]
        simp only [htasks]
        refine .on h₁ (fun t ht => ?_)
        obtain ⟨a, ha, rfl⟩ := List.mem_map.1 ht
        rw [(runPrimitive_spec q g.literal r).1] at ha
        exact Literal.IsGrounded.isSemiGrounded (Query.answers_spec ha).2.1
      · have hfacts : q.plain.kb.factsFor (g.literal.shift n) = (q.kb.factsFor g.literal).map (Clause.shift 0) :=
          q.kb.factsFor_plain g.literal
        have hclosed : (Task.tryFacts i (q.kb.factsFor g.literal) false).Closed r := fun c hc =>
          Literal.IsGrounded.isSemiGrounded
            (hq c ((q.kb.facts.get_sublist g.literal.predicate).mem (List.mem_of_mem_filter hc)))
        rw [hfacts]
        exact .on h (List.forall_mem_singleton.2 hclosed)

theorem parallels_tryFacts (h : r.Mirrors n r') (i : Nat) {left : List (Clause W)} {matched : Bool}
    (ht : (Task.tryFacts i left matched).Closed r) :
    Parallels n (r.tryFacts q i left matched) (r'.tryFacts q.plain i (left.map (Clause.shift 0)) matched) := by
  cases left with
  | nil =>
    simp only [tryFacts, h.goal?, List.map_nil]
    cases hi : r.table.goal? i with
    | none => exact .rest h
    | some g =>
      have hrules : q.plain.kb.rulesFor (g.literal.shift n) = (q.kb.rulesFor g.literal).map (Clause.shift 0) :=
        q.kb.rulesFor_plain g.literal
      simp only [Option.map_some, Subgoal.literal_shift, hrules]
      exact .on h (List.forall_mem_singleton.2 trivial)
  | cons fact left =>
    obtain ⟨hfact, hleft⟩ := List.forall_mem_cons.1 ht
    simp only [tryFacts, h.goal?, List.map_cons, h.isDone]
    cases hi : r.table.goal? i with
    | none => exact .rest h
    | some g =>
      simp only [Option.map_some, Subgoal.literal_shift, Clause.head_shift, ← Literal.shift_of_semiGrounded hfact n,
        Literal.unify_shift, Option.isSome_map]
      split
      · exact .rest h
      · split
        · exact .on h (List.forall_mem_cons.2 ⟨hfact, List.forall_mem_singleton.2 hleft⟩)
        · exact .on h (List.forall_mem_singleton.2 hleft)

theorem parallels_tryRules (h : r.Mirrors n r') (i : Nat) (left : List (Clause W)) (matched : Bool) :
    Parallels n (r.tryRules i left matched) (r'.tryRules i (left.map (Clause.shift 0)) matched) := by
  cases left with
  | nil =>
    simp only [tryRules, h.goal?, List.map_nil]
    cases hi : r.table.goal? i with
    | none => exact .rest h
    | some g =>
      simp only [Option.map_some]
      cases matched with
      | true => exact .rest h
      | false => exact .rest (h.markUnprovable i)
  | cons rule left =>
    simp only [tryRules, h.goal?, List.map_cons, h.isDone, h.pool]
    cases hi : r.table.goal? i with
    | none => exact .rest h
    | some g =>
      simp only [Option.map_some, Subgoal.literal_shift, Clause.rename_shift, Clause.head_shift, Literal.unify_shift]
      split
      · exact .rest h
      · have h₁ : ({ r with pool := (rule.rename r.pool).2 } : Run W).Mirrors n
            { r' with pool := (rule.rename r.pool).2.shift n } :=
          ⟨rfl, h.goals, h.index, h.negations, h.stats, h.closed, h.keyed⟩
        cases hs : (rule.rename r.pool).1.head.unify g.literal with
        | none => exact .on h₁ (List.forall_mem_singleton.2 trivial)
        | some s =>
          simp only [Option.map_some, Clause.subst_shift (Literal.unify_eq_some hs).2.1]
          exact .on h₁ (List.forall_mem_cons.2 ⟨trivial, List.forall_mem_singleton.2 trivial⟩)

theorem parallels_decideNegation (h : r.Mirrors n r') {i j : Nat} {base : Literal W}
    (ht : (Task.decideNegation i j base).Closed r) :
    Parallels n (r.decideNegation q i j base) (r'.decideNegation q.plain i j (base.shift n)) := by
  obtain ⟨g, hi, hn⟩ := ht
  have hclosed := (h.closed i g hi).literal hn
  have hplain := Literal.shift_of_semiGrounded hclosed n
  simp only [decideNegation, h.goal?, hi, Option.map_some]
  cases hj : r.table.goal? j with
  | none => exact .rest h
  | some b =>
    have hbases : (b.shift n).facts.map Clause.head = (b.facts.map Clause.head).map (Literal.shift 0) := by
      rw [Subgoal.facts_shift, List.map_map, List.map_map]
      rfl
    have hsettings : q.plain.settings = q.settings := rfl
    have hfacts : ∀ l ∈ b.facts.map Clause.head, l.isSemiGrounded = true :=
      List.forall_mem_map.2 (h.closed j b hj).fact
    have hestimate := h.estimate q base hfacts
    simp only [Option.map_some, Subgoal.unprovable_shift, Subgoal.factCount_shift, Subgoal.literal_shift, hbases, hestimate,
      hsettings]
    split
    · rw [hplain]
      exact .on h (List.forall_mem_singleton.2 hclosed)
    · split
      · exact .rest (h.markUnprovable i)
      · generalize hleaf : ({ g.literal with weight := 1 - r.estimate q base (b.facts.map Clause.head) } : Literal W) = leaf
        have hterms : leaf.terms = g.literal.terms := by rw [← hleaf]
        have hlclosed : leaf.isSemiGrounded = true := by rw [Literal.isSemiGrounded, hterms]; exact hclosed
        have hleaf' : ({ g.literal.shift n with weight := 1 - r.estimate q base (b.facts.map Clause.head) } : Literal W) =
            leaf.shift 0 := by
          rw [← Literal.shift_of_semiGrounded hlclosed n, ← hleaf]
          rfl
        rw [hleaf', Literal.id_shift]
        refine .on ⟨h.pool, h.goals, h.index, ?_, h.stats, h.closed, fun k x hk => ?_⟩ (List.forall_mem_singleton.2 hlclosed)
        · exact h.negations.insert leaf.id (leaf, b.facts.map Clause.head)
        · rw [Std.HashMap.getElem?_insert] at hk
          split at hk
          · rename_i e
            injection hk with hk
            rw [← hk]
            exact eq_of_beq e
          · exact h.keyed k x hk

theorem parallels_accept (h : r.Mirrors n r') (i : Nat) {f : Clause W} {origin : Origin}
    (hf : f.head.isSemiGrounded = true) :
    Parallels n (r.accept q i f origin) (r'.accept q.plain i (f.shift 0) origin) := by
  simp only [accept, h.goal?]
  cases hi : r.table.goal? i with
  | none => exact .rest h
  | some g =>
    simp only [Option.map_some, Subgoal.capped_shift, Subgoal.addFact_shift]
    split
    · exact .rest h
    · cases hadd : g.addFact f origin with
      | none => exact .rest h
      | some added =>
        obtain ⟨fast, g'⟩ := added
        have hsamples : q.plain.maxSamples = q.maxSamples := rfl
        have hg' : g'.Closed := by
          obtain ⟨hlit, -, -⟩ := Subgoal.addFact_rest hadd
          have hold := h.closed i g hi
          refine ⟨by rw [hlit]; exact hold.literal, fun c hc => ?_⟩
          rw [Subgoal.addFact_facts hadd, List.mem_append, List.mem_singleton] at hc
          rcases hc with hc | rfl
          · exact hold.fact c hc
          · exact hf
        simp only [Option.map_some, hsamples, Subgoal.factCount_shift, Subgoal.waiters_shift, Array.toList_map]
        refine .on (Mirrors.count (h.modify (fun _ => ?_) (fun _ _ => ?_)) _) (List.forall_mem_singleton.2 hf)
        · split <;> rfl
        · split
          · exact ⟨hg'.literal, hg'.fact⟩
          · exact hg'

theorem parallels_notify (h : r.Mirrors n r') (left : List (Waiter W)) {f : Clause W} (hf : f.head.isSemiGrounded = true) :
    Parallels n (r.notify left f) (r'.notify (left.map (Waiter.shift n)) (f.shift 0)) := by
  cases left with
  | nil => exact .rest h
  | cons w left =>
    simp only [notify, List.map_cons, h.isDone]
    split
    · exact .rest h
    · exact .on h (List.forall_mem_cons.2 ⟨hf, List.forall_mem_singleton.2 hf⟩)

theorem parallels_feed (h : r.Mirrors n r') (i : Nat) (d : Derivation W) {left : List (Clause W)}
    (hleft : ∀ c ∈ left, c.head.isSemiGrounded = true) :
    Parallels n (r.feed i d left) (r'.feed i (d.shift n) (left.map (Clause.shift 0))) := by
  cases left with
  | nil => exact .rest h
  | cons f left =>
    obtain ⟨hf, hleft⟩ := List.forall_mem_cons.1 hleft
    simp only [feed, List.map_cons, h.isDone]
    split
    · exact .rest h
    · exact .on h (List.forall_mem_cons.2 ⟨hf, List.forall_mem_singleton.2 hleft⟩)

theorem parallels_awaitGoal (h : r.Mirrors n r') (i : Nat) (d : Derivation W) {first : Literal W}
    (hfirst : first.isNegated = true → first.isSemiGrounded = true) :
    Parallels n (r.awaitGoal q i d first) (r'.awaitGoal q.plain i (d.shift n) (first.shift n)) := by
  obtain ⟨r₁', e, h₁⟩ := h.goalFor q hfirst
  simp only [awaitGoal, e]
  generalize r.goalFor q first = out at h₁
  obtain ⟨child, created, r₁⟩ := out
  dsimp only at h₁ ⊢
  rw [h₁.goal?, h₁.goal?]
  cases hc : r₁.table.goal? child with
  | none => exact .rest h₁
  | some c =>
    cases hi : r₁.table.goal? i with
    | none => exact .rest h₁
    | some g =>
      have hnode : (d.shift n).node = d.node := rfl
      simp only [Option.map_some, Subgoal.unprovable_shift, Subgoal.trie_shift, hnode, Trie.wait_plain]
      split
      · exact .rest h₁
      · cases g.trie.wait d.node first with
        | error e => exact .refused rfl h₁
        | ok trie =>
          simp only [Except.map]
          have h₂ : (r₁.modify i (fun g => { g with trie := trie })).Mirrors n
              (r₁'.modify i (fun g => { g with trie := trie.plain })) := h₁.setTrie (fun _ => rfl)
          have h₃ : ((r₁.modify i (fun g => { g with trie := trie })).modify child (fun c => c.wait ⟨i, d⟩)).Mirrors n
              ((r₁'.modify i (fun g => { g with trie := trie.plain })).modify child (fun c => c.wait ⟨i, d.shift n⟩)) := by
            refine h₂.modify (fun g => ?_) (fun g hg => ⟨(h₂.closed _ g hg).literal, (h₂.closed _ g hg).fact⟩)
            simp [Subgoal.wait, Subgoal.shift, Waiter.shift]
          split
          · exact .on h₃ (List.forall_mem_singleton.2 trivial)
          · have hfeed : (Task.feed i d c.facts).Closed
                ((r₁.modify i (fun g => { g with trie := trie })).modify child (fun c => c.wait ⟨i, d⟩)) :=
              (h₁.closed child c hc).fact
            rw [Subgoal.facts_shift]
            exact .on h₃ (List.forall_mem_singleton.2 hfeed)

theorem parallels_advance (h : r.Mirrors n r') (i : Nat) (d : Derivation W) :
    Parallels n (r.advance q i d) (r'.advance q.plain i (d.shift n)) := by
  have hrule : (d.shift n).rule.body = d.rule.body.map (Literal.shift n) := rfl
  simp only [advance, hrule]
  cases hbody : d.rule.body with
  | nil => exact .refused rfl h
  | cons first rest =>
    simp only [List.map_cons, Literal.isPrimitive_shift, Literal.isNegated_shift, Literal.isSemiGrounded_shift]
    split
    · obtain ⟨r₁, e, h₁⟩ := h.runPrimitive q first
      have htasks : ((r.runPrimitive q first).1.map (Literal.shift 0)).map
          (fun a => Task.resolve i (d.shift n) (.fact a)) =
          ((r.runPrimitive q first).1.map (fun a => Task.resolve i d (.fact a))).map (Task.shift n) := by
        rw [List.map_map, List.map_map]
        rfl
      rw [e]
      simp only [htasks]
      refine .on h₁ (fun t ht => ?_)
      obtain ⟨a, ha, rfl⟩ := List.mem_map.1 ht
      rw [(runPrimitive_spec q first r).1] at ha
      exact Literal.IsGrounded.isSemiGrounded (Query.answers_spec ha).2.1
    · split
      · exact .refused rfl h
      · rename_i hopen
        exact parallels_awaitGoal h i d (fun hn => by simpa [hn] using hopen)

theorem parallels_completeRule (h : r.Mirrors n r') (i node : Nat) (head : Literal W) :
    Parallels n (r.completeRule i node head) (r'.completeRule i node (head.shift n)) := by
  simp only [completeRule, Literal.isSemiGrounded_shift, h.goal?]
  split
  · exact .rest h
  · rename_i hopen
    have hhead : head.isSemiGrounded = true := by simpa using hopen
    cases hi : r.table.goal? i with
    | none => exact .rest h
    | some g =>
      simp only [Option.map_some, Subgoal.trie_shift, Literal.shift_of_semiGrounded hhead n, Trie.complete_plain]
      cases g.trie.complete node head with
      | error e => exact .refused rfl h
      | ok rule =>
        have hrec := Subgoal.develops_record g rule
        have hold := h.closed i g hi
        have h₁ : (r.modify i (fun _ => (g.record rule).2)).Mirrors n
            (r'.modify i (fun _ => (g.record rule).2.shift n)) := by
          refine h.modify (fun _ => rfl) (fun _ _ => ⟨?_, ?_⟩)
          · rw [hrec.literal]
            exact hold.literal
          · rw [hrec.facts]
            exact hold.fact
        simp only [Except.map, Subgoal.record_shift]
        refine .on ?_ (List.forall_mem_singleton.2 hhead)
        split
        · exact h₁.count _
        · exact h₁

theorem parallels_resolve (h : r.Mirrors n r') (i : Nat) (d : Derivation W) {f : Clause W}
    (hf : f.head.isSemiGrounded = true) :
    Parallels n (r.resolve i d f) (r'.resolve i (d.shift n) (f.shift 0)) := by
  have hresolve : (d.shift n).rule.resolve (f.shift 0).head = (d.rule.resolve f.head).map (Clause.shift n) := by
    rw [Clause.head_shift, ← Literal.shift_of_semiGrounded hf n]
    exact d.rule.resolve_shift f.head
  have hnode : (d.shift n).node = d.node := rfl
  simp only [resolve, hresolve, h.goal?, hnode]
  cases d.rule.resolve f.head with
  | none => exact .rest h
  | some rest =>
    cases hi : r.table.goal? i with
    | none => exact .rest h
    | some g =>
      simp only [Option.map_some, Subgoal.trie_shift, Clause.head_shift, Trie.update_plain]
      cases g.trie.update d.node f.head with
      | error e => exact .refused rfl h
      | ok out =>
        obtain ⟨node, trie⟩ := out
        simp only [Except.map, Clause.body_shift, List.isEmpty_map]
        have h₁ : (r.modify i (fun g => { g with trie := trie })).Mirrors n
            (r'.modify i (fun g => { g with trie := trie.plain })) := h.setTrie (fun _ => rfl)
        split
        · exact parallels_completeRule h₁ i node rest.head
        · exact .on h₁ (List.forall_mem_singleton.2 trivial)

/-- **A step in variables further on is the same step.** -/
theorem step_mirrors (hq : q.kb.Grounded) (h : r.Mirrors n r') {t : Task W} (ht : t.Closed r) :
    Parallels n (r.step q t) (r'.step q.plain (t.shift n)) := by
  cases t with
  | search i => exact parallels_search hq h i
  | tryFacts i left matched => exact parallels_tryFacts h i ht
  | tryRules i left matched => exact parallels_tryRules h i left matched
  | decideNegation i j base => exact parallels_decideNegation h ht
  | accept i f origin => exact parallels_accept h i ht
  | notify ws f => exact parallels_notify h ws ht
  | feed i d left => exact parallels_feed h i d ht
  | advance i d => exact parallels_advance h i d
  | resolve i d f => exact parallels_resolve h i d ht

end Run
end Credence
