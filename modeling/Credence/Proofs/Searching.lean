import Credence.Proofs.Duty
/-!
# Steps that search a goal

Each step of a run that meets a task in order succeeds, keeps the table in order and leaves only tasks in order behind;
what the task served is done or served by those that follow, and so is whatever the table asks for anew (`Run.Steps`).
Here this is shown for the tasks that find the facts and rules of a goal.
-/
namespace Credence

variable {W : Type} [Weight W]

/-- A query over a program in order, without any bound on facts or answers. -/
structure Query.Regular (q : Query W) (V : Vocabulary W) : Prop where
  kb       : q.kb.Regular V
  capacity : q.storeCapacity = none
  samples  : q.maxSamples = none

/-- **What one step does.** -/
structure Run.Steps (q : Query W) (V : Vocabulary W) (r : Run W) (t : Task W) (ts : List (Task W)) (r' : Run W) : Prop where
  grows   : r.Grows r'
  valid   : r'.Valid V q.kb
  tasks   : Task.InOrder q V r' [] ts
  serves  : ∀ duty, r.Serves q V t duty → r'.Did q V duty ∨ ∃ u ∈ ts, r'.Serves q V u duty
  owes    : ∀ duty, r'.Owes q duty → r.Owes q duty ∨ r'.Did q V duty ∨ ∃ u ∈ ts, r'.Serves q V u duty
  accepts : ∀ i c, t = .accept i c .asserted → ∃ g, r'.table.goal? i = some g ∧ c ∈ g.facts
  staked  : r.Staked t ts r'

/-! ## Looking up clauses -/

namespace KnowledgeBase

variable {V : Vocabulary W} {kb : KnowledgeBase W}

theorem Regular.mem_factsFor (h : kb.Regular V) {l : Literal W} {c : Clause W} (hc : c ∈ kb.factsFor l) :
    c ∈ kb.facts.clauses := (h.facts.mem_get_iff.1 (List.mem_filter.1 hc).1).1

theorem Regular.mem_rulesFor (h : kb.Regular V) {l : Literal W} {c : Clause W} (hc : c ∈ kb.rulesFor l) :
    c ∈ kb.rules.clauses := (h.rules.mem_get_iff.1 (List.mem_filter.1 hc).1).1

/-- **A stated atom that a literal covers is among the facts looked up for it.** -/
theorem Regular.mem_factsFor_of_covers (h : kb.Regular V) {l : Literal W} {a : Atom} {w : W} (hs : kb.States a w)
    (ha : l.Covers a) : .fact (a.literal w) ∈ kb.factsFor l := by
  obtain ⟨ν, hν⟩ := ha
  exact List.mem_filter.2 ⟨h.facts.mem_get_iff.2 ⟨hs, hν.1.symm⟩, Literal.isRelevant_of_admits hν (Literal.admits_atom a w ν)⟩

/-- **A rule whose head says an atom that a literal covers is among the rules looked up for it.** -/
theorem Regular.mem_rulesFor_of_covers (h : kb.Regular V) {l : Literal W} {a : Atom} {c : Clause W} {μ : Valuation}
    (hc : c ∈ kb.rules.clauses) (hμ : c.head.Admits μ a) (ha : l.Covers a) : c ∈ kb.rulesFor l := by
  obtain ⟨ν, hν⟩ := ha
  exact List.mem_filter.2 ⟨h.rules.mem_get_iff.2 ⟨hc, hμ.1.trans hν.1.symm⟩, Literal.isRelevant_of_admits hν hμ⟩

theorem Regular.of_states (h : kb.Regular V) {a : Atom} {w : W} (hs : kb.States a w) :
    V.HasLiteral 0 (a.literal w) ∧ w ∈ V.weights ∧ a.predicate.isNegated = false := by
  obtain ⟨a', w', e, h1, h2, h3⟩ := h.fact _ hs
  obtain ⟨rfl, rfl⟩ := Atom.literal_inj (congrArg Clause.head e)
  exact ⟨h1, h2, h3⟩

theorem Regular.fact_covers_iff (h : kb.Regular V) {n : Nat} {l : Literal W} (hl : V.HasLiteral n l) {c : Clause W}
    (hc : c ∈ kb.facts.clauses) : ∃ (a : Atom) (w : W), c = .fact (a.literal w) ∧ V.HasLiteral 0 (a.literal w) ∧
      w ∈ V.weights ∧ a.predicate.isNegated = false ∧ ((l.unify c.head).isSome = true ↔ l.Covers a) := by
  obtain ⟨a, w, rfl, h1, h2, h3⟩ := h.fact c hc
  exact ⟨a, w, rfl, h1, h2, h3, Literal.unify_literal_isSome_iff hl.wellFormed h1.wellFormed_atom⟩

end KnowledgeBase

namespace Run

variable {q : Query W} {V : Vocabulary W} {r r' : Run W} {t : Task W} {ts : List (Task W)}

theorem Valid.not_isDone (h : r.Valid V q.kb) : r.isDone = false := by
  unfold isDone
  cases h0 : r.table.goal? 0 with
  | none => rfl
  | some g => simp [(h.goal 0 g h0).uncapped]

/-! ## Steps that leave the table alone -/

/-- A step that changes at most the pool. -/
theorem Steps.quiet (hv : r.Valid V q.kb) (ht : r'.table = r.table) (hp : r.pool.issued ≤ r'.pool.issued)
    (htasks : Task.InOrder q V r' [] ts)
    (hserves : ∀ duty, r.Serves q V t duty → r'.Did q V duty ∨ ∃ u ∈ ts, r'.Serves q V u duty)
    (hacc : ∀ i c, t ≠ .accept i c .asserted)
    (hs : ∀ i g, r.table.goal? i = some g → g.literal.isNegated = true → (ts.map (Task.stake i)).sum ≤ t.stake i) :
    r.Steps q V t ts r' where
  grows := grows_of_table_eq ht hp
  valid := hv.of_table_eq ht hp
  tasks := htasks
  serves := hserves
  owes duty h := by
    refine .inl ?_
    cases duty <;> simpa only [Owes, ht] using h
  accepts i c e := absurd e (hacc i c)
  staked := by
    refine .frame (by rw [ht]) (fun i g hi hn => ⟨g, by rw [ht]; exact hi, rfl, rfl, rfl, hs i g hi hn⟩)
      (fun i g' hi hi' _ => ?_)
    rw [ht, hi] at hi'
    cases hi'

/-! ## New goals -/

theorem Valid.not_hasEntry (h : r.Valid V q.kb) {l : Literal W} (hl : r.table.index[l.variant]? = none) :
    ¬ r.table.HasEntry l := by
  rintro ⟨k, v, hv, hp, ht⟩
  obtain ⟨-, i, g, hi, -, hp', ht'⟩ := h.negations k v hv
  have := h.indexed i g hi
  rw [Literal.variant_congr (hp'.symm.trans hp) (ht'.symm.trans ht), hl] at this
  cases this

/-- What a new goal asks for is served by searching it. -/
theorem owes_addGoal {l : Literal W} (h : r.table.index[l.variant]? = none) {duty : Duty W}
    (hd : (r.addGoal q l).Owes q duty) :
    r.Owes q duty ∨ (r.addGoal q l).Serves q V (.search r.table.goals.size) duty := by
  have hgoal := addGoal_goal? (q := q) h
  cases duty with
  | fact i c =>
    obtain ⟨g, hi, hn, hc⟩ := id hd
    rw [hgoal] at hi
    split at hi
    · rename_i e
      subst e
      exact .inr (.searchFact hd)
    · exact .inl ⟨g, hi, hn, hc⟩
  | rule i c =>
    obtain ⟨g, hi, hn, hc⟩ := id hd
    rw [hgoal] at hi
    split at hi
    · rename_i e
      subst e
      exact .inr (.searchRule hd)
    · exact .inl ⟨g, hi, hn, hc⟩
  | meet w f =>
    obtain ⟨j, b, hj, hw, hf⟩ := hd
    rw [hgoal] at hj
    split at hj
    · injection hj with hj
      subst hj
      cases hf
    · exact .inl ⟨j, b, hj, hw, hf⟩
  | deny i =>
    obtain ⟨g, hi, hn⟩ := id hd
    rw [hgoal] at hi
    split at hi
    · rename_i e
      subst e
      exact .inr (.searchDeny hd)
    · exact .inl ⟨g, hi, hn⟩

theorem staked_addGoal (hv : r.Valid V q.kb) {l : Literal W} (h : r.table.index[l.variant]? = none)
    (hs : ∀ i g, r.table.goal? i = some g → g.literal.isNegated = true → (ts.map (Task.stake i)).sum ≤ t.stake i)
    (hs' : (ts.map (Task.stake r.table.goals.size)).sum ≤ 3) : r.Staked t ts (r.addGoal q l) := by
  have hgoal := addGoal_goal? (q := q) h
  refine .frame (addGoal_negations h) (fun i g hi hn => ⟨g, ?_, rfl, rfl, rfl, hs i g hi hn⟩) (fun i g' hi hi' _ => ?_)
  · have := Table.goal?_lt hi
    rw [hgoal, if_neg (by omega)]
    exact hi
  · rw [hgoal] at hi'
    split at hi'
    · rename_i e
      injection hi' with hi'
      subst hi' e
      exact ⟨rfl, rfl, hv.not_hasEntry h, hs'⟩
    · rw [hi] at hi'
      cases hi'

/-! ## The search of a goal -/

theorem step_search_negation (hq : q.Regular V) (hv : r.Valid V q.kb) {i : Nat} {g : Subgoal W}
    (hi : r.table.goal? i = some g) (hn : g.literal.isNegated = true) :
    ∃ ts r', r.step q (.search i) = (.ok ts, r') ∧ r.Steps q V (.search i) ts r' := by
  have hg := hv.goal i g hi
  have hsg := hg.negation hn
  obtain ⟨base, hneg, hbase, hpos, hlit⟩ := hg.literal.negate hn
  have hstep : r.step q (.search i) = (.ok (if (r.goalFor q base).2.1 then
      [.search (r.goalFor q base).1, .decideNegation i (r.goalFor q base).1 base]
      else [.decideNegation i (r.goalFor q base).1 base]), (r.goalFor q base).2.2) := by
    simp only [step, search, hi, hn, if_true, searchNegation, hsg, Bool.not_true, Bool.false_eq_true, if_false, hneg]
  rw [hstep]
  cases hk : r.table.index[base.variant]? with
  | some j =>
    obtain ⟨b, hj, e⟩ := hv.index _ _ hk
    rw [goalFor_known hk]
    refine ⟨_, _, rfl, .quiet hv rfl (Nat.le_refl _) ⟨⟨g, b, hi, hn, hj, hneg, e⟩, trivial⟩ (fun duty hd => ?_)
      (fun _ _ => by simp) (fun k _ _ _ => by simp [Task.stake])⟩
    cases hd with
    | searchFact ho =>
      obtain ⟨g', hi', hn', -⟩ := ho
      rw [goal_eq hi' hi, hn] at hn'
      cases hn'
    | searchRule ho =>
      obtain ⟨g', hi', hn', -⟩ := ho
      rw [goal_eq hi' hi, hn] at hn'
      cases hn'
    | searchDeny => exact .inr ⟨_, List.mem_cons_self, .decide⟩
  | none =>
    rw [goalFor_new hk]
    have hgrow := grows_addGoal (q := q) hk
    have hvr : (r.addGoal q base).Valid V q.kb :=
      hv.addGoal hk hq.capacity hlit (fun h => absurd h (by simp [hpos]))
    obtain ⟨g', hi', hgg⟩ := hgrow.goal i g hi
    have hnew := addGoal_new (q := q) hk
    have hne : i ≠ r.table.goals.size := Nat.ne_of_lt (Table.goal?_lt hi)
    refine ⟨_, _, rfl, hgrow, hvr, ?_, fun duty hd => ?_, fun duty hd => ?_, (fun _ _ e => by cases e), ?_⟩
    · exact ⟨⟨_, hnew⟩, ⟨g', _, hi', hgg.literal ▸ hn, hnew, hgg.literal ▸ hneg, rfl⟩, trivial⟩
    · cases hd with
      | searchFact ho =>
        obtain ⟨g', hi', hn', -⟩ := ho
        rw [goal_eq hi' hi, hn] at hn'
        cases hn'
      | searchRule ho =>
        obtain ⟨g', hi', hn', -⟩ := ho
        rw [goal_eq hi' hi, hn] at hn'
        cases hn'
      | searchDeny => exact .inr ⟨_, List.mem_cons_of_mem _ List.mem_cons_self, .decide⟩
    · exact (owes_addGoal hk hd).imp_right (fun h => .inr ⟨_, List.mem_cons_self, h⟩)
    · refine staked_addGoal hv hk (fun k b hk' _ => ?_) ?_
      · have : r.table.goals.size ≠ k := fun e => absurd (Table.goal?_lt hk') (by omega)
        simp [Task.stake, this]
      · simp [Task.stake, hne]

theorem step_search (hq : q.Regular V) (hv : r.Valid V q.kb) {i : Nat} (ht : (Task.search i).Valid q V r []) :
    ∃ ts r', r.step q (.search i) = (.ok ts, r') ∧ r.Steps q V (.search i) ts r' := by
  obtain ⟨g, hi⟩ := ht
  cases hn : g.literal.isNegated with
  | true => exact step_search_negation hq hv hi hn
  | false =>
    have hprim := (hv.goal i g hi).literal.not_isPrimitive
    have hstep : r.step q (.search i) = (.ok [.tryFacts i (q.kb.factsFor g.literal) false], r) := by
      simp only [step, search, hi, hn, hprim, Bool.false_eq_true, if_false]
    refine ⟨_, _, hstep, .quiet hv rfl (Nat.le_refl _) ?_ (fun duty hd => ?_) (fun _ _ => by simp)
      (fun k b hk _ => by simp [Task.stake])⟩
    · exact ⟨⟨g, hi, hn, fun _ h => h, fun c hc _ => .inl hc, fun _ c hc _ => hc⟩, trivial⟩
    · cases hd with
      | searchFact ho =>
        obtain ⟨g', hi', -, hc⟩ := ho
        rw [goal_eq hi' hi] at hc
        exact .inr ⟨_, List.mem_cons_self, .tryFact hc⟩
      | searchRule ho => exact .inr ⟨_, List.mem_cons_self, .tryLater ho⟩
      | searchDeny ho =>
        obtain ⟨g', hi', hn'⟩ := ho
        rw [goal_eq hi' hi, hn] at hn'
        cases hn'

/-! ## Facts of a goal -/

theorem step_tryFacts (hq : q.Regular V) (hv : r.Valid V q.kb) {i : Nat} {left : List (Clause W)} {matched : Bool}
    (ht : (Task.tryFacts i left matched).Valid q V r []) :
    ∃ ts r', r.step q (.tryFacts i left matched) = (.ok ts, r') ∧ r.Steps q V (.tryFacts i left matched) ts r' := by
  obtain ⟨g, hi, hn, hleft, hcov, hmatch⟩ := ht
  have hg := hv.goal i g hi
  -- no goal of a negation is the one searched here
  have hne : ∀ {k b}, r.table.goal? k = some b → b.literal.isNegated = true → i ≠ k := by
    rintro k b hk hb rfl
    rw [goal_eq hk hi, hn] at hb
    cases hb
  cases left with
  | nil =>
    have hstep : r.step q (.tryFacts i [] matched) = (.ok [.tryRules i (q.kb.rulesFor g.literal) matched], r) := by
      simp only [step, tryFacts, hi]
    refine ⟨_, _, hstep, .quiet hv rfl (Nat.le_refl _) ⟨⟨g, hi, hn, ?_, ?_, fun hm => ⟨?_, ?_⟩⟩, trivial⟩
      (fun duty hd => ?_) (fun _ _ => by simp) (fun k b hk _ => by simp [Task.stake])⟩
    · intro c hc hu
      rcases hcov c hc hu with h | h | h
      · cases h
      · exact h
      · cases h
    · exact fun c hc => hq.kb.mem_rulesFor hc
    · intro a w hs ha
      have hmem := hq.kb.mem_factsFor_of_covers hs ha
      have hu : (g.literal.unify (Clause.fact (a.literal w)).head).isSome = true :=
        (Literal.unify_literal_isSome_iff hg.literal.wellFormed (hq.kb.of_states hs).1.wellFormed_atom).2 ha
      cases hmatch hm _ hmem hu
    · exact fun c hc μ a hμ ha => hq.kb.mem_rulesFor_of_covers hc hμ ha
    · cases hd with
      | tryFact hc => cases hc
      | tryLater ho =>
        obtain ⟨g', hi', -, hc⟩ := ho
        rw [goal_eq hi' hi] at hc
        exact .inr ⟨_, List.mem_cons_self, .tryRule hc⟩
  | cons fact left =>
    have hfact : fact ∈ q.kb.facts.clauses := hq.kb.mem_factsFor (hleft fact List.mem_cons_self)
    cases hu : (g.literal.unify fact.head).isSome with
    | true =>
      have hstep : r.step q (.tryFacts i (fact :: left) matched) =
          (.ok [.accept i fact .asserted, .tryFacts i left true], r) := by
        simp only [step, tryFacts, hi, hv.not_isDone, hu, Bool.false_eq_true, if_false, if_true]
      refine ⟨_, _, hstep, .quiet hv rfl (Nat.le_refl _) ⟨?_, ?_, trivial⟩ (fun duty hd => ?_) (fun _ _ => by simp)
        (fun k b hk hb => by simp [Task.stake, hne hk hb])⟩
      · obtain ⟨a, w, e, h1, h2, h3, h4⟩ := hq.kb.fact_covers_iff hg.literal hfact
        refine ⟨g, hi, ⟨by rw [e]; rfl, by rw [e]; exact h1, fun _ => ⟨a, w, by rw [e]; rfl, h2, h4.1 hu, .inl ?_⟩, ?_⟩,
          fun _ _ => hfact, fun ho => by cases ho⟩
        · rw [KnowledgeBase.States, ← e]
          exact hfact
        · intro hn'
          rw [hn] at hn'
          cases hn'
      · refine ⟨g, hi, hn, fun c hc => hleft c (List.mem_cons_of_mem _ hc), fun c hc hu => ?_, fun hm => by cases hm⟩
        rcases hcov c hc hu with h | h | h
        · rcases List.mem_cons.1 h with rfl | h
          · exact .inr (.inr List.mem_cons_self)
          · exact .inl h
        · exact .inr (.inl h)
        · cases h
      · cases hd with
        | tryFact hc =>
          rcases List.mem_cons.1 hc with rfl | hc
          · exact .inr ⟨_, List.mem_cons_self, .acceptFact⟩
          · exact .inr ⟨_, List.mem_cons_of_mem _ List.mem_cons_self, .tryFact hc⟩
        | tryLater ho => exact .inr ⟨_, List.mem_cons_of_mem _ List.mem_cons_self, .tryLater ho⟩
    | false =>
      have hstep : r.step q (.tryFacts i (fact :: left) matched) = (.ok [.tryFacts i left matched], r) := by
        simp only [step, tryFacts, hi, hv.not_isDone, hu, Bool.false_eq_true, if_false]
      have hskip : ∀ {c}, c ∈ fact :: left → (g.literal.unify c.head).isSome = true → c ∈ left := by
        intro c hc hu'
        rcases List.mem_cons.1 hc with rfl | hc
        · rw [hu] at hu'
          cases hu'
        · exact hc
      refine ⟨_, _, hstep, .quiet hv rfl (Nat.le_refl _) ⟨⟨g, hi, hn, ?_, ?_, ?_⟩, trivial⟩ (fun duty hd => ?_)
        (fun _ _ => by simp) (fun k b hk _ => by simp [Task.stake])⟩
      · exact fun c hc => hleft c (List.mem_cons_of_mem _ hc)
      · exact fun c hc hu' => (hcov c hc hu').imp_left (fun h => hskip h hu')
      · exact fun hm c hc hu' => hskip (hmatch hm c hc hu') hu'
      · cases hd with
        | tryFact hc =>
          rcases List.mem_cons.1 hc with rfl | hc
          · exact .inl ⟨g, hi, fun h => absurd h (by simp [hu])⟩
          · exact .inr ⟨_, List.mem_cons_self, .tryFact hc⟩
        | tryLater ho => exact .inr ⟨_, List.mem_cons_self, .tryLater ho⟩

/-! ## Goals without facts -/

/-- Dropping the waits for a goal touches nothing but tries. -/
theorem cleanup_spec (l : Literal W) : ∀ (ws : List (Waiter W)) {r : Run W}, r.Valid V q.kb →
    let r' := ws.foldl (fun r w => r.modify w.goal (fun p => { p with trie := (p.trie.cleanup l).2 })) r
    r.Grows r' ∧ r'.Valid V q.kb ∧ r.Trims r'
  | [], r, h => ⟨.refl r, h, .refl r⟩
  | w :: ws, r, h => by
    have h1 : r.Grows (r.modify w.goal (fun p => { p with trie := (p.trie.cleanup l).2 })) ∧
        (r.modify w.goal (fun p => { p with trie := (p.trie.cleanup l).2 })).Valid V q.kb := by
      cases hg : r.table.goal? w.goal with
      | some g =>
        obtain ⟨hs, hk⟩ := Trie.cleanup_spec (h.goal _ g hg).trie l
        exact h.setTrie (fun p => (p.trie.cleanup l).2) hg hs hk
      | none =>
        rw [Run.modify, Table.modify_of_none hg]
        exact ⟨.refl r, h⟩
    obtain ⟨h2, h3, h4⟩ := cleanup_spec l ws h1.2
    exact ⟨h1.1.trans h2, h3, (trims_modify r w.goal _).trans h4⟩

theorem markUnprovable_spec (hv : r.Valid V q.kb) {i : Nat} {g : Subgoal W} (hi : r.table.goal? i = some g)
    (hh : g.literal.isNegated = false → g.literal.Hopeless q.kb) :
    r.Grows (r.markUnprovable i) ∧ (r.markUnprovable i).Valid V q.kb ∧
      (r.modify i (fun g => { g with unprovable := true })).Trims (r.markUnprovable i) := by
  let r₁ := r.count (fun s => { s with unprovable := s.unprovable + 1 })
  have hv' : r₁.Valid V q.kb := hv.of_table_eq rfl (Nat.le_refl _)
  have hg' : r.Grows r₁ := grows_of_table_eq rfl (Nat.le_refl _)
  obtain ⟨h1, h2⟩ := hv'.setUnprovable hi hh
  obtain ⟨h3, h4, h5⟩ := cleanup_spec g.literal g.waiters.toList h2
  have hr : r.markUnprovable i = g.waiters.toList.foldl
      (fun r w => r.modify w.goal (fun p => { p with trie := (p.trie.cleanup g.literal).2 }))
      ((r.count (fun s => { s with unprovable := s.unprovable + 1 })).modify i
        (fun g => { g with unprovable := true })) := by
    simp only [markUnprovable, hi, Array.foldl_toList]
  rw [hr]
  exact ⟨hg'.trans (h1.trans h3), h4, h5.pool, h5.index, h5.negations, h5.goal⟩

/-- What giving a goal up leaves as it was. -/
theorem markUnprovable_goal {i j : Nat} {g' : Subgoal W}
    (h : (r.modify i (fun g => { g with unprovable := true })).Trims (r.markUnprovable i))
    (hj : (r.markUnprovable i).table.goal? j = some g') :
    ∃ g, r.table.goal? j = some g ∧ g'.literal = g.literal ∧ g'.facts = g.facts ∧ g'.waiters = g.waiters ∧
      g'.unprovable = (g.unprovable || decide (i = j)) := by
  obtain ⟨g, hg, e⟩ := h.exists_goal hj
  rw [goal?_modify] at hg
  simp only [Subgoal.mk.injEq] at e
  split at hg
  · rename_i hij
    obtain ⟨g₀, hg₀, rfl⟩ := Option.map_eq_some_iff.1 hg
    refine ⟨g₀, hg₀, e.1, ?_, e.2.2.2.2.1, ?_⟩
    · rw [Subgoal.facts, e.2.1]
      rfl
    · simpa [hij] using e.2.2.2.2.2.2.2.2.1
  · rename_i hij
    refine ⟨g, hg, e.1, by rw [Subgoal.facts, e.2.1]; rfl, e.2.2.2.2.1, ?_⟩
    simpa [hij] using e.2.2.2.2.2.2.2.2.1

theorem markUnprovable_owes {i : Nat} {duty : Duty W}
    (h : (r.modify i (fun g => { g with unprovable := true })).Trims (r.markUnprovable i))
    (hd : (r.markUnprovable i).Owes q duty) : r.Owes q duty := by
  rcases hd.back (fun j g' hj => (markUnprovable_goal h hj).imp (fun _ hg => ⟨hg.1, hg.2.1⟩)) with h' | ⟨w, f, rfl⟩
  · exact h'
  · obtain ⟨j, g', hj, hw, hf⟩ := hd
    obtain ⟨g, hg, -, e1, e2, -⟩ := markUnprovable_goal h hj
    exact ⟨j, g, hg, e2 ▸ hw, e1 ▸ hf⟩

/-! ## Rules of a goal -/

theorem step_tryRules (hq : q.Regular V) (hv : r.Valid V q.kb) {i : Nat} {left : List (Clause W)} {matched : Bool}
    (ht : (Task.tryRules i left matched).Valid q V r []) :
    ∃ ts r', r.step q (.tryRules i left matched) = (.ok ts, r') ∧ r.Steps q V (.tryRules i left matched) ts r' := by
  obtain ⟨g, hi, hn, hready, hleft, hmatch⟩ := ht
  have hg := hv.goal i g hi
  cases left with
  | nil =>
    cases matched with
    | true =>
      have hstep : r.step q (.tryRules i [] true) = (.ok [], r) := by simp only [step, tryRules, hi, if_true]
      refine ⟨_, _, hstep, .quiet hv rfl (Nat.le_refl _) trivial (fun duty hd => ?_) (fun _ _ => by simp)
        (fun k b hk _ => by simp [Task.stake])⟩
      cases hd with
      | tryRule hc => cases hc
    | false =>
      have hstep : r.step q (.tryRules i [] false) = (.ok [], r.markUnprovable i) := by
        simp only [step, tryRules, hi, Bool.false_eq_true, if_false]
      have hh : g.literal.Hopeless q.kb :=
        ⟨(hmatch rfl).1, fun c hc μ a hμ ha => by cases (hmatch rfl).2 c hc μ a hμ ha⟩
      obtain ⟨h1, h2, h3⟩ := markUnprovable_spec hv hi (fun _ => hh)
      refine ⟨_, _, hstep, h1, h2, trivial, fun duty hd => ?_, fun duty hd => .inl (markUnprovable_owes h3 hd),
        (fun _ _ e => by cases e), ?_⟩
      · cases hd with
        | tryRule hc => cases hc
      · refine .frame h3.negations (fun k b hk hb => ?_) (fun k g' hk hk' _ => ?_)
        · obtain ⟨b', hk', -⟩ := h1.goal k b hk
          obtain ⟨b₀, hk₀, e1, e2, -, e4⟩ := markUnprovable_goal h3 hk'
          rw [goal_eq hk₀ hk] at e1 e2 e4
          have hik : i ≠ k := by
            rintro rfl
            rw [goal_eq hk hi, hn] at hb
            cases hb
          exact ⟨b', hk', e1, e2, by simpa [hik] using e4, by simp⟩
        · obtain ⟨b, hb, -⟩ := markUnprovable_goal h3 hk'
          rw [hk] at hb
          cases hb
  | cons rule left =>
    have hrule := hleft rule List.mem_cons_self
    obtain ⟨f, hf, -, hb⟩ := Clause.rename_spec rule r.pool
    have hgrow : r.Grows { r with pool := (rule.rename r.pool).2 } := grows_of_table_eq rfl hf.le
    cases hs : (rule.rename r.pool).1.head.unify g.literal with
    | some s =>
      have hstep : r.step q (.tryRules i (rule :: left) matched) =
          (.ok [.advance i (.start ((rule.rename r.pool).1.subst s)), .tryRules i left true],
            { r with pool := (rule.rename r.pool).2 }) := by
        simp only [step, tryRules, hi, hv.not_isDone, Bool.false_eq_true, if_false, hs]
      have hres := Residual.start hq.kb hrule hg.literal hs
      have hbody : ((rule.rename r.pool).1.subst s).body ≠ [] := by
        have hne := (hq.kb.rule rule hrule).nonempty
        intro e
        rw [Clause.subst, List.map_eq_nil_iff] at e
        rw [e] at hb
        cases hcb : rule.body with
        | nil => exact hne hcb
        | cons b bs => rw [hcb] at hb; cases hb
      refine ⟨_, _, hstep, .quiet hv rfl hf.le ⟨⟨⟨g, hi, hn, hready, [], .root, hres⟩, hbody⟩, ?_, trivial⟩
        (fun duty hd => ?_) (fun _ _ => by simp) (fun k b hk _ => by simp [Task.stake])⟩
      · exact ⟨g, hi, hn, hready, fun c hc => hleft c (List.mem_cons_of_mem _ hc), fun hm => by cases hm⟩
      · cases hd with
        | tryRule hc =>
          rcases List.mem_cons.1 hc with rfl | hc
          · exact .inr ⟨_, List.mem_cons_self, .advanceRule ⟨g, r.pool, s, hi, hg.literal, hs, rfl⟩⟩
          · exact .inr ⟨_, List.mem_cons_of_mem _ List.mem_cons_self, .tryRule hc⟩
    | none =>
      have hstep : r.step q (.tryRules i (rule :: left) matched) =
          (.ok [.tryRules i left matched], { r with pool := (rule.rename r.pool).2 }) := by
        simp only [step, tryRules, hi, hv.not_isDone, Bool.false_eq_true, if_false, hs]
      have hno : ∀ μ a, rule.head.Admits μ a → ¬ g.literal.Covers a := by
        intro μ a hμ ha
        obtain ⟨s, -, hs', -⟩ := exists_start hg.literal hμ ha
        rw [hs] at hs'
        cases hs'
      refine ⟨_, _, hstep, .quiet hv rfl hf.le ⟨⟨g, hi, hn, hready, fun c hc => hleft c (List.mem_cons_of_mem _ hc),
        fun hm => ⟨(hmatch hm).1, fun c hc μ a hμ ha => ?_⟩⟩, trivial⟩ (fun duty hd => ?_) (fun _ _ => by simp)
        (fun k b hk _ => by simp [Task.stake])⟩
      · rcases List.mem_cons.1 ((hmatch hm).2 c hc μ a hμ ha) with rfl | hc
        · exact absurd ha (hno μ a hμ)
        · exact hc
      · cases hd with
        | tryRule hc =>
          rcases List.mem_cons.1 hc with rfl | hc
          · exact .inl (.inl ⟨g, hi, hno⟩)
          · exact .inr ⟨_, List.mem_cons_self, .tryRule hc⟩

end Run
end Credence
