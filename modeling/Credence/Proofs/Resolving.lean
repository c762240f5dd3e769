import Credence.Proofs.Searching
/-!
# Steps that find facts

Accepting a fact, letting derivations meet it, and deciding a negation: the steps of a run by which the facts of a goal
grow.  As in the search of a goal, each such step succeeds and passes on what it owes.
-/
namespace Credence

variable {W : Type} [Weight W] {V : Vocabulary W} {kb : KnowledgeBase W}

/-- A goal that nothing fits has no facts. -/
theorem Subgoal.Valid.facts_of_hopeless {r : Run W} {g : Subgoal W} (h : g.Valid V kb r) (hn : g.literal.isNegated = false)
    (hh : g.literal.Hopeless kb) : g.facts = [] := by
  refine List.eq_nil_iff_forall_not_mem.2 (fun f hf => ?_)
  obtain ⟨a, w, ha, -, hcov, hs | ⟨-, c, hc, e⟩⟩ := (h.fact f hf).positive hn
  · exact hh.1 a w hs hcov
  · obtain ⟨b, hb, hcov', rule, hrule, μ, hμ, -⟩ := (h.grounded c hc).trace
    exact hh.2 rule hrule μ b hμ hcov'

namespace Run

variable {q : Query W} {r : Run W}

/-! ## Meeting facts -/

theorem step_notify (hv : r.Valid V q.kb) {ws : List (Waiter W)} {f : Clause W} (ht : (Task.notify ws f).Valid q V r []) :
    ∃ ts r', r.step q (.notify ws f) = (.ok ts, r') ∧ r.Steps q V (.notify ws f) ts r' := by
  cases ws with
  | nil =>
    refine ⟨_, _, rfl, .quiet hv rfl (Nat.le_refl _) trivial (fun duty hd => ?_) (fun _ _ => by simp)
      (fun k b hk _ => by simp)⟩
    cases hd with
    | notify hw => cases hw
  | cons w ws =>
    have hstep : r.step q (.notify (w :: ws) f) = (.ok [.resolve w.goal w.derivation f, .notify ws f], r) := by
      simp only [step, notify, hv.not_isDone, Bool.false_eq_true, if_false]
    refine ⟨_, _, hstep, .quiet hv rfl (Nat.le_refl _) ⟨ht w List.mem_cons_self,
      fun w' hw' => ht w' (List.mem_cons_of_mem _ hw'), trivial⟩ (fun duty hd => ?_) (fun _ _ => by simp)
      (fun k b hk _ => by simp [Task.stake])⟩
    cases hd with
    | notify hw =>
      rcases List.mem_cons.1 hw with rfl | hw
      · exact .inr ⟨_, List.mem_cons_self, .resolve⟩
      · exact .inr ⟨_, List.mem_cons_of_mem _ List.mem_cons_self, .notify hw⟩

theorem step_feed (hv : r.Valid V q.kb) {i : Nat} {d : Derivation W} {left : List (Clause W)}
    (ht : (Task.feed i d left).Valid q V r []) :
    ∃ ts r', r.step q (.feed i d left) = (.ok ts, r') ∧ r.Steps q V (.feed i d left) ts r' := by
  cases left with
  | nil =>
    refine ⟨_, _, rfl, .quiet hv rfl (Nat.le_refl _) trivial (fun duty hd => ?_) (fun _ _ => by simp)
      (fun k b hk _ => by simp)⟩
    cases hd with
    | feed hf => cases hf
  | cons f left =>
    have hstep : r.step q (.feed i d (f :: left)) = (.ok [.resolve i d f, .feed i d left], r) := by
      simp only [step, feed, hv.not_isDone, Bool.false_eq_true, if_false]
    refine ⟨_, _, hstep, .quiet hv rfl (Nat.le_refl _) ⟨ht f List.mem_cons_self,
      fun f' hf' => ht f' (List.mem_cons_of_mem _ hf'), trivial⟩ (fun duty hd => ?_) (fun _ _ => by simp)
      (fun k b hk _ => by simp [Task.stake])⟩
    cases hd with
    | feed hf =>
      rcases List.mem_cons.1 hf with rfl | hf
      · exact .inr ⟨_, List.mem_cons_self, .resolve⟩
      · exact .inr ⟨_, List.mem_cons_of_mem _ List.mem_cons_self, .feed hf⟩

/-! ## Taking up the next literal -/

/-- A derivation waits at a goal: the trie of its own goal notes it, and the goal takes the waiter. -/
theorem await_spec (hv : r.Valid V q.kb) {i j : Nat} {d : Derivation W} {g c : Subgoal W} (hi : r.table.goal? i = some g)
    (hj : r.table.goal? j = some c) (hd : r.Derives V q.kb i d) {first : Literal W} {rest : List (Literal W)}
    (hbody : d.rule.body = first :: rest) (hvar : c.literal.variant = first.variant) :
    ∃ trie, g.trie.wait d.node first = .ok trie ∧
      let r' := (r.modify i (fun g => { g with trie := trie })).modify j (fun c => c.wait ⟨i, d⟩)
      r.Grows r' ∧ r'.Valid V q.kb ∧ r'.table.negations = r.table.negations ∧
      ∀ k b', r'.table.goal? k = some b' → ∃ b, r.table.goal? k = some b ∧ b'.literal = b.literal ∧ b'.facts = b.facts ∧
        b'.unprovable = b.unprovable ∧ ∀ w, w ∈ b'.waiters ↔ w ∈ b.waiters ∨ k = j ∧ w = ⟨i, d⟩ := by
  have hd' := hd
  obtain ⟨g', hi', -, -, π, hπ, -⟩ := hd'
  rw [goal_eq hi' hi] at hπ
  have hg := hv.goal i g hi
  obtain ⟨trie, hw, hs, hk⟩ := Trie.wait_spec hg.trie (hg.trie.lt_of_path hπ) first
  obtain ⟨h1, h2⟩ := hv.setTrie (fun _ => trie) hi hs hk
  obtain ⟨c', hj', hcc⟩ := h1.goal j c hj
  obtain ⟨h3, h4⟩ := h2.addWaiter (w := ⟨i, d⟩) hj' (hd.mono h1) ⟨first, rest, hbody, by rw [hcc.literal, hvar]⟩
  refine ⟨trie, hw, h1.trans h3, h4, rfl, fun k b' hk' => ?_⟩
  rw [goal?_modify, goal?_modify] at hk'
  have hback : ∀ {b₁}, (if i = k then (r.table.goal? k).map (fun g => { g with trie := trie }) else r.table.goal? k) =
      some b₁ → ∃ b, r.table.goal? k = some b ∧ b₁.literal = b.literal ∧ b₁.facts = b.facts ∧
        b₁.unprovable = b.unprovable ∧ b₁.waiters = b.waiters := by
    intro b₁ hb₁
    split at hb₁
    · obtain ⟨b, hb, rfl⟩ := Option.map_eq_some_iff.1 hb₁
      exact ⟨b, hb, rfl, rfl, rfl, rfl⟩
    · exact ⟨b₁, hb₁, rfl, rfl, rfl, rfl⟩
  split at hk'
  · rename_i e
    obtain ⟨b₁, hb₁, rfl⟩ := Option.map_eq_some_iff.1 hk'
    obtain ⟨b, hb, e1, e2, e3, e4⟩ := hback hb₁
    refine ⟨b, hb, e1, e2, e3, fun w => ?_⟩
    rw [Subgoal.wait, Array.mem_push, e4]
    simp [e]
  · rename_i e
    obtain ⟨b, hb, e1, e2, e3, e4⟩ := hback hk'
    refine ⟨b, hb, e1, e2, e3, fun w => ?_⟩
    rw [e4]
    exact ⟨.inl, fun h => h.resolve_right (fun h' => e h'.1.symm)⟩

omit [Weight W] in
/-- What the waiting of a derivation leaves to be done. -/
theorem owes_of_await {r' : Run W} {i j : Nat} {d : Derivation W}
    (h : ∀ k b', r'.table.goal? k = some b' → ∃ b, r.table.goal? k = some b ∧ b'.literal = b.literal ∧
      b'.facts = b.facts ∧ b'.unprovable = b.unprovable ∧ ∀ w, w ∈ b'.waiters ↔ w ∈ b.waiters ∨ k = j ∧ w = ⟨i, d⟩)
    {duty : Duty W} (hd : r'.Owes q duty) :
    r.Owes q duty ∨ ∃ f c, duty = .meet ⟨i, d⟩ f ∧ r.table.goal? j = some c ∧ f ∈ c.facts := by
  rcases hd.back (fun k b' hk => (h k b' hk).imp (fun _ hb => ⟨hb.1, hb.2.1⟩)) with h' | ⟨w, f, rfl⟩
  · exact .inl h'
  · obtain ⟨k, b', hk, hw, hf⟩ := hd
    obtain ⟨b, hb, -, e2, -, e4⟩ := h k b' hk
    rw [e2] at hf
    rcases (e4 w).1 hw with hw | ⟨rfl, rfl⟩
    · exact .inl ⟨k, b, hb, hw, hf⟩
    · exact .inr ⟨f, b, rfl, hb, hf⟩

/-- A derivation that waits has done what taking it up was to do. -/
theorem did_of_taken {i : Nat} {d : Derivation W} (h : r.Taken i d) {duty : Duty W} (hd : r.Serves q V (.advance i d) duty) :
    r.Did q V duty := by
  cases hd with
  | advanceRule hs => exact .inr ⟨d, hs, h⟩
  | advanceMeet hc => exact .inr (.inl ⟨d, hc, h⟩)

theorem step_advance (hq : q.Regular V) (hv : r.Valid V q.kb) {i : Nat} {d : Derivation W}
    (ht : (Task.advance i d).Valid q V r []) :
    ∃ ts r', r.step q (.advance i d) = (.ok ts, r') ∧ r.Steps q V (.advance i d) ts r' := by
  obtain ⟨hd, hne⟩ := ht
  obtain ⟨g, hi, hn, hready, π, hπ, hres⟩ := id hd
  cases hbody : d.rule.body with
  | nil => exact absurd hbody hne
  | cons first rest =>
    have hfirst := (hres.body first (by rw [hbody]; exact List.mem_cons_self)).1
    have hsg : first.isNegated = true → first.isSemiGrounded = true := hres.restricted.first_semiGrounded hbody
    have hopen : (first.isNegated && !first.isSemiGrounded) = false := by
      cases hf : first.isNegated with
      | false => rfl
      | true => simp [hsg hf]
    have hstep : r.step q (.advance i d) = r.awaitGoal q i d first := by
      simp only [step, advance, hbody, hfirst.not_isPrimitive, Bool.false_eq_true, if_false, hopen]
    rw [hstep]
    cases hk : r.table.index[first.variant]? with
    | some j =>
      obtain ⟨c, hj, hvar⟩ := hv.index _ _ hk
      cases hun : c.unprovable with
      | true =>
        have haw : r.awaitGoal q i d first = (.ok [], r) := by
          simp only [awaitGoal, goalFor_known hk, hj, hi, hun, if_true]
        refine ⟨_, _, haw, .quiet hv rfl (Nat.le_refl _) trivial (fun duty hduty => .inl ?_) (fun _ _ => by simp)
          (fun k b hk _ => by simp)⟩
        exact did_of_taken ⟨first, rest, j, c, hbody, hj, hvar, .inr hun⟩ hduty
      | false =>
        obtain ⟨trie, hw, hgrow, hval, hneg, hgoal⟩ := await_spec hv hi hj hd hbody hvar
        have haw : r.awaitGoal q i d first = (.ok [.feed i d c.facts],
            (r.modify i (fun g => { g with trie := trie })).modify j (fun c => c.wait ⟨i, d⟩)) := by
          simp only [awaitGoal, goalFor_known hk, hj, hi, hun, hw, Bool.false_eq_true, if_false]
        obtain ⟨c', hj', hcc⟩ := hgrow.goal j c hj
        obtain ⟨c₀, hc₀, -, -, -, hws⟩ := hgoal j c' hj'
        have hwait : ⟨i, d⟩ ∈ c'.waiters := (hws _).2 (.inr ⟨rfl, rfl⟩)
        refine ⟨_, _, haw, hgrow, hval, ⟨fun f hf => ⟨j, c', hj', hwait, hcc.facts f hf⟩, trivial⟩,
          fun duty hduty => .inl ?_, fun duty hduty => ?_, (fun _ _ e => by cases e), ?_⟩
        · exact did_of_taken ⟨first, rest, j, c', hbody, hj', by rw [hcc.literal, hvar], .inl hwait⟩ (hduty.mono hgrow)
        · refine (owes_of_await hgoal hduty).imp_right ?_
          rintro ⟨f, b, rfl, hb, hf⟩
          exact .inr ⟨_, List.mem_cons_self, .feed (goal_eq hb hj ▸ hf)⟩
        · refine .frame hneg (fun k b hk _ => ?_) (fun k b' hk hk' _ => ?_)
          · obtain ⟨b', hk', -⟩ := hgrow.goal k b hk
            obtain ⟨b₀, hb₀, e1, e2, e3, -⟩ := hgoal k b' hk'
            rw [goal_eq hb₀ hk] at e1 e2 e3
            exact ⟨b', hk', e1, e2, e3, by simp [Task.stake]⟩
          · obtain ⟨b, hb, -⟩ := hgoal k b' hk'
            rw [hk] at hb
            cases hb
    | none =>
      have hgrow₁ := grows_addGoal (q := q) hk
      have hval₁ : (r.addGoal q first).Valid V q.kb := hv.addGoal hk hq.capacity hfirst hsg
      have hnew := addGoal_new (q := q) hk
      obtain ⟨g₁, hi₁, hgg⟩ := hgrow₁.goal i g hi
      obtain ⟨trie, hw, hgrow₂, hval, hneg, hgoal⟩ := await_spec hval₁ hi₁ hnew (hd.mono hgrow₁) hbody rfl
      have haw : r.awaitGoal q i d first = (.ok [.search r.table.goals.size],
          ((r.addGoal q first).modify i (fun g => { g with trie := trie })).modify r.table.goals.size
            (fun c => c.wait ⟨i, d⟩)) := by
        have hun : (newGoal q first).unprovable = false := rfl
        simp only [awaitGoal, goalFor_new hk, hnew, hi₁, hun, hw, Bool.false_eq_true, if_false, if_true]
      have hgrow := hgrow₁.trans hgrow₂
      obtain ⟨c', hj', hcc⟩ := hgrow₂.goal _ _ hnew
      obtain ⟨c₀, hc₀, -, -, -, hws⟩ := hgoal _ c' hj'
      refine ⟨_, _, haw, hgrow, hval, ⟨⟨c', hj'⟩, trivial⟩, fun duty hduty => .inl ?_, fun duty hduty => ?_,
        (fun _ _ e => by cases e), ?_⟩
      · exact did_of_taken ⟨first, rest, _, c', hbody, hj', by rw [hcc.literal]; rfl, .inl ((hws _).2 (.inr ⟨rfl, rfl⟩))⟩
          (hduty.mono hgrow)
      · rcases owes_of_await hgoal hduty with h | ⟨f, b, rfl, hb, hf⟩
        · exact (owes_addGoal hk h).imp_right (fun h => .inr ⟨_, List.mem_cons_self, h.mono hgrow₂⟩)
        · rw [goal_eq hb hnew] at hf
          cases hf
      · refine .frame (hneg.trans (addGoal_negations hk)) (fun k b hk' _ => ?_) (fun k b' hk' hk'' _ => ?_)
        · have hlt := Table.goal?_lt hk'
          obtain ⟨b', hk'', -⟩ := hgrow.goal k b hk'
          obtain ⟨b₀, hb₀, e1, e2, e3, -⟩ := hgoal k b' hk''
          rw [addGoal_goal? hk, if_neg (by omega)] at hb₀
          rw [goal_eq hb₀ hk'] at e1 e2 e3
          refine ⟨b', hk'', e1, e2, e3, ?_⟩
          simp [Task.stake, show r.table.goals.size ≠ k by omega]
        · obtain ⟨b₀, hb₀, e1, e2, e3, -⟩ := hgoal k b' hk''
          rw [addGoal_goal? hk] at hb₀
          split at hb₀
          · rename_i e
            injection hb₀ with hb₀
            subst hb₀ e
            refine ⟨e2, e3, ?_, by simp [Task.stake]⟩
            rw [e1]
            exact hv.not_hasEntry hk
          · rw [hk'] at hb₀
            cases hb₀

end Run

variable [LawfulWeight W]

/-! ## Facts are known by their keys -/

/-- Atoms of the vocabulary that print alike are the same. -/
theorem Atom.literal_eq_of_form {m n : Nat} {a b : Atom} {v w : W} (ha : V.HasLiteral m (a.literal v))
    (hb : V.HasLiteral n (b.literal w)) (hv : v ∈ V.weights) (hw : w ∈ V.weights)
    (h : (a.literal v).form = (b.literal w).form) : a.literal v = b.literal w :=
  (Literal.eq_literal_of_form ha.isPlain hb.isPlain (V.proper _ hv) (V.proper _ hw) h).symm

theorem Subgoal.Accepts.eq_of_key {g : Subgoal W} {f f' : Clause W} (hn : g.literal.isNegated = false)
    (h : g.Accepts V kb f) (h' : g.Accepts V kb f') (hk : f.key = f'.key) : f = f' := by
  obtain ⟨a, v, ha, hv, -⟩ := h.positive hn
  obtain ⟨b, w, hb, hw, -⟩ := h'.positive hn
  have hsg : ∀ {c : Clause W} {x : Atom} {u : W}, c.head = x.literal u → c.body = [] → c.isSemiGrounded = true := by
    intro c x u hc hb
    simp [Clause.isSemiGrounded, hc, hb, Atom.literal_isSemiGrounded]
  have hpl : ∀ {c : Clause W}, V.HasLiteral 0 c.head → c.body = [] → c.isPlain = true := by
    intro c hc hb
    simp [Clause.isPlain, hb, hc.isPlain]
  have hform := ((Clause.key_eq_iff (hsg ha h.body) (hsg hb h'.body) (hpl h.literal h.body) (hpl h'.literal h'.body)).1 hk).1
  have hlit := h.literal
  have hlit' := h'.literal
  rw [ha, hb] at hform
  rw [ha] at hlit
  rw [hb] at hlit'
  rw [h.eq_fact, h'.eq_fact, ha, hb, Atom.literal_eq_of_form hlit hlit' hv hw hform]

omit [LawfulWeight W] in
theorem Table.Instantiates.isPlain {r : Run W} {g : Subgoal W} {c : Clause W} (h : r.table.Instantiates V kb g c) :
    c.isSemiGrounded = true ∧ c.isPlain = true := by
  obtain ⟨a, ha, -⟩ := h.trace
  simp only [Clause.isSemiGrounded, Clause.isPlain, Bool.and_eq_true]
  refine ⟨⟨by rw [ha]; exact a.literal_isSemiGrounded 1, List.all_eq_true.2 (fun l hl => ?_)⟩, h.literal.isPlain,
    List.all_eq_true.2 (fun l hl => (h.body l hl).literal.isPlain)⟩
  cases hn : l.isNegated with
  | true => exact (h.body l hl).negation hn
  | false =>
    obtain ⟨b, w, e, -⟩ := (h.body l hl).atom hn
    rw [e]
    exact b.literal_isSemiGrounded w

/-- Completed rules of one key have the same head, and bodies of the same ids. -/
theorem Table.Instantiates.eq_of_key {r : Run W} {g g' : Subgoal W} {c c' : Clause W}
    (h : r.table.Instantiates V kb g c) (h' : r.table.Instantiates V kb g' c') (hk : c.key = c'.key) :
    c.head = c'.head ∧ c.body.map Literal.id = c'.body.map Literal.id := by
  obtain ⟨hform, hforms⟩ := (Clause.key_eq_iff h.isPlain.1 h'.isPlain.1 h.isPlain.2 h'.isPlain.2).1 hk
  refine ⟨?_, Literal.map_id_of_map_form hforms⟩
  obtain ⟨a, ha, -⟩ := h.trace
  obtain ⟨b, hb, -⟩ := h'.trace
  have hlit := h.literal
  have hlit' := h'.literal
  rw [ha, hb] at hform ⊢
  rw [ha] at hlit
  rw [hb] at hlit'
  exact Atom.literal_eq_of_form hlit hlit' V.certain V.certain hform

namespace Run

variable {q : Query W} {r : Run W}

/-! ## Accepting a fact -/

omit [LawfulWeight W] in
/-- Once the facts of the program have been tried, a fact that is taken is none of them. -/
theorem not_stated_of_addFact (hkb : kb.Regular V) {g : Subgoal W} (hg : g.Valid V kb r) (hn : g.literal.isNegated = false)
    (hready : g.Ready kb) {f : Clause W} (hacc : g.Accepts V kb f) {origin : Origin} (hadd : g.addFact f origin ≠ none) :
    f ∉ kb.facts.clauses := by
  intro hf
  obtain ⟨a, w, ha, -, hcov, -⟩ := hacc.positive hn
  have hfa : f = .fact (a.literal w) := by rw [hacc.eq_fact, ha]
  have hs : kb.States a w := by
    rw [KnowledgeBase.States, ← hfa]
    exact hf
  have hmem : f ∈ g.facts := by
    rw [hfa]
    refine hready _ (hkb.mem_factsFor_of_covers hs hcov) ?_
    exact (Literal.unify_literal_isSome_iff hg.literal.wellFormed (hkb.of_states hs).1.wellFormed_atom).2 hcov
  exact hadd ((Subgoal.addFact_eq_none hg.store).2 ⟨f, hmem, rfl⟩)

section Added

variable {r' : Run W} {i : Nat} {g g' : Subgoal W} {f : Clause W} {origin : Origin}

omit [LawfulWeight W] in
/-- A fact that is added is to meet the waiters of its goal, and nothing else is asked for. -/
theorem owes_of_added (hi : r.table.goal? i = some g) (hA : g.Added f origin g')
    (hgoal : ∀ k, r'.table.goal? k = if i = k then some g' else r.table.goal? k) {duty : Duty W} (hd : r'.Owes q duty) :
    r.Owes q duty ∨ ∃ w ∈ g'.waiters, duty = .meet w f := by
  obtain ⟨e1, e2, -⟩ := hA.rest
  have hback : ∀ k b', r'.table.goal? k = some b' → ∃ b, r.table.goal? k = some b ∧ b'.literal = b.literal := by
    intro k b' hk
    rw [hgoal] at hk
    split at hk
    · rename_i e
      injection hk with hk
      subst hk e
      exact ⟨g, hi, e1⟩
    · exact ⟨b', hk, rfl⟩
  rcases hd.back hback with h | ⟨w, c, rfl⟩
  · exact .inl h
  · obtain ⟨k, b, hk, hw, hc⟩ := hd
    rw [hgoal] at hk
    split at hk
    · rename_i e
      injection hk with hk
      subst hk e
      rw [hA.facts] at hc
      rcases List.mem_append.1 hc with hc | hc
      · exact .inl ⟨i, g, hi, e2 ▸ hw, hc⟩
      · exact .inr ⟨w, hw, by rw [List.mem_singleton.1 hc]⟩
    · exact .inl ⟨k, b, hk, hw, hc⟩

omit [LawfulWeight W] in
/-- The fact takes over the stake of the task that accepts it. -/
theorem staked_of_added (hi : r.table.goal? i = some g) (hA : g.Added f origin g')
    (hgoal : ∀ k, r'.table.goal? k = if i = k then some g' else r.table.goal? k)
    (hneg : r'.table.negations = r.table.negations) (ws : List (Waiter W)) :
    r.Staked (.accept i f origin) [.notify ws f] r' := by
  obtain ⟨e1, -, -, -, -, e6, -⟩ := hA.rest
  have hent : r'.table.HasEntry = r.table.HasEntry := Table.hasEntry_congr hneg
  refine ⟨fun k b b' hk hk' _ => ?_, fun k b' hk hk' _ => ?_⟩
  · rw [hgoal] at hk'
    split at hk'
    · rename_i e
      injection hk' with hk'
      subst hk' e
      rw [goal_eq hk hi, Table.stake, Table.stake, hent, e1, e6, hA.facts]
      simp [Task.stake]
      omega
    · rw [goal_eq hk hk', Table.stake, Table.stake, hent]
      simp [Task.stake]
  · rw [hgoal] at hk'
    split at hk'
    · rename_i e
      rw [← e, hi] at hk
      cases hk
    · rw [hk] at hk'
      cases hk'

end Added

omit [LawfulWeight W] in
/-- What a goal holds is done, when it is what the task was to have accepted. -/
theorem did_of_accepted {i : Nat} {g : Subgoal W} {f : Clause W} {origin : Origin} (hi : r.table.goal? i = some g)
    (hf : f ∈ g.facts) {duty : Duty W} (hd : r.Serves q V (.accept i f origin) duty) : r.Did q V duty := by
  cases hd with
  | acceptFact => exact ⟨g, hi, fun _ => hf⟩
  | acceptDenial ho => exact ⟨_, ho, g, hi, fun f' e => by injection e with e; exact e ▸ hf, fun e => by cases e⟩
  | acceptHead hc => exact .inr (.inr ⟨_, hc, g, hi, hf⟩)

theorem step_accept (hq : q.Regular V) (hv : r.Valid V q.kb) {i : Nat} {f : Clause W} {origin : Origin}
    (ht : (Task.accept i f origin).Valid q V r [])
    (hst : ∀ g, r.table.goal? i = some g → g.literal.isNegated = true → g.facts = []) :
    ∃ ts r', r.step q (.accept i f origin) = (.ok ts, r') ∧ r.Steps q V (.accept i f origin) ts r' := by
  obtain ⟨g, hi, hacc, hasserted, hderived⟩ := ht
  have hg := hv.goal i g hi
  cases hadd : g.addFact f origin with
  | none =>
    have hstep : r.step q (.accept i f origin) = (.ok [], r) := by
      simp only [step, accept, hi, hg.uncapped, Bool.false_eq_true, if_false, hadd]
    obtain ⟨c, hc, hk⟩ := (Subgoal.addFact_eq_none hg.store).1 hadd
    have hn : g.literal.isNegated = false := by
      cases hn : g.literal.isNegated with
      | false => rfl
      | true => rw [hst g hi hn] at hc; cases hc
    have hf : f ∈ g.facts := (hg.fact c hc).eq_of_key hn hacc hk ▸ hc
    refine ⟨_, _, hstep, .refl r, hv, trivial, fun duty hd => .inl (did_of_accepted hi hf hd), fun duty hd => .inl hd,
      fun j c e => ?_, ?_⟩
    · injection e with e1 e2
      subst e1 e2
      exact ⟨g, hi, hf⟩
    · exact .frame rfl (fun k b hk hb => ⟨b, hk, rfl, rfl, rfl, by simp⟩) (fun k b hk hk' _ => by rw [hk] at hk'; cases hk')
  | some out =>
    obtain ⟨fast, g'⟩ := out
    have hA := Subgoal.addFact_eq_some hg.store hadd
    have hstep : r.step q (.accept i f origin) =
        (.ok [.notify g'.waiters.toList f], (r.modify i (fun _ => g')).count (countFact fast)) := by
      simp only [step, accept, hi, hg.uncapped, Bool.false_eq_true, if_false, hadd, hq.samples, Option.any_none,
        Bool.and_false]
    have hnew : origin = .derived → f ∉ q.kb.facts.clauses ∧ ∃ c ∈ g.grounded, c.head = f.head := by
      intro ho
      obtain ⟨hn, hready, hc⟩ := hderived ho
      exact ⟨not_stated_of_addFact hq.kb hg hn hready hacc (by rw [hadd]; exact Option.some_ne_none _), hc⟩
    obtain ⟨hgrow, hval⟩ := hv.addFact hi hA hacc hasserted hnew
    have hgrow' : r.Grows ((r.modify i (fun _ => g')).count (countFact fast)) :=
      hgrow.trans (grows_of_table_eq rfl (Nat.le_refl _))
    have hgoal : ∀ k, ((r.modify i (fun _ => g')).count (countFact fast)).table.goal? k =
        if i = k then some g' else r.table.goal? k := by
      intro k
      show (r.modify i (fun _ => g')).table.goal? k = _
      rw [goal?_modify]
      split
      · rename_i e
        rw [← e, hi]
        rfl
      · rfl
    have hi' : ((r.modify i (fun _ => g')).count (countFact fast)).table.goal? i = some g' := by rw [hgoal, if_pos rfl]
    have hf : f ∈ g'.facts := by rw [hA.facts]; simp
    refine ⟨_, _, hstep, hgrow', hval.of_table_eq rfl (Nat.le_refl _), ⟨fun w hw => ⟨i, g', hi', by simpa using hw, hf⟩,
      trivial⟩, fun duty hd => .inl (did_of_accepted hi' hf (hd.mono hgrow')), fun duty hd => ?_, fun j c e => ?_,
      staked_of_added hi hA hgoal rfl _⟩
    · refine (owes_of_added hi hA hgoal hd).imp_right ?_
      rintro ⟨w, hw, rfl⟩
      exact .inr ⟨_, List.mem_cons_self, .notify (by simpa using hw)⟩
    · injection e with e1 e2
      subst e1 e2
      exact ⟨g', hi', hf⟩

/-! ## Resolving the next literal -/

omit [LawfulWeight W] in
theorem Valid.resolved (hv : r.Valid V kb) {j : Nat} {b : Subgoal W} (hj : r.table.goal? j = some b) {f : Clause W}
    (hf : f ∈ b.facts) : r.table.Resolved V f.head ∧ f.head.predicate = b.literal.predicate := by
  have hb := hv.goal j b hj
  have hacc := hb.fact f hf
  cases hn : b.literal.isNegated with
  | false =>
    obtain ⟨a, w, ha, hw, ⟨ν, hp, -⟩, -⟩ := hacc.positive hn
    have hpred : f.head.predicate = b.literal.predicate := by rw [ha]; exact hp.symm
    refine ⟨⟨hacc.literal, fun _ => ⟨a, w, ha, hw⟩, fun h => ?_, f, ⟨j, b, hj, hf⟩, rfl⟩, hpred⟩
    rw [Literal.isNegated, hpred] at h
    rw [Literal.isNegated] at hn
    rw [hn] at h
    cases h
  | true =>
    obtain ⟨hp, hterms⟩ := hacc.negative hn
    refine ⟨⟨hacc.literal, fun h => ?_, fun _ => ?_, f, ⟨j, b, hj, hf⟩, rfl⟩, hp⟩
    · rw [Literal.isNegated, hp] at h
      rw [Literal.isNegated] at hn
      rw [hn] at h
      cases h
    · rw [Literal.isSemiGrounded, hterms]
      exact hb.negation hn

/-- Resolved literals that share an id are the same, if they are positive. -/
theorem Resolved.eq_of_id {l m : Literal W} (hl : r.table.Resolved V l) (hm : r.table.Resolved V m) (h : l.id = m.id)
    (hn : m.isNegated = false) : l = m := by
  obtain ⟨a, v, ha, hv⟩ := hl.atom ((Literal.isNegated_of_id_eq hl.literal.isPlain hm.literal.isPlain h).trans hn)
  obtain ⟨b, w, hb, hw⟩ := hm.atom hn
  have hform := (Literal.id_eq_iff hl.literal.isPlain hm.literal.isPlain).1 h
  have h1 := hl.literal
  have h2 := hm.literal
  rw [ha] at h1
  rw [hb] at h2
  rw [ha, hb] at hform ⊢
  exact Atom.literal_eq_of_form h1 h2 hv hw hform

/-- **A derivation that waits for a goal and meets one of its facts stays a derivation**, with the literal the trie
keeps for the fact. -/
theorem residual_meets (hv : r.Valid V kb) {l : Literal W} {n : Nat} {π : List (Literal W)} {c c' : Clause W}
    (hres : Residual V kb l n π c) {first : Literal W} {rest : List (Literal W)} (hbody : c.body = first :: rest)
    {j : Nat} {b : Subgoal W} (hj : r.table.goal? j = some b) (hvar : first.variant = b.literal.variant) {f : Clause W}
    (hf : f ∈ b.facts) (hc : c.resolve f.head = some c') {p : Literal W} (hp : r.table.Resolved V p)
    (hid : p.id = f.head.id) : Residual V kb l n (π ++ [p]) c' := by
  have hb := hv.goal j b hj
  have hfirst := (hres.body first (by rw [hbody]; exact List.mem_cons_self)).1
  obtain ⟨hfres, hpred⟩ := hv.resolved hj hf
  have hpfirst : first.predicate = b.literal.predicate :=
    (Literal.shape_eq_of_variant_eq hfirst.isPlain hb.literal.isPlain hvar).1
  simp only [Clause.resolve, hbody, Option.map_eq_some_iff] at hc
  obtain ⟨s, hs, rfl⟩ := hc
  have hneg : first.isNegated = f.head.isNegated := by
    rw [Literal.isNegated, Literal.isNegated, hpfirst, hpred]
  cases hn : first.isNegated with
  | false =>
    rw [hneg] at hn
    rw [Resolved.eq_of_id hp hfres hid hn]
    obtain ⟨a, w, ha, -⟩ := hfres.atom hn
    have hlit := hfres.literal.mono (Nat.zero_le n)
    rw [ha] at hs hlit ⊢
    exact hres.resolve hbody (hneg.trans hn) hlit hs
  | true =>
    have hnf : f.head.isNegated = true := hneg.symm.trans hn
    have hnb : b.literal.isNegated = true := by rw [Literal.isNegated, ← hpred]; exact hnf
    have hnp : p.isNegated = true := (Literal.isNegated_of_id_eq hp.literal.isPlain hfres.literal.isPlain hid).trans hnf
    have hsg := hres.restricted.first_semiGrounded hbody hn
    obtain ⟨hpp, hpv⟩ := Literal.variant_eq_of_id_eq hp.literal.isPlain hfres.literal.isPlain (hp.negation hnp)
      (hfres.negation hnf) hid
    have hfv : f.head.variant = first.variant := by
      rw [hvar]
      exact Literal.variant_congr hpred ((hb.fact f hf).negative hnb).2
    rw [Literal.unify_semiGrounded hsg (hfres.negation hnf) hs]
    have := hres.resolve_negation hbody hn (p := p) (hpp.trans (hpred.trans hpfirst.symm)) (hp.negation hnp)
      (fun ν => Literal.values_eq_of_variant_eq hp.literal.isPlain hfirst.isPlain (hp.negation hnp) hsg (hpv.trans hfv) ν ν)
    simpa [Literal.subst_empty] using this

omit [LawfulWeight W] in
/-- **A derivation with nothing left is an instance of a rule of the program.** -/
theorem residual_completed (hkb : kb.Regular V) {g : Subgoal W} {n : Nat} {π : List (Literal W)} {c : Clause W}
    (hres : Residual V kb g.literal n π c) (hbody : c.body = []) (hπ : ∀ l ∈ π, r.table.Resolved V l) :
    c.head.isSemiGrounded = true ∧ π ≠ [] ∧ r.table.Instantiates V kb g ⟨c.head, π⟩ := by
  have hground := hres.restricted.head_isGrounded hbody hres.closed
  obtain ⟨a, ha⟩ := Literal.exists_atom hground
  rw [hres.certain] at ha
  obtain ⟨rule, hrule, done, rest, hsplit, hp, htr⟩ := hres.trace
  obtain ⟨μ, h1, h2, h3⟩ := htr (fun _ => ⟨""⟩)
  rw [hbody] at h3
  cases h3
  rw [List.append_nil] at hsplit
  have hadm := Literal.admits_atom a (1 : W) (fun _ => ⟨""⟩)
  refine ⟨by rw [ha]; exact a.literal_isSemiGrounded 1, ?_, ?_, ⟨a, ha, ?_, rule, hrule, μ, ?_, hsplit ▸ h2⟩,
    hπ⟩
  · rintro rfl
    rw [← hsplit] at h2
    cases hb : rule.body with
    | nil => exact (hkb.rule rule hrule).nonempty hb
    | cons b bs => rw [hb] at h2; cases h2
  · refine ⟨hres.head.predicate, hres.head.wellFormed, fun t ht => ?_⟩
    have := List.all_eq_true.1 hground t ht
    cases t with
    | const c => exact hres.head.terms _ ht
    | var v => cases this
  · exact hres.cover (fun _ => ⟨""⟩) a (by rw [ha]; exact hadm)
  · rw [← ha] at hadm
    exact ⟨hp ▸ hadm.1, h1 ▸ hadm.2⟩

omit [Weight W] [LawfulWeight W] in
/-- What is asked for depends on literals, facts and waiters alone. -/
theorem Still.owes {r' : Run W} (h : r.Still r') {duty : Duty W} (hd : r'.Owes q duty) : r.Owes q duty := by
  rcases hd.back (fun k b' hk => (h.goal k b' hk).imp (fun _ hb => ⟨hb.1, hb.2.1⟩)) with h' | ⟨w, f, rfl⟩
  · exact h'
  · obtain ⟨k, b', hk, hw, hf⟩ := hd
    obtain ⟨b, hb, -, e2, e3, -⟩ := h.goal k b' hk
    exact ⟨k, b, hb, e3 ▸ hw, e2 ▸ hf⟩

omit [LawfulWeight W] in
theorem Still.staked {r' : Run W} {t : Task W} {ts : List (Task W)} (h : r.Still r') (hg : r.Grows r')
    (hs : ∀ k b, r.table.goal? k = some b → b.literal.isNegated = true → (ts.map (Task.stake k)).sum ≤ t.stake k) :
    r.Staked t ts r' := by
  refine .frame h.negations (fun k b hk hb => ?_) (fun k b' hk hk' _ => ?_)
  · obtain ⟨b', hk', -⟩ := hg.goal k b hk
    obtain ⟨b₀, hb₀, e1, e2, -, e4⟩ := h.goal k b' hk'
    rw [goal_eq hb₀ hk] at e1 e2 e4
    exact ⟨b', hk', e1, e2, e4, hs k b hk hb⟩
  · obtain ⟨b, hb, -⟩ := h.goal k b' hk'
    rw [hk] at hb
    cases hb

theorem step_resolve (hq : q.Regular V) (hv : r.Valid V q.kb) {i : Nat} {d : Derivation W} {f : Clause W}
    (ht : (Task.resolve i d f).Valid q V r []) :
    ∃ ts r', r.step q (.resolve i d f) = (.ok ts, r') ∧ r.Steps q V (.resolve i d f) ts r' := by
  obtain ⟨j, b, hj, hw, hf⟩ := ht
  obtain ⟨hd, first, rest, hbody, hvar⟩ := (hv.goal j b hj).waiter _ hw
  obtain ⟨g, hi, hn, hready, π, hπ, hres⟩ := hd
  have hg := hv.goal i g hi
  cases hc : d.rule.resolve f.head with
  | none =>
    have hstep : r.step q (.resolve i d f) = (.ok [], r) := by simp only [step, resolve, hc]
    refine ⟨_, _, hstep, .quiet hv rfl (Nat.le_refl _) trivial (fun duty hduty => .inl ?_) (fun _ _ => by simp)
      (fun k b hk _ => by simp)⟩
    cases hduty with
    | resolve => exact .inl hc
  | some c =>
    obtain ⟨hfres, -⟩ := hv.resolved hj hf
    obtain ⟨node, trie, hupd, hsound, hkeep, hlt, hpath⟩ := Trie.update_spec hg.trie (hg.trie.lt_of_path hπ) hfres
    obtain ⟨p, hid, hp⟩ := hpath π hπ
    have hall : ∀ l ∈ π ++ [p], r.table.Resolved V l := hsound.of_mem_path hp
    have hres' : Residual V q.kb g.literal r.pool.issued (π ++ [p]) c :=
      residual_meets hv hres hbody hj hvar hf hc (hall p (by simp)) hid
    obtain ⟨hgrow₁, hval₁⟩ := hv.setTrie (fun _ => trie) hi hsound hkeep
    have hi₁ : (r.modify i (fun g => { g with trie := trie })).table.goal? i = some { g with trie := trie } :=
      goal?_modify_self hi
    have hstill₁ : r.Still (r.modify i (fun g => { g with trie := trie })) := still_modify hi rfl rfl rfl rfl
    have hd₁ : r.step q (.resolve i d f) = if c.body.isEmpty then
        completeRule i node c.head (r.modify i (fun g => { g with trie := trie }))
        else (.ok [.advance i ⟨c, node⟩], r.modify i (fun g => { g with trie := trie })) := by
      simp only [step, resolve, hc, hi, hupd]
    by_cases hempty : c.body = []
    · obtain ⟨hsg, hne, hinst⟩ := residual_completed (r := r) hq.kb hres' hempty hall
      have hcomp := Trie.complete_of_path hsound hp hne c.head
      have hinst₁ := hinst.mono hgrow₁ (show { g with trie := trie }.literal = g.literal from rfl)
      obtain ⟨hgrow₂, hval₂⟩ := hval₁.record hi₁ hinst₁
      obtain ⟨grounded, keys, hrec, hsub, -, ⟨x, hx, hxk⟩, -⟩ :=
        Subgoal.record_spec (⟨c.head, π ++ [p]⟩ : Clause W) (hval₁.goal i _ hi₁).recorded
      have hstill₂ := hstill₁.trans (still_modify (f := fun _ => (Subgoal.record { g with trie := trie } ⟨c.head, π ++ [p]⟩).2)
        hi₁ (by rw [hrec]) (by rw [hrec]; rfl) (by rw [hrec]) (by rw [hrec]))
      -- the counters aside, the run is the one with the new path and the new rule
      obtain ⟨r', hstep, htable, hpool⟩ : ∃ r', r.step q (.resolve i d f) = (.ok [.accept i (.fact c.head) .derived], r') ∧
          r'.table = ((r.modify i (fun g => { g with trie := trie })).modify i
            (fun _ => (Subgoal.record { g with trie := trie } ⟨c.head, π ++ [p]⟩).2)).table ∧ r'.pool = r.pool := by
        rw [hd₁, if_pos (by rw [hempty]; rfl)]
        simp only [completeRule, hsg, Bool.not_true, Bool.false_eq_true, if_false, hi₁, hcomp]
        refine ⟨_, rfl, ?_, ?_⟩
        · split <;> rfl
        · split <;> rfl
      have hgrow₃ := grows_of_table_eq htable (Nat.le_of_eq (congrArg VarPool.issued hpool).symm)
      have hval₃ := hval₂.of_table_eq htable (Nat.le_of_eq (congrArg VarPool.issued hpool).symm)
      have hgrow := (hgrow₁.trans hgrow₂).trans hgrow₃
      have hstill : r.Still r' := ⟨by rw [htable]; exact hstill₂.negations, by rw [htable]; exact hstill₂.goal⟩
      have hi₂ : r'.table.goal? i = some { g with trie := trie, grounded := grounded, groundedKeys := keys } := by
        rw [htable, goal?_modify_self (f := fun _ => (Subgoal.record { g with trie := trie } ⟨c.head, π ++ [p]⟩).2) hi₁, hrec]
      have hready' : ({ g with trie := trie, grounded := grounded, groundedKeys := keys } : Subgoal W).Ready q.kb := hready
      have hinst₃ : r'.table.Instantiates V q.kb { g with trie := trie, grounded := grounded, groundedKeys := keys }
          ⟨c.head, π ++ [p]⟩ := hinst.mono hgrow rfl
      have hxhead : x.head = c.head := (((hval₃.goal i _ hi₂).grounded x hx).eq_of_key hinst₃ hxk).1
      obtain ⟨a, ha, hcov, -⟩ := hinst.trace
      have hcomps : r'.Completes ⟨i, d⟩ f c.head := by
        have hcc : c = ⟨c.head, []⟩ := by
          cases c
          simp only at hempty
          rw [hempty]
        exact ⟨hc.trans (congrArg some hcc), _, π, p, node, hi₂, hkeep.path hπ, hid, hp, x, hx, hxk⟩
      refine ⟨_, _, hstep, hgrow, hval₃, ⟨⟨_, hi₂, ⟨rfl, hinst.literal, fun _ => ⟨a, 1, ha, V.certain, hcov,
        .inr ⟨rfl, x, hx, hxhead⟩⟩, fun h => ?_⟩, (fun ho => by cases ho), fun _ => ⟨hn, hready', x, hx, hxhead⟩⟩, trivial⟩,
        fun duty hduty => .inr ?_, fun duty hduty => .inl (hstill.owes hduty), (fun _ _ e => by cases e),
        hstill.staked hgrow (fun k b hk hb => ?_)⟩
      · rw [show _ = false from hn] at h
        cases h
      · cases hduty with
        | resolve => exact ⟨_, List.mem_cons_self, .acceptHead (w := ⟨i, d⟩) hcomps⟩
      · have hik : i ≠ k := by
          rintro rfl
          rw [goal_eq hk hi, hn] at hb
          cases hb
        simp [Task.stake, hik]
    · have hstep : r.step q (.resolve i d f) =
          (.ok [.advance i ⟨c, node⟩], r.modify i (fun g => { g with trie := trie })) := by
        rw [hd₁, if_neg (by simpa using hempty)]
      refine ⟨_, _, hstep, hgrow₁, hval₁, ⟨⟨⟨_, hi₁, hn, hready, π ++ [p], hp, hres'⟩, hempty⟩, trivial⟩,
        fun duty hduty => .inr ?_, fun duty hduty => .inl (hstill₁.owes hduty), (fun _ _ e => by cases e),
        hstill₁.staked hgrow₁ (fun k b hk _ => by simp [Task.stake])⟩
      cases hduty with
      | resolve =>
        exact ⟨_, List.mem_cons_self, .advanceMeet (w := ⟨i, d⟩) ⟨hc, hempty, _, π, p, hi₁, hkeep.path hπ, hid, hp⟩⟩

end Run
end Credence
