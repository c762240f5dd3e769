import Credence.Proofs.Backing
/-!
# Runs that meet the standard of their program

Each step of a run keeps what the table has to be like, and leaves the agenda with tasks that are in order
(`Run.step_upholds`); so does a whole run, which only its standard's refusals can stop (`Run.execute_upholds`,
`Solver.execute_upholds`).
-/
namespace Credence

variable {W : Type} [Weight W] {q : Query W} {S : Standard}

/-! ## What a step upholds -/

namespace Run

/-- The run after a step and the tasks that follow, or what stopped it. -/
inductive Upholds (q : Query W) (S : Standard) : Stepped W → Prop
  | on {ts : List (Task W)} {r : Run W} : r.Backed q S → (∀ t ∈ ts, t.Backed q S r) → Upholds q S (.ok ts, r)
  | refused {e : Error} {r : Run W} : S.Refuses e → Upholds q S (.error e, r)

variable {r : Run W} {i : Nat} {g : Subgoal W}

/-- A step may leave nothing to do. -/
theorem Upholds.rest (h : r.Backed q S) : Upholds q S (.ok [], r) :=
  .on h (List.forall_mem_nil _)

theorem upholds_searchNegation (hq : q.Meets S) (h : r.Backed q S) (hi : r.table.goal? i = some g)
    (hn : g.literal.isNegated = true) : Upholds q S (r.searchNegation q i g.literal) := by
  have hg := h i g hi
  have hclosed := (hg.closed hn).1
  simp only [searchNegation, hclosed, Bool.not_true, Bool.false_eq_true, if_false]
  split
  · rename_i e he
    refine .refused ?_
    unfold Literal.negate at he
    cases hp : g.literal.predicate.negate with
    | error e' =>
      rw [hp] at he
      injection he with he
      exact .negate hg.literal.name hn (he ▸ hp)
    | ok p =>
      rw [hp] at he
      cases he
  · rename_i base hbase
    obtain ⟨hb1, hb2, hb3⟩ := hq.allows_negate hg.literal hn hbase
    have hr := (develops_goalFor q base r).extends
    have hdecide : ∀ j, (Task.decideNegation i j base).Backed q S (r.goalFor q base).2.2 := fun j =>
      Task.Backed.mono (t := .decideNegation i j base) ⟨g, hi, hn⟩ hr
    have hback := h.goalFor hb1 (fun hbn => ⟨by rw [Literal.isSemiGrounded, hb2]; exact hclosed, hb3 hbn⟩)
    refine .on hback (fun t ht => ?_)
    rcases goalFor_cases q base r with ⟨j, -, e⟩ | ⟨hk, e⟩
    · rw [e] at ht hdecide ⊢
      obtain rfl := List.mem_singleton.1 ht
      exact hdecide j
    · rw [e] at ht hdecide ⊢
      rcases List.mem_cons.1 ht with rfl | ht
      · exact ⟨_, addGoal_new hk⟩
      · obtain rfl := List.mem_singleton.1 ht
        exact hdecide _

theorem upholds_search (hq : q.Meets S) (h : r.Backed q S) (ht : (Task.search i).Backed q S r) :
    Upholds q S (r.step q (.search i)) := by
  obtain ⟨g, hi⟩ := ht
  have hg := h i g hi
  simp only [step, search, hi]
  split
  · rename_i hn
    exact upholds_searchNegation hq h hi hn
  · split
    · obtain ⟨hanswers, htable⟩ := runPrimitive_spec q g.literal r
      refine .on (h.of_goals_eq (by rw [htable])) (fun t ht => ?_)
      rw [hanswers] at ht
      obtain ⟨a, ha, rfl⟩ := List.mem_map.1 ht
      exact ⟨rfl, hq.admits_answer hg.literal ha, fun _ ho => by cases ho⟩
    · refine .on h (List.forall_mem_singleton.2 ⟨⟨g, hi⟩, fun c hc => ?_⟩)
      exact (q.kb.facts.get_sublist g.literal.predicate).mem (List.mem_of_mem_filter hc)

theorem upholds_tryFacts (hq : q.Meets S) (h : r.Backed q S) {left : List (Clause W)} {matched : Bool}
    (ht : (Task.tryFacts i left matched).Backed q S r) : Upholds q S (r.step q (.tryFacts i left matched)) := by
  obtain ⟨⟨g, hi⟩, hleft⟩ := ht
  cases left with
  | nil =>
    simp only [step, tryFacts, hi]
    refine .on h (List.forall_mem_singleton.2 ⟨⟨g, hi⟩, fun c hc => ?_⟩)
    exact (q.kb.rules.get_sublist _).mem (List.mem_of_mem_filter hc)
  | cons fact left =>
    obtain ⟨hfact, hleft⟩ := List.forall_mem_cons.1 hleft
    obtain ⟨hbody, hadmits⟩ := hq.admits_fact hfact
    simp only [step, tryFacts, hi]
    split
    · exact .rest h
    · split
      · refine .on h (List.forall_mem_cons.2 ⟨⟨hbody, hadmits, fun _ ho => by cases ho⟩, ?_⟩)
        exact List.forall_mem_singleton.2 ⟨⟨g, hi⟩, hleft⟩
      · exact .on h (List.forall_mem_singleton.2 ⟨⟨g, hi⟩, hleft⟩)

/-- The rule of a goal, renamed and unified with it. -/
theorem Pursues.start (hq : q.Meets S) (h : r.Backed q S) (hi : r.table.goal? i = some g) {c : Clause W}
    (hc : c ∈ q.kb.rules.clauses) {pool : VarPool} {s : Subst} (hs : (c.rename pool).1.head.unify g.literal = some s) :
    r.Pursues S i (.start ((c.rename pool).1.subst s)) := by
  obtain ⟨f, -, hhead, hbody⟩ := c.rename_spec pool
  obtain ⟨hne, hchead, hconcl, hcbody, htimely⟩ := hq.rule c hc
  have hg := (h i g hi).literal
  have hhead' := hchead.copy hhead
  have hpred : ((c.rename pool).1.head.subst s).predicate = c.head.predicate :=
    (Literal.subst_predicate _ _).trans hhead.predicate
  refine ⟨⟨g, [], hi, .root⟩, ⟨hhead'.subst hs hhead'.constant hg.constant, ?_⟩, ⟨fun e => hne ?_, fun l hl => ?_⟩, fun hS => ?_⟩
  · show S.head ((c.rename pool).1.head.subst s).predicate
    rw [hpred]
    exact hconcl
  · have hlen := hbody.length_eq
    rw [List.map_eq_nil_iff.1 e] at hlen
    exact List.length_eq_zero_iff.1 hlen
  · obtain ⟨m, hm, rfl⟩ := List.mem_map.1 hl
    obtain ⟨n, hn, hcopy⟩ := forall₂_exists_left hbody hm
    exact ((hcbody n hn).copy hcopy).subst hs hhead'.constant hg.constant
  · exact ((htimely hS).rename pool).subst (Literal.unify_eq_some hs).2.1

theorem upholds_tryRules (hq : q.Meets S) (h : r.Backed q S) {left : List (Clause W)} {matched : Bool}
    (ht : (Task.tryRules i left matched).Backed q S r) : Upholds q S (r.step q (.tryRules i left matched)) := by
  obtain ⟨⟨g, hi⟩, hleft⟩ := ht
  cases left with
  | nil =>
    simp only [step, tryRules, hi]
    refine .rest ?_
    split
    · exact h
    · exact h.markUnprovable i
  | cons rule left =>
    obtain ⟨hrule, hleft⟩ := List.forall_mem_cons.1 hleft
    simp only [step, tryRules, hi]
    split
    · exact .rest h
    · have h' : ({ r with pool := (rule.rename r.pool).2 } : Run W).Backed q S := h.of_goals_eq rfl
      split
      · rename_i s hunify
        refine .on h' (List.forall_mem_cons.2 ⟨?_, List.forall_mem_singleton.2 ⟨⟨g, hi⟩, hleft⟩⟩)
        exact Pursues.start hq h' hi hrule hunify
      · exact .on h' (List.forall_mem_singleton.2 ⟨⟨g, hi⟩, hleft⟩)

theorem upholds_decideNegation (h : r.Backed q S) {j : Nat} {base : Literal W}
    (ht : (Task.decideNegation i j base).Backed q S r) : Upholds q S (r.step q (.decideNegation i j base)) := by
  obtain ⟨g, hi, hn⟩ := ht
  have hg := h i g hi
  obtain ⟨hclosed, hprim⟩ := hg.closed hn
  have hadmits : S.Admits g.literal := hg.literal.admits hclosed (fun _ hb => by
    rcases hb with hb | hb
    · rw [hn] at hb
      cases hb
    · rw [hprim] at hb
      cases hb)
  simp only [step, decideNegation]
  split
  · rename_i g' b hi' hj
    cases goal_eq hi hi'
    split
    · exact .on h (List.forall_mem_singleton.2 ⟨rfl, hadmits, fun _ ho => by cases ho⟩)
    · split
      · exact .rest (h.markUnprovable i)
      · refine .on (h.of_goals_eq rfl) (List.forall_mem_singleton.2 ⟨rfl, hadmits.congr rfl rfl, fun _ ho => by cases ho⟩)
  · exact .rest h

/-- A goal may accept a fact that rests on something, its last one or not. -/
theorem Backed.addFact (h : r.Backed q S) (hi : r.table.goal? i = some g) (hcap : g.capped = false) {f : Clause W}
    {origin : Origin} (ht : (Task.accept i f origin).Backed q S r) {fast : Bool} {g' : Subgoal W}
    (hadd : g.addFact f origin = some (fast, g')) (full : Bool) :
    (r.modify i (fun _ => if full then { g' with capped := true } else g')).Backed q S := by
  obtain ⟨hbody, hadmits, hrests⟩ := ht
  have hext := Subgoal.extends_addFact hadd hcap full
  have hfacts := facts_accept hadd full
  have hkeyed := Subgoal.addFact_keyed (h i g hi).keyed hadd
  obtain ⟨hlit, hwaiters, htrie⟩ := Subgoal.addFact_rest hadd
  have hstore := (Subgoal.addFact_store hadd).2
  have hsame : ∀ g'' : Subgoal W, (if full then { g' with capped := true } else g') = g'' →
      g''.literal = g.literal ∧ g''.store = g'.store ∧ g''.waiters = g.waiters ∧ g''.trie = g.trie ∧
      g''.grounded = g.grounded ∧ g''.groundedKeys = g.groundedKeys ∧ g''.asserted = g'.asserted := by
    rintro g'' rfl
    split <;> exact ⟨hlit, rfl, hwaiters, htrie, by rw [hstore], by rw [hstore], rfl⟩
  generalize hg'' : (if full = true then { g' with capped := true } else g') = g'' at hext hfacts ⊢
  obtain ⟨e1, e2, e3, e4, e5, e6, e7⟩ := hsame g'' hg''
  have hr : r.Extends (r.modify i (fun _ => g'')) := extends_modify (fun b hb => by rw [goal_eq hb hi]; exact hext)
  have hasserts : ∀ id, g''.asserted.contains id = true ↔
      g.asserted.contains id = true ∨ origin = .asserted ∧ f.head.id = id := by
    intro id
    rw [e7, hstore]
    dsimp only
    split
    · rename_i ho
      simp [Std.HashSet.contains_insert, ho, or_comm]
    · rename_i ho
      simp [ho]
  refine h.modify (fun b hb => by rw [goal_eq hb hi]; exact hext) (fun b hb hnew => ?_)
  cases goal_eq hb hi
  refine ⟨e1 ▸ hnew.literal, by rw [e1]; exact hnew.closed, e2 ▸ hkeyed, fun c hc => ?_, fun id hid => ?_,
    e4 ▸ hnew.trie, by rw [e5]; exact hnew.grounded, by rw [e5, e6]; exact hnew.recorded, by rw [e3]; exact hnew.waiter⟩
  · rw [hfacts, List.mem_append, List.mem_singleton] at hc
    rcases hc with hc | rfl
    · exact hnew.fact c hc
    · refine ⟨hbody, hadmits, fun hS => ?_⟩
      cases ho : origin with
      | derived => exact (hrests hS ho).mono hr
      | asserted =>
        exact .leaf (.inl ⟨i, g'', goal?_modify_self (f := fun _ => g'') hi, (hasserts _).2 (.inr ⟨ho, rfl⟩)⟩)
  · rw [hfacts]
    rcases (hasserts id).1 hid with hid | ⟨-, rfl⟩
    · obtain ⟨c, hc, e⟩ := hnew.asserted id hid
      exact ⟨c, List.mem_append_left _ hc, e⟩
    · exact ⟨f, by simp, rfl⟩

theorem upholds_accept (h : r.Backed q S) {f : Clause W} {origin : Origin}
    (ht : (Task.accept i f origin).Backed q S r) : Upholds q S (r.step q (.accept i f origin)) := by
  simp only [step, accept]
  split
  · exact .rest h
  · rename_i g hi
    split
    · exact .rest h
    · rename_i hcap
      split
      · exact .rest h
      · rename_i fast g' hadd
        have hcap : g.capped = false := by simpa using hcap
        generalize (i == 0 && q.maxSamples.any (fun n => n ≤ g'.factCount)) = full
        have hext := Subgoal.extends_addFact hadd hcap full
        have hr := extends_modify (r := r) (i := i) (f := fun _ => if full = true then { g' with capped := true } else g')
          (fun b hb => by rw [goal_eq hb hi]; exact hext)
        have hfact : f ∈ (if full = true then { g' with capped := true } else g').facts := by
          rw [facts_accept hadd full]
          simp
        refine .on ((h.addFact hi hcap ht hadd full).of_goals_eq rfl)
          (List.forall_mem_singleton.2 ⟨fun w hw => ?_, ht.2.1, .inl ⟨f, ⟨i, _, goal?_modify_self hi, hfact⟩, rfl⟩⟩)
        refine ((h i g hi).waiter w ?_).mono (fun j b hj => hr j b hj)
        rw [← (Subgoal.addFact_rest hadd).2.1]
        exact Array.mem_toList_iff.1 hw

theorem upholds_notify (h : r.Backed q S) {ws : List (Waiter W)} {f : Clause W} (ht : (Task.notify ws f).Backed q S r) :
    Upholds q S (r.step q (.notify ws f)) := by
  obtain ⟨hws, hf⟩ := ht
  cases ws with
  | nil => exact .rest h
  | cons w ws =>
    obtain ⟨hw, hws⟩ := List.forall_mem_cons.1 hws
    refine .on h ?_
    split
    · exact List.forall_mem_nil _
    · exact List.forall_mem_cons.2 ⟨⟨hw, hf⟩, List.forall_mem_singleton.2 ⟨hws, hf⟩⟩

theorem upholds_feed (h : r.Backed q S) {d : Derivation W} {left : List (Clause W)}
    (ht : (Task.feed i d left).Backed q S r) : Upholds q S (r.step q (.feed i d left)) := by
  obtain ⟨hd, hleft⟩ := ht
  cases left with
  | nil => exact .rest h
  | cons f left =>
    obtain ⟨hf, hleft⟩ := List.forall_mem_cons.1 hleft
    refine .on h ?_
    split
    · exact List.forall_mem_nil _
    · exact List.forall_mem_cons.2 ⟨⟨hd, hf⟩, List.forall_mem_singleton.2 ⟨hd, hleft⟩⟩

theorem upholds_awaitGoal (h : r.Backed q S) {d : Derivation W} (hd : r.Pursues S i d) {first : Literal W}
    (hfirst : S.Allows first)
    (hn : first.isNegated = true → first.isSemiGrounded = true ∧ first.isPrimitive = false) :
    Upholds q S (r.awaitGoal q i d first) := by
  have h₁ := h.goalFor hfirst hn
  have hd₁ := hd.mono (develops_goalFor q first r).extends
  have hnew : (r.goalFor q first).2.1 = true → ∃ c, (r.goalFor q first).2.2.table.goal? (r.goalFor q first).1 = some c := by
    intro hnew
    rcases goalFor_cases q first r with ⟨j, -, e⟩ | ⟨hk, e⟩
    · rw [e] at hnew
      cases hnew
    · rw [e]
      exact ⟨_, addGoal_new hk⟩
  unfold awaitGoal
  generalize r.goalFor q first = out at h₁ hd₁ hnew
  obtain ⟨child, created, r₁⟩ := out
  dsimp only at h₁ hd₁ hnew ⊢
  split
  · rename_i c g hc hi
    split
    · exact .rest h₁
    · obtain ⟨b, π, hb, hπ⟩ := hd₁.node
      cases goal_eq hi hb
      have hsound := (h₁ i g hi).trie
      obtain ⟨trie, htrie, hs', hkeeps⟩ := Trie.wait_spec hsound (hsound.lt_of_path hπ) first
      rw [htrie]
      dsimp only
      have hset : ∀ b, r₁.table.goal? i = some b → trie.Sound (r₁.Vouches q S) ∧ b.trie.Keeps trie := by
        intro b hb
        cases goal_eq hi hb
        exact ⟨hs', hkeeps⟩
      have h₂ := h₁.setTrie (i := i) (t := fun _ => trie) hset
      have hr₂ : r₁.Extends (r₁.modify i (fun g => { g with trie := trie })) :=
        (develops_setTrie (t := fun _ => trie) (fun b hb => (hset b hb).2)).extends
      have hr₃ : (r₁.modify i (fun g => { g with trie := trie })).Extends
          ((r₁.modify i (fun g => { g with trie := trie })).modify child (fun c => c.wait ⟨i, d⟩)) :=
        (develops_modify (f := fun c => c.wait ⟨i, d⟩) (fun b _ =>
          ⟨rfl, rfl, rfl, fun _ h => h, fun _ h => h, .refl _⟩)).extends
      have hlast := hr₂.trans hr₃
      refine .on (h₂.wait (w := ⟨i, d⟩) (hd₁.mono hr₂)) ?_
      split
      · obtain ⟨c', hc', -⟩ := hlast child c hc
        exact List.forall_mem_singleton.2 ⟨c', hc'⟩
      · refine List.forall_mem_singleton.2 ⟨hd₁.mono hlast, fun f hf => ?_⟩
        exact Vouches.mono ⟨((h₁ child c hc).fact f hf).2.1, .inl ⟨f, ⟨child, c, hc, hf⟩, rfl⟩⟩ hlast
  · exact .rest h₁

theorem upholds_advance (hq : q.Meets S) (h : r.Backed q S) {d : Derivation W} (ht : (Task.advance i d).Backed q S r) :
    Upholds q S (r.step q (.advance i d)) := by
  have hd : r.Pursues S i d := ht
  cases hbody : d.rule.body with
  | nil => exact absurd hbody hd.body.1
  | cons first rest =>
    have hfirst := hd.body.2 first (by rw [hbody]; exact List.mem_cons_self)
    simp only [step, advance, hbody]
    split
    · obtain ⟨hanswers, htable⟩ := runPrimitive_spec q first r
      have hgoals : (r.runPrimitive q first).2.table.goals = r.table.goals := by rw [htable]
      refine .on (h.of_goals_eq hgoals) (fun t ht => ?_)
      rw [hanswers] at ht
      obtain ⟨a, ha, rfl⟩ := List.mem_map.1 ht
      exact ⟨hd.mono (develops_of_goals_eq hgoals).extends, hq.admits_answer hfirst ha, .inr ⟨first, a, ha, rfl⟩⟩
    · rename_i hprim
      have hunbound : first.isNegated = true → ¬ first.Binds := by
        rintro hn (hb | hb)
        · rw [hn] at hb
          cases hb
        · exact hprim hb
      split
      · rename_i hopen
        rw [Bool.and_eq_true, Bool.not_eq_true'] at hopen
        refine .refused (.openNegation (fun hS => ?_))
        rw [(hd.timely hS).first_semiGrounded hbody (hunbound hopen.1)] at hopen
        cases hopen.2
      · rename_i hopen
        exact upholds_awaitGoal h hd hfirst (fun hn => ⟨by simpa [hn] using hopen, by simpa using hprim⟩)

omit [Weight W] in
/-- What is left of a rule once its first literal has met what the run stands up for. -/
theorem Pursues.resolve {d : Derivation W} (h : r.Pursues S i d) (hfit : S.ground → S.fitted) {m : Literal W}
    (hm : S.Admits m) {rest : Clause W} (hs : d.rule.resolve m = some rest) : (S.Allows rest.head ∧ S.head rest.head.predicate) ∧
      (∀ l ∈ rest.body, S.Allows l) ∧ (S.ground → rest.Timely) := by
  have htimely : S.ground → rest.Timely := fun hS => (h.timely hS).resolve hs (fun first hfirst hb hp => by
    have hmem := h.body.2 first (List.mem_of_mem_head? hfirst)
    refine ⟨?_, hm.ground hS (hb.congr hp.symm)⟩
    rw [Literal.isWellFormed_iff.1 (hmem.wellFormed (hfit hS)), hp]
    exact hm.arity (hfit hS))
  unfold Clause.resolve at hs
  split at hs
  · cases hs
  · rename_i first tail hbody
    obtain ⟨s, hunify, rfl⟩ := Option.map_eq_some_iff.1 hs
    have hfirst := h.body.2 first (by rw [hbody]; exact List.mem_cons_self)
    refine ⟨⟨h.head.1.subst hunify hfirst.constant hm.constant, ?_⟩, fun l hl => ?_, htimely⟩
    · show S.head (d.rule.head.subst s).predicate
      rw [Literal.subst_predicate]
      exact h.head.2
    · obtain ⟨m', hm', rfl⟩ := List.mem_map.1 hl
      exact (h.body.2 m' (by rw [hbody]; exact List.mem_cons_of_mem _ hm')).subst hunify hfirst.constant hm.constant

/-- A completed rule in the books of its goal. -/
theorem Backed.record (hq : q.Meets S) (h : r.Backed q S) (hi : r.table.goal? i = some g) {c : Clause W}
    (hhead : S.head c.head.predicate) (hadmits : S.Admits c.head) (hbody : ∀ l ∈ c.body, r.Vouches q S l) :
    (r.modify i (fun _ => (g.record c).2)).Backed q S ∧
      (S.legible → (r.modify i (fun _ => (g.record c).2)).Rests q c.head.id) := by
  have hext : g.Extends (g.record c).2 := (g.develops_record c).extends
  have hr : r.Extends (r.modify i (fun _ => (g.record c).2)) :=
    extends_modify (fun b hb => by rw [goal_eq hb hi]; exact hext)
  have hi' := goal?_modify_self (f := fun _ => (g.record c).2) hi
  have hg := h i g hi
  -- a rule is recorded under its key, this one or an earlier one
  have hrec : (g.record c).2.literal = g.literal ∧ (g.record c).2.store = g.store ∧ (g.record c).2.asserted = g.asserted ∧
      (g.record c).2.waiters = g.waiters ∧ (g.record c).2.trie = g.trie ∧
      (∀ d ∈ (g.record c).2.grounded, d ∈ g.grounded ∨ d = c) ∧
      (∀ k, (g.record c).2.groundedKeys.contains k = true → ∃ d ∈ (g.record c).2.grounded, d.key = k) ∧
      ∃ d ∈ (g.record c).2.grounded, d.key = c.key := by
    unfold Subgoal.record
    dsimp only
    split
    · rename_i hknown
      exact ⟨rfl, rfl, rfl, rfl, rfl, fun d hd => .inl hd, hg.recorded, hg.recorded _ hknown⟩
    · refine ⟨rfl, rfl, rfl, rfl, rfl, fun d hd => Array.mem_push.1 hd, fun k hk => ?_, c, Array.mem_push_self, rfl⟩
      rw [Std.HashSet.contains_insert, Bool.or_eq_true, beq_iff_eq] at hk
      rcases hk with rfl | hk
      · exact ⟨c, Array.mem_push_self, rfl⟩
      · obtain ⟨d, hd, e⟩ := hg.recorded k hk
        exact ⟨d, Array.mem_push_of_mem c hd, e⟩
  obtain ⟨e1, e2, e3, e4, e5, hmem, hkeys, d, hd, hkey⟩ := hrec
  have hback : (r.modify i (fun _ => (g.record c).2)).Backed q S := by
    refine h.modify (fun b hb => by rw [goal_eq hb hi]; exact hext) (fun b hb hnew => ?_)
    cases goal_eq hb hi
    have hf : (g.record c).2.facts = g.facts := congrArg Store.toList e2
    refine ⟨e1 ▸ hnew.literal, by rw [e1]; exact hnew.closed, e2 ▸ hnew.keyed, by rw [hf]; exact hnew.fact,
      by rw [e3, hf]; exact hnew.asserted, e5 ▸ hnew.trie, fun d hd => ?_, hkeys, by rw [e4]; exact hnew.waiter⟩
    rcases hmem d hd with hd | rfl
    · exact hnew.grounded d hd
    · exact ⟨hhead, hadmits, fun l hl => (hbody l hl).mono hr⟩
  refine ⟨hback, fun hS => ?_⟩
  obtain ⟨-, hdh, hdb⟩ := (hback i _ hi').grounded d hd
  rw [← hq.legible hS d c ⟨hdh, fun l hl => (hdb l hl).admits⟩ ⟨hadmits, fun l hl => (hbody l hl).admits⟩ hkey]
  exact .rule ⟨i, _, hi', hd⟩ (fun l hl => Vouches.rests hback (hdb l hl) hS)

theorem upholds_completeRule (hq : q.Meets S) (h : r.Backed q S) {node : Nat} {π : List (Literal W)}
    (hi : r.table.goal? i = some g) (hπ : g.trie.Path node π) (hne : π ≠ []) {head : Literal W} (hhead : S.Allows head)
    (hconcl : S.head head.predicate) (hground : S.ground → ∀ t ∈ head.terms, t.isWildcard = false) :
    Upholds q S (r.completeRule i node head) := by
  unfold completeRule
  split
  · exact .rest h
  · rename_i hclosed
    rw [Bool.not_eq_true', Bool.not_eq_false] at hclosed
    have hsound := (h i g hi).trie
    have hadmits : S.Admits head := hhead.admits hclosed (fun hS _ => List.all_eq_true.2 (fun t ht => by
      have := List.all_eq_true.1 hclosed t ht
      rwa [hground hS t ht, Bool.or_false] at this))
    obtain ⟨hback, hrests⟩ := h.record hq hi (c := ⟨head, π⟩) hconcl hadmits (hsound.of_mem_path hπ)
    simp only [hi, Trie.complete_of_path hsound hπ hne head]
    split
    · exact .on (hback.of_goals_eq rfl) (List.forall_mem_singleton.2 ⟨rfl, hadmits, fun hS _ => hrests hS⟩)
    · exact .on hback (List.forall_mem_singleton.2 ⟨rfl, hadmits, fun hS _ => hrests hS⟩)

theorem upholds_resolve (hq : q.Meets S) (h : r.Backed q S) {d : Derivation W} {f : Clause W}
    (ht : (Task.resolve i d f).Backed q S r) : Upholds q S (r.step q (.resolve i d f)) := by
  obtain ⟨hd, hf⟩ := ht
  simp only [step, resolve]
  split
  · rename_i rest g hrest hi
    obtain ⟨⟨hhead, hconcl⟩, hbody, htimely⟩ := hd.resolve hq.fitted hf.admits hrest
    obtain ⟨b, π, hb, hπ⟩ := hd.node
    cases goal_eq hi hb
    have hsound := (h i g hi).trie
    obtain ⟨node, trie, htrie, hs', hkeeps, -, hpath⟩ := Trie.update_spec hsound (hsound.lt_of_path hπ) hf
    obtain ⟨l', -, hpath⟩ := hpath π hπ
    have hset : ∀ b, r.table.goal? i = some b → trie.Sound (r.Vouches q S) ∧ b.trie.Keeps trie := by
      intro b hb
      cases goal_eq hi hb
      exact ⟨hs', hkeeps⟩
    have h' := h.setTrie (i := i) (t := fun _ => trie) hset
    have hi' := goal?_modify_self (f := fun g => { g with trie := trie }) hi
    rw [htrie]
    dsimp only
    split
    · exact upholds_completeRule hq h' hi' hpath (by simp) hhead hconcl (fun hS => (htimely hS).head)
    · rename_i hne
      refine .on h' (List.forall_mem_singleton.2 ⟨⟨_, _, hi', hpath⟩, ⟨hhead, hconcl⟩, ⟨fun e => hne ?_, hbody⟩, htimely⟩)
      show rest.body.isEmpty = true
      rw [show rest.body = [] from e]
      rfl
  · exact .rest h

/-- **A step meets the standard of the program.** -/
theorem step_upholds (hq : q.Meets S) (h : r.Backed q S) {t : Task W} (ht : t.Backed q S r) :
    Upholds q S (r.step q t) := by
  cases t with
  | search i => exact upholds_search hq h ht
  | tryFacts i left matched => exact upholds_tryFacts hq h ht
  | tryRules i left matched => exact upholds_tryRules hq h ht
  | decideNegation i j base => exact upholds_decideNegation h ht
  | accept i f origin => exact upholds_accept h ht
  | notify ws f => exact upholds_notify h ht
  | feed i d left => exact upholds_feed h ht
  | advance i d => exact upholds_advance hq h ht
  | resolve i d f => exact upholds_resolve hq h ht

/-- **So does a run**, as far as it gets. -/
theorem execute_upholds (hq : q.Meets S) : ∀ (steps : Nat) (agenda : List (Task W)) {r : Run W}, r.Backed q S →
    (∀ t ∈ agenda, t.Backed q S r) →
    ((execute q steps agenda r).1 = .ok () → (execute q steps agenda r).2.Backed q S) ∧
      ∀ e, (execute q steps agenda r).1 = .error (.refused e) → S.Refuses e
  | 0,         [],          r, h, _  => ⟨fun _ => h, fun _ he => by cases he⟩
  | _ + 1,     [],          r, h, _  => ⟨fun _ => h, fun _ he => by cases he⟩
  | 0,         _ :: _,      r, _, _  => ⟨(by cases ·), fun _ he => by cases he⟩
  | steps + 1, t :: agenda, r, h, ht => by
    obtain ⟨ht, hagenda⟩ := List.forall_mem_cons.1 ht
    have hup := step_upholds hq h ht
    have hext := step_extends (q := q) h.soundTries t
    rw [execute]
    generalize r.step q t = out at hup hext
    cases hup with
    | refused he => exact ⟨(by cases ·), fun e h => by injection h with h; injection h with h; exact h ▸ he⟩
    | on hback htasks =>
      refine execute_upholds hq steps _ hback (fun u hu => ?_)
      rcases List.mem_append.1 hu with hu | hu
      · exact htasks u hu
      · exact (hagenda u hu).mono hext

end Run

/-! ## Solvers -/

/-- **What a query ends with**, when the program and the query meet a standard. -/
theorem Solver.execute_upholds {s : Solver W} {l : Literal W} {maxSamples : Option Nat}
    (hq : (s.asking maxSamples).Meets S) (hl : S.Allows l)
    (hn : l.isNegated = true → l.isSemiGrounded = true ∧ l.isPrimitive = false) :
    ((Run.execute (s.asking maxSamples) s.patience [.search 0] (s.opening l)).1 = .ok () →
        (Run.execute (s.asking maxSamples) s.patience [.search 0] (s.opening l)).2.Backed (s.asking maxSamples) S) ∧
      ∀ e, (Run.execute (s.asking maxSamples) s.patience [.search 0] (s.opening l)).1 = .error (.refused e) →
        S.Refuses e := by
  obtain ⟨f, hf, hcopy⟩ := l.shuffle_spec s.run.pool
  have hstart : (Run.start (l.shuffle s.run.pool).2 : Run W).Backed (s.asking maxSamples) S := by
    intro i g hi
    rw [Run.start_goal?] at hi
    cases hi
  have hclosed : (s.asked l).isNegated = true → (s.asked l).isSemiGrounded = true ∧ (s.asked l).isPrimitive = false := by
    intro hneg
    have hp : (s.asked l).predicate = l.predicate := hcopy.predicate
    rw [Literal.isNegated, hp] at hneg
    obtain ⟨h1, h2⟩ := hn hneg
    refine ⟨Literal.isSemiGrounded_of_vars (fun v hv => ?_), by rw [Literal.isPrimitive, hp]; exact h2⟩
    obtain ⟨u, hu, -⟩ := (hcopy.varsOf_iff hf (fun _ h => h)).1 hv
    have := List.all_eq_true.1 h1 _ hu.2
    simp [Term.isConst, Term.isWildcard, hu.1] at this
  have hopening : (s.opening l).Backed (s.asking maxSamples) S :=
    hstart.goalFor (q := s.asking maxSamples) (hl.copy hcopy) hclosed
  refine Run.execute_upholds hq _ _ hopening (List.forall_mem_singleton.2 ?_)
  exact ⟨_, Run.addGoal_new (Run.start_index (W := W) (l.shuffle s.run.pool).2 (l.shuffle s.run.pool).1.variant)⟩

end Credence
