import Credence.Proofs.Growth
/-!
# Following a run by hand

Filters, tries and hash tables do not compute inside a proof, so a run on a fixed input is not evaluated but followed.
While the query is its only goal and there is no limit, all that decides the next step is the literal of that goal, its
facts, the derivations that wait for it, and the pool (`Run.Shows`).
-/
namespace Credence

variable {W : Type} [Weight W]

/-- A goal that takes facts, as far as its literal, facts and waiting derivations go. -/
structure Subgoal.Shows (g : Subgoal W) (l : Literal W) (fs : List (Clause W)) (ws : List (Waiter W)) : Prop where
  literal  : g.literal = l
  facts    : g.facts = fs
  waiters  : g.waiters.toList = ws
  uncapped : g.capped = false
  provable : g.unprovable = false
  store    : g.store.Sound
  trie     : g.trie.Sound (fun _ => True)

namespace Run

/-- A run whose only goal is the query's. -/
structure Shows (r : Run W) (pool : VarPool) (l : Literal W) (fs : List (Clause W)) (ws : List (Waiter W)) : Prop where
  pool  : r.pool = pool
  index : r.table.index[l.variant]? = some 0
  goal  : ∃ g, r.table.goal? 0 = some g ∧ g.Shows l fs ws

theorem runPrimitive_pool (q : Query W) (l : Literal W) (r : Run W) : (r.runPrimitive q l).2.pool = r.pool := by
  unfold runPrimitive
  split
  · rfl
  · dsimp only
    split <;> rfl

variable {q : Query W} {r r' : Run W} {pool : VarPool} {l : Literal W} {fs fs' : List (Clause W)} {ws ws' : List (Waiter W)}

theorem shows_opening (hcap : q.storeCapacity = none) (pool : VarPool) (l : Literal W) :
    ((start pool).addGoal q l).Shows pool l [] [] := by
  have hk := start_index (W := W) pool l.variant
  refine ⟨addGoal_pool hk, ?_, newGoal q l, addGoal_new hk, rfl, rfl, rfl, rfl, rfl, ⟨hcap, fun k => ?_, ?_⟩, Trie.sound_empty⟩
  · rw [addGoal_index hk, Std.HashMap.getElem?_insert_self]
    rfl
  · simp [newGoal, Subgoal.new, Store.empty, Store.toList]
  · simp [newGoal, Subgoal.new, Store.empty, Store.toList]

theorem execute_ok {t : Task W} {ts : List (Task W)} (h : r.step q t = (.ok ts, r')) (steps : Nat) (agenda : List (Task W)) :
    execute q (steps + 1) (t :: agenda) r = execute q steps (ts ++ agenda) r' := by rw [execute, h]

theorem execute_error {t : Task W} {e : Error} (h : r.step q t = (.error e, r')) (steps : Nat) (agenda : List (Task W)) :
    execute q (steps + 1) (t :: agenda) r = (.error (.refused e), r') := by rw [execute, h]

variable {d : Derivation W} {first : Literal W} {rest : List (Literal W)} {f c : Clause W}

/-- A mark that cannot be taken off stops a search. -/
theorem search_marked {i : Nat} {g : Subgoal W} (hi : r.table.goal? i = some g) (hn : g.literal.isNegated = true)
    (hs : g.literal.isSemiGrounded = true) {e : Error} (he : g.literal.negate = .error e) :
    r.step q (.search i) = (.error e, r) := by
  simp [step, Run.search, searchNegation, hi, hn, hs, he]

/-- An open negation is where a run gives up. -/
theorem advance_open (hbody : d.rule.body = first :: rest) (hp : first.isPrimitive = false) (hn : first.isNegated = true)
    (hopen : first.isSemiGrounded = false) :
    r.step q (.advance 0 d) = (.error (.openNegation (first.text ++ " in `" ++ d.rule.text ++ "`")), r) := by
  simp only [step, advance, hbody, hp, hn, hopen, Bool.false_eq_true, if_false, Bool.not_false, Bool.and_true, if_true]

namespace Shows

theorem isDone (h : r.Shows pool l fs ws) : r.isDone = false := by
  obtain ⟨g, hg, hs⟩ := h.goal
  rw [Run.isDone, hg]
  exact hs.uncapped

theorem modify (h : r.Shows pool l fs ws) {f : Subgoal W → Subgoal W}
    (hf : ∀ g, r.table.goal? 0 = some g → g.Shows l fs ws → (f g).Shows l fs' ws') :
    (r.modify 0 f).Shows pool l fs' ws' := by
  obtain ⟨g, hg, hs⟩ := h.goal
  exact ⟨h.pool, h.index, f g, goal?_modify_self hg, hf g hg hs⟩

theorem setTrie (h : r.Shows pool l fs ws) {trie : Trie W} (ht : trie.Sound (fun _ => True)) :
    (r.modify 0 (fun g => { g with trie := trie })).Shows pool l fs ws :=
  h.modify (fun _ _ hs => ⟨hs.literal, hs.facts, hs.waiters, hs.uncapped, hs.provable, hs.store, ht⟩)

theorem of_table_eq (h : r.Shows pool l fs ws) (hr : r'.table = r.table) (hp : r'.pool = r.pool) :
    r'.Shows pool l fs ws := ⟨hp.trans h.pool, by rw [hr]; exact h.index, by rw [hr]; exact h.goal⟩

/-! ## Searching -/

theorem search (h : r.Shows pool l fs ws) (hn : l.isNegated = false) (hp : l.isPrimitive = false) :
    r.step q (.search 0) = (.ok [.tryFacts 0 (q.kb.factsFor l) false], r) := by
  obtain ⟨g, hg, hs⟩ := h.goal
  simp [step, Run.search, hg, hs.literal, hn, hp]

theorem tryFacts_nil (h : r.Shows pool l fs ws) (matched : Bool) :
    r.step q (.tryFacts 0 [] matched) = (.ok [.tryRules 0 (q.kb.rulesFor l) matched], r) := by
  obtain ⟨g, hg, hs⟩ := h.goal
  simp [step, tryFacts, hg, hs.literal]

theorem tryFacts_cons (h : r.Shows pool l fs ws) (hf : (l.unify f.head).isSome = true) (left : List (Clause W))
    (matched : Bool) :
    r.step q (.tryFacts 0 (f :: left) matched) = (.ok [.accept 0 f .asserted, .tryFacts 0 left true], r) := by
  obtain ⟨g, hg, hs⟩ := h.goal
  simp [step, tryFacts, hg, hs.literal, h.isDone, hf]

theorem tryRules_cons (h : r.Shows pool l fs ws) {s : Subst}
    (hc : (c.rename pool).1.head.unify l = some s) (cs : List (Clause W)) (matched : Bool) :
    ∃ r', r.step q (.tryRules 0 (c :: cs) matched) =
        (.ok [.advance 0 (.start ((c.rename pool).1.subst s)), .tryRules 0 cs true], r') ∧
      r'.Shows (c.rename pool).2 l fs ws := by
  obtain ⟨g, hg, hs⟩ := h.goal
  refine ⟨{ r with pool := (c.rename r.pool).2 }, ?_, by rw [h.pool], h.index, h.goal⟩
  simp [step, tryRules, hg, hs.literal, h.isDone, h.pool, hc]

/-! ## Derivations -/

theorem advance_primitive (h : r.Shows pool l fs ws) (hbody : d.rule.body = first :: rest)
    (hp : first.isPrimitive = true) :
    ∃ r', r.step q (.advance 0 d) = (.ok ((q.answers first).map (fun a => .resolve 0 d (.fact a))), r') ∧
      r'.Shows pool l fs ws := by
  obtain ⟨hanswers, htable⟩ := runPrimitive_spec q first r
  refine ⟨(r.runPrimitive q first).2, ?_, h.of_table_eq htable (runPrimitive_pool q first r)⟩
  simp only [step, advance, hbody, hp, if_true, hanswers]

/-- A derivation that comes back to the query waits for it and meets its facts. -/
theorem advance_back (h : r.Shows pool l fs ws) (hbody : d.rule.body = first :: rest) (hnode : d.node = Trie.root)
    (hp : first.isPrimitive = false) (hn : first.isNegated = false) (hv : first.variant = l.variant) :
    ∃ r', r.step q (.advance 0 d) = (.ok [.feed 0 d fs], r') ∧ r'.Shows pool l fs (ws ++ [⟨0, d⟩]) := by
  obtain ⟨g, hg, hs⟩ := h.goal
  obtain ⟨trie, htrie, hsound, -⟩ := Trie.wait_spec hs.trie (hs.trie.lt_of_path .root) first
  have hknown := goalFor_known (q := q) (by rw [hv]; exact h.index)
  refine ⟨_, ?_, (h.setTrie hsound).modify (f := fun g => g.wait ⟨0, d⟩) (fun b _ hbs => ⟨hbs.literal, hbs.facts, ?_,
    hbs.uncapped, hbs.provable, hbs.store, hbs.trie⟩)⟩
  · simp only [step, advance, hbody, hp, hn, Bool.false_and, Bool.false_eq_true, if_false, awaitGoal, hknown, hg,
      hs.provable, hnode, show Trie.root = 0 from rfl, htrie, hs.facts]
  · rw [Subgoal.wait, Array.toList_push, hbs.waiters]

theorem feed_cons (h : r.Shows pool l fs ws) (left : List (Clause W)) :
    r.step q (.feed 0 d (f :: left)) = (.ok [.resolve 0 d f, .feed 0 d left], r) := by
  simp [step, feed, h.isDone]

theorem resolve_more (h : r.Shows pool l fs ws) (hc : d.rule.resolve f.head = some c) (hnode : d.node = Trie.root)
    (hbody : c.body.isEmpty = false) :
    ∃ node r', r.step q (.resolve 0 d f) = (.ok [.advance 0 ⟨c, node⟩], r') ∧ r'.Shows pool l fs ws := by
  obtain ⟨g, hg, hs⟩ := h.goal
  obtain ⟨node, trie, htrie, hsound, -, -, -⟩ := Trie.update_spec hs.trie (hs.trie.lt_of_path .root) (l := f.head) trivial
  refine ⟨node, _, ?_, h.setTrie hsound⟩
  simp only [step, resolve, hc, hg, hnode, show Trie.root = 0 from rfl, htrie, hbody, Bool.false_eq_true, if_false]

theorem completeRule (h : r.Shows pool l fs ws) {n : Nat} {π : List (Literal W)}
    (hpath : ∀ g, r.table.goal? 0 = some g → g.trie.Path n π) (hne : π ≠ []) {head : Literal W}
    (hhead : head.isSemiGrounded = true) :
    ∃ r', r.completeRule 0 n head = (.ok [.accept 0 (.fact head) .derived], r') ∧ r'.Shows pool l fs ws := by
  obtain ⟨g, hg, hs⟩ := h.goal
  have hrecord : ((g.record ⟨head, π⟩).2).Shows l fs ws := by
    unfold Subgoal.record
    dsimp only
    split
    · exact hs
    · exact ⟨hs.literal, hs.facts, hs.waiters, hs.uncapped, hs.provable, hs.store, hs.trie⟩
  have hmod := h.modify (f := fun _ => (g.record ⟨head, π⟩).2) (fun _ _ _ => hrecord)
  have hcomplete := Trie.complete_of_path hs.trie (hpath g hg) hne head
  refine ⟨(r.completeRule 0 n head).2, ?_, hmod.of_table_eq ?_ ?_⟩
  · simp only [Run.completeRule, hhead, Bool.not_true, Bool.false_eq_true, if_false, hg, hcomplete]
  · simp only [Run.completeRule, hhead, Bool.not_true, Bool.false_eq_true, if_false, hg, hcomplete]
    split <;> rfl
  · simp only [Run.completeRule, hhead, Bool.not_true, Bool.false_eq_true, if_false, hg, hcomplete]
    split <;> rfl

theorem resolve_done (h : r.Shows pool l fs ws) (hc : d.rule.resolve f.head = some c) (hnode : d.node = Trie.root)
    (hbody : c.body = []) (hhead : c.head.isSemiGrounded = true) :
    ∃ r', r.step q (.resolve 0 d f) = (.ok [.accept 0 (.fact c.head) .derived], r') ∧ r'.Shows pool l fs ws := by
  obtain ⟨g, hg, hs⟩ := h.goal
  obtain ⟨node, trie, htrie, hsound, -, -, hpath⟩ :=
    Trie.update_spec hs.trie (hs.trie.lt_of_path .root) (l := f.head) trivial
  obtain ⟨m, -, hp⟩ := hpath [] .root
  obtain ⟨r', hr', hshows⟩ := (h.setTrie hsound).completeRule (n := node) (fun b hb => by
    rw [goal?_modify_self hg] at hb
    injection hb with hb
    subst hb
    exact hp) (by simp) hhead
  refine ⟨r', ?_, hshows⟩
  simp only [step, resolve, hc, hg, hnode, show Trie.root = 0 from rfl, htrie, hbody, List.isEmpty_nil, if_true, hr']

/-! ## Facts -/

theorem accept (h : r.Shows pool l fs ws) (hmax : q.maxSamples = none) (hnew : ∀ e ∈ fs, e.key ≠ f.key) (origin : Origin) :
    ∃ r', r.step q (.accept 0 f origin) = (.ok [.notify ws f], r') ∧ r'.Shows pool l (fs ++ [f]) ws := by
  obtain ⟨g, hg, hs⟩ := h.goal
  cases hadd : g.addFact f origin with
  | none =>
    obtain ⟨e, he, hkey⟩ := (Subgoal.addFact_eq_none hs.store).1 hadd
    rw [hs.facts] at he
    exact absurd hkey (hnew e he)
  | some out =>
    obtain ⟨fast, g'⟩ := out
    have ha := Subgoal.addFact_eq_some hs.store hadd
    obtain ⟨h1, h2, h3, -, -, h6, h7⟩ := ha.rest
    have hshows : g'.Shows l (fs ++ [f]) ws := ⟨h1.trans hs.literal, by rw [ha.facts, hs.facts], by rw [h2]; exact hs.waiters,
      h7.trans hs.uncapped, h6.trans hs.provable, ha.store, by rw [h3]; exact hs.trie⟩
    refine ⟨(r.modify 0 (fun _ => g')).count (countFact fast), ?_,
      (h.modify (f := fun _ => g') (fun _ _ _ => hshows)).of_table_eq rfl rfl⟩
    simp only [step, Run.accept, hg, hs.uncapped, hadd, hmax, Option.any_none, Bool.and_false, Bool.false_eq_true, if_false,
      h2, hs.waiters]

end Shows
end Run
end Credence
