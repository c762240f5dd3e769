import Credence.Proofs.Solving
/-!
# Asking for a negation

A solver that is asked for a negation works off the goal of its base first.  Where the rules have no negations, nothing
else is going on: when the negation is decided the table is settled, so its base has all its facts, and the decision is
the last thing the run does (`Solver.decides`).
-/
namespace Credence

variable {W : Type} [Weight W] [LawfulWeight W]

namespace Run

variable {q : Query W} {V : Vocabulary W} {r : Run W}

omit [LawfulWeight W] in
/-- Nothing waits for a negation where no rule has one. -/
theorem Valid.waiters_eq_empty (hv : r.Valid V q.kb)
    (hneg : ∀ c ∈ q.kb.rules.clauses, ∀ l ∈ c.body, l.isNegated = false) {i : Nat} {g : Subgoal W}
    (hi : r.table.goal? i = some g) (hn : g.literal.isNegated = true) : g.waiters = #[] := by
  refine Array.eq_empty_iff_forall_not_mem.2 (fun w hw => ?_)
  obtain ⟨⟨g', hi', -, -, π, -, hres⟩, first, rest, hbody, hvar⟩ := (hv.goal i g hi).waiter w hw
  have hfirst : first ∈ w.derivation.rule.body := by
    rw [hbody]
    exact List.mem_cons_self
  have hp := (Literal.shape_eq_of_variant_eq (hres.body first hfirst).1.isPlain (hv.goal i g hi).literal.isPlain hvar).1
  obtain ⟨rule, hrule, done, left, hsplit, -, htrace⟩ := hres.trace
  obtain ⟨μ, -, -, hsays⟩ := htrace (fun _ => ⟨""⟩)
  obtain ⟨b, hb, hfb⟩ := forall₂_exists_right hsays hfirst
  have hpos : b.isNegated = false := hneg rule hrule b (by rw [hsplit]; exact List.mem_append_right _ hb)
  rw [← hfb.isNegated, Literal.isNegated, hp] at hpos
  rw [Literal.isNegated, hpos] at hn
  cases hn

/-- The first fact of a goal that nothing waits for ends the agenda. -/
theorem Agenda.accepted (hq : q.Regular V) {i : Nat} {g : Subgoal W} {f : Clause W} {origin : Origin}
    (h : r.Agenda q V [.accept i f origin]) (hi : r.table.goal? i = some g) (hfacts : g.facts = [])
    (hw : g.waiters = #[]) :
    ∃ r', r.Grows r' ∧ r'.Agenda q V [] ∧
      (∀ steps, execute q (2 + steps) [.accept i f origin] r = execute q steps [] r') ∧
      r'.table.facts i = [f] ∧ r'.table.negations = r.table.negations := by
  have hg := h.valid.goal i g hi
  cases hadd : g.addFact f origin with
  | none =>
    obtain ⟨c, hc, -⟩ := (Subgoal.addFact_eq_none hg.store).1 hadd
    rw [hfacts] at hc
    cases hc
  | some out =>
    obtain ⟨fast, g'⟩ := out
    have hA := Subgoal.addFact_eq_some hg.store hadd
    have hwaiters : g'.waiters.toList = [] := by rw [hA.rest.2.1, hw]
    have hstep : r.step q (.accept i f origin) =
        (.ok [.notify [] f], (r.modify i (fun _ => g')).count (countFact fast)) := by
      simp only [step, accept, hi, hg.uncapped, Bool.false_eq_true, if_false, hadd, hq.samples, Option.any_none,
        Bool.and_false, hwaiters]
    obtain ⟨ts, r₁, hstep₁, hgrow₁, hagenda₁⟩ := h.step_ok hq
    rw [hstep] at hstep₁
    obtain ⟨hts, rfl⟩ := Prod.mk.inj hstep₁
    injection hts with hts
    subst hts
    obtain ⟨ts, r₂, hstep₂, hgrow₂, hagenda₂⟩ := hagenda₁.step_ok hq
    obtain ⟨hts, rfl⟩ := Prod.mk.inj hstep₂
    injection hts with hts
    subst hts
    refine ⟨_, hgrow₁, hagenda₂, fun steps => ?_, ?_, rfl⟩
    · have hfirst : execute q (steps + 1 + 1) [.accept i f origin] r =
          execute q (steps + 1) [.notify [] f] ((r.modify i (fun _ => g')).count (countFact fast)) := by
        rw [execute, hstep]
        rfl
      rw [Nat.add_comm, hfirst]
      rfl
    · show (r.modify i (fun _ => g')).table.facts i = [f]
      rw [Table.facts, goal?_modify_self hi]
      exact hA.facts.trans (by rw [hfacts]; rfl)

/-- **The decision of a negation is the last thing a run does**, where no rule has a negation.  What was decided is its
fact, if it has one; a certain negation leaves no entry. -/
theorem Agenda.decided (hq : q.Regular V) (hneg : ∀ c ∈ q.kb.rules.clauses, ∀ l ∈ c.body, l.isNegated = false)
    {i j : Nat} {g b : Subgoal W} {base : Literal W} (h : r.Agenda q V [.decideNegation i j base])
    (hi : r.table.goal? i = some g) (hj : r.table.goal? j = some b) :
    ∃ n r' outcome, r.Grows r' ∧ r'.Agenda q V [] ∧
      (∀ steps, execute q (n + steps) [.decideNegation i j base] r = execute q steps [] r') ∧
      Outcome q r r' g b base outcome ∧ r'.table.facts i = outcome.toList ∧
      (b.facts = [] → ¬ r'.table.HasEntry g.literal) := by
  obtain ⟨⟨g₀, b₀, hi₀, hn, hj₀, hnegate, hvar⟩, -⟩ := h.tasks
  obtain rfl := goal_eq hi₀ hi
  obtain rfl := goal_eq hj₀ hj
  have hst : 3 + r.table.stake g₀ ≤ 3 := by simpa [Task.stake] using h.staked i g₀ hi hn
  obtain ⟨hfacts, -, hent⟩ := Table.stake_eq_zero hst
  have hwaiters := h.valid.waiters_eq_empty hneg hi hn
  obtain ⟨ts, r₁, hstep₁, hgrow₁, hagenda₁⟩ := h.step_ok hq
  have hexec : ∀ steps, execute q (steps + 1) [.decideNegation i j base] r = execute q steps (ts ++ []) r₁ := by
    intro steps
    rw [execute, hstep₁]
  rcases step_decideNegation_cases h.valid hi hn hj hnegate hvar with
    ⟨hempty, hstep⟩ | ⟨hempty, hdrop, hstep⟩ | ⟨hempty, hdrop, hstep⟩
  · rw [hstep] at hstep₁
    obtain ⟨hts, rfl⟩ := Prod.mk.inj hstep₁
    injection hts with hts
    subst hts
    obtain ⟨r', hgrow, hagenda, hrest, hf, hentries⟩ := Agenda.accepted hq hagenda₁ hi hfacts hwaiters
    refine ⟨3, r', _, hgrow, hagenda, fun steps => ?_, .certain hempty, hf, fun _ => ?_⟩
    · rw [show 3 + steps = (2 + steps) + 1 by omega, hexec]
      exact hrest steps
    · rw [Table.HasEntry, hentries]
      exact hent
  · rw [hstep] at hstep₁
    obtain ⟨hts, rfl⟩ := Prod.mk.inj hstep₁
    injection hts with hts
    subst hts
    refine ⟨1, _, _, hgrow₁, hagenda₁, fun steps => ?_, .dropped hempty hdrop, ?_, fun h => absurd h hempty⟩
    · rw [Nat.add_comm, hexec]
      rfl
    · rw [(sameFacts_markUnprovable r i).2, Table.facts, hi]
      exact hfacts
  · rw [hstep] at hstep₁
    obtain ⟨hts, rfl⟩ := Prod.mk.inj hstep₁
    injection hts with hts
    subst hts
    obtain ⟨r', hgrow, hagenda, hrest, hf, hentries⟩ := Agenda.accepted hq hagenda₁ (g := g₀) hi hfacts hwaiters
    refine ⟨3, r', _, hgrow₁.trans hgrow, hagenda, fun steps => ?_, .weighted hempty hdrop rfl ?_, hf,
      fun h => absurd h hempty⟩
    · rw [show 3 + steps = (2 + steps) + 1 by omega, hexec]
      exact hrest steps
    · rw [hentries]
      exact Std.HashMap.getElem?_insert_self

end Run

namespace Solver

variable {s : Solver W} {V : Vocabulary W} {l : Literal W}

omit [LawfulWeight W] in
/-- The search for a negation first searches its base. -/
theorem opening_step (hl : V.HasLiteral (s.opening l).pool.issued (s.asked l)) (hn : l.isNegated = true)
    (hsg : l.isSemiGrounded = true) {base : Literal W} (hbase : (s.asked l).negate = .ok base) :
    (s.opening l).step s.query (.search 0) =
      (.ok [.search 1, .decideNegation 0 1 base], (s.opening l).addGoal s.query base) ∧
    ((s.opening l).addGoal s.query base).table.goal? 1 = some (Run.newGoal s.query base) := by
  have hk := Run.start_index (W := W) (l.shuffle s.run.pool).2 (s.asked l).variant
  have h0 : (s.opening l).table.goal? 0 = some (Run.newGoal s.query (s.asked l)) := Run.addGoal_new hk
  have hsize : (s.opening l).table.goals.size = 1 := by
    rw [opening, Run.size_addGoal hk]
    rfl
  -- the base has another predicate, hence another goal
  have hnew : (s.opening l).table.index[base.variant]? = none := by
    obtain ⟨base', hneg', -, hpos, hlit⟩ := hl.negate hn
    rw [hbase] at hneg'
    injection hneg' with hneg'
    subst hneg'
    rw [opening, Run.addGoal_index hk, Std.HashMap.getElem?_insert, if_neg, Run.start_index]
    intro e
    have hp := (Literal.shape_eq_of_variant_eq hl.isPlain hlit.isPlain (eq_of_beq e)).1
    rw [Literal.isNegated, ← hp] at hpos
    have hn' : (s.asked l).predicate.isNegated = true := hn
    rw [hn'] at hpos
    cases hpos
  refine ⟨?_, ?_⟩
  · have hlit : (Run.newGoal s.query (s.asked l)).literal = s.asked l := rfl
    have hn' : (s.asked l).isNegated = true := hn
    simp only [Run.step, Run.search, h0, hlit, hn', if_true, Run.searchNegation, asked_isSemiGrounded hsg, Bool.not_true,
      Bool.false_eq_true, if_false, hbase, Run.goalFor_new hnew, hsize]
  · rw [← hsize]
    exact Run.addGoal_new hnew

/-- **A solver asked for a negation** decides it from a settled table, in which the goal of its base has all facts. -/
theorem decides (hkb : s.kb.Regular V) (hcap : s.storeCapacity = none)
    (hneg : ∀ c ∈ s.kb.rules.clauses, ∀ x ∈ c.body, x.isNegated = false) {n : Nat} (hl : V.HasLiteral n l)
    (hn : l.isNegated = true) (hsg : l.isSemiGrounded = true) :
    ∃ steps r₀ r g b base outcome, r₀.Settled s.query V ∧ r.Settled s.query V ∧ r₀.Grows r ∧
      r₀.table.goal? 0 = some g ∧ g.literal = s.asked l ∧ (s.asked l).negate = .ok base ∧
      r₀.table.goal? 1 = some b ∧ b.literal = base ∧ Run.Outcome s.query r₀ r g b base outcome ∧
      r.table.facts 0 = outcome.toList ∧ (b.facts = [] → ¬ r.table.HasEntry g.literal) ∧
      ∀ patience, steps ≤ patience →
        ({ s with patience := patience } : Solver W).start l none = (.ok (), { s with patience := patience, run := r }) := by
  have hq : s.query.Regular V := ⟨hkb, hcap, rfl⟩
  have hopen := opening_agenda (V := V) hcap hl (fun _ => hsg)
  have h0 : (s.opening l).table.goal? 0 = some (Run.newGoal s.query (s.asked l)) :=
    Run.addGoal_new (Run.start_index (W := W) _ _)
  have hlit : V.HasLiteral (s.opening l).pool.issued (s.asked l) := (hopen.valid.goal 0 _ h0).literal
  obtain ⟨base, hbase, -⟩ := hlit.negate hn
  obtain ⟨hstep, h1⟩ := opening_step hlit hn hsg hbase
  obtain ⟨ts, r₁, hstep₁, hgrow₁, hagenda₁⟩ := hopen.step_ok hq
  rw [hstep] at hstep₁
  obtain ⟨hts, rfl⟩ := Prod.mk.inj hstep₁
  injection hts with hts
  subst hts
  obtain ⟨m, r₀, hgrow₀, hagenda₀, hexec₀⟩ := Run.Agenda.worked_off hq [.search 1] [.decideNegation 0 1 base] _ hagenda₁
  obtain ⟨g, hg, hgg⟩ := (hgrow₁.trans hgrow₀).goal 0 _ h0
  obtain ⟨b, hb, hbb⟩ := hgrow₀.goal 1 _ h1
  obtain ⟨k, r, outcome, hgrow, hagenda, hexec, hout, hfacts, hent⟩ := hagenda₀.decided hq hneg hg hb
  refine ⟨1 + m + k, r₀, r, g, b, base, outcome, ?_, hagenda.settled, hgrow, hg, hgg.literal, hbase, hb, hbb.literal, hout,
    hfacts, hent, fun patience hp => ?_⟩
  · refine hagenda₀.settled_of_decisions (fun t ht => ?_)
    exact ⟨0, 1, base, List.mem_singleton.1 ht⟩
  · obtain ⟨extra, rfl⟩ := Nat.exists_eq_add_of_le hp
    have hrun : Run.execute s.query (1 + m + k + extra) [.search 0] (s.opening l) = (.ok (), r) := by
      rw [show 1 + m + k + extra = (m + (k + extra)) + 1 by omega, Run.execute, hstep]
      simp only [List.cons_append, List.nil_append] at hexec₀ ⊢
      rw [hexec₀, hexec]
      cases extra <;> rfl
    have hrun' : Run.execute ({ s with patience := 1 + m + k + extra } : Solver W).query (1 + m + k + extra) [.search 0]
        (({ s with patience := 1 + m + k + extra } : Solver W).opening l) = (.ok (), r) := hrun
    rw [start_eq (fun _ => hsg), hrun']

end Solver
end Credence
