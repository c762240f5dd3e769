import Credence.Proofs.Deciding
import Mathlib.Algebra.Order.BigOperators.Group.Finset
import Mathlib.Data.Set.Finite.List
import Mathlib.Order.Lattice.Nat
/-!
# Runs come to an end

A step makes a goal, finds a fact, or trades a task for tasks that cost less.  What a task costs is counted from the end:
a derivation with nothing left costs one, and one with a literal more costs what it does to meet as many facts as a goal
can have.  A primitive may answer as often as a goal may have facts.  Goals are finitely many up to the names of variables, and so are the atoms over a vocabulary; hence an agenda
in order is worked off in finitely many steps (`Agenda.worked_off`).
-/
namespace Credence

variable {W : Type}

/-- What it costs to take a derivation up that has `n` literals left, when no goal has more than `K` facts. -/
def reach (K : Nat) : Nat → Nat
  | 0     => 1
  | n + 1 => 2 + K * (reach K n + 3)

/-- What it costs to try every rule. -/
def KnowledgeBase.ruleCost (kb : KnowledgeBase W) (K : Nat) : Nat :=
  (kb.rules.clauses.map (fun c => reach K c.body.length + 1)).sum

def Task.cost (K : Nat) (kb : KnowledgeBase W) : Task W → Nat
  | .search _             => 2 * kb.facts.clauses.length + kb.ruleCost K + K + 4
  | .tryFacts _ left _    => 2 * left.length + kb.ruleCost K + 2
  | .tryRules _ left _    => (left.map (fun c => reach K c.body.length + 1)).sum + 1
  | .decideNegation _ _ _ => 2
  | .accept _ _ _         => 1
  | .notify ws _          => (ws.map (fun w => reach K (w.derivation.rule.body.length - 1) + 3)).sum + 1
  | .feed _ d left        => left.length * (reach K (d.rule.body.length - 1) + 3) + 1
  | .advance _ d          => reach K d.rule.body.length
  | .resolve _ d _        => reach K (d.rule.body.length - 1) + 2

def agendaCost (K : Nat) (kb : KnowledgeBase W) (agenda : List (Task W)) : Nat := (agenda.map (Task.cost K kb)).sum

/-- What a primitive literal is answered with; it does not depend on the run. -/
def Query.answers [Weight W] (q : Query W) (l : Literal W) : List (Literal W) :=
  match l.primitive? with
  | none      => []
  | some name =>
    match Run.callPrimitive q.kb.registry name (Run.inputs (q.kb.registry.kind name) l) with
    | .ok out  => Run.instances (q.kb.registry.kind name) l (Run.outputs out)
    | .error _ => []

/-- A task asks a primitive for `K` answers at most, and one that is up in a derivation not at all. -/
def Task.Asks [Weight W] (q : Query W) (K : Nat) (r : Run W) : Task W → Prop
  | .search i    => ∀ g, r.table.goal? i = some g → g.literal.isPrimitive = true → (q.answers g.literal).length ≤ K
  | .advance _ d => ∀ l ∈ d.rule.body, l.isPrimitive = false
  | _            => True

/-! ## Sublists of the program -/

theorem Shelf.get_sublist (s : Shelf W) (p : Predicate) : (s.get p).Sublist s.clauses := by
  unfold get
  cases h : s.entries.lookup p with
  | none => exact List.nil_sublist _
  | some cs =>
    have hm := List.mem_map_of_mem (f := Prod.snd) (Renaming.mem_of_lookup h)
    rw [clauses, List.flatMap_def]
    exact List.sublist_flatten_of_mem hm

theorem sum_map_le_of_sublist {α : Type} (f : α → Nat) {l l' : List α} (h : l.Sublist l') :
    (l.map f).sum ≤ (l'.map f).sum := by
  induction h with
  | slnil => exact Nat.le_refl _
  | cons a _ ih => rw [List.map_cons, List.sum_cons]; omega
  | cons_cons a _ ih => rw [List.map_cons, List.map_cons, List.sum_cons, List.sum_cons]; omega

namespace Run

/-- How many facts the goals have together. -/
def factTotal (r : Run W) : Nat := ∑ i ∈ Finset.range r.table.goals.size, (r.table.facts i).length

/-- **What one step gains.** -/
inductive Progress (q : Query W) (K : Nat) (r : Run W) (t : Task W) (ts : List (Task W)) (r' : Run W) : Prop
  | goal : r.table.goals.size < r'.table.goals.size → Progress q K r t ts r'
  | fact : r'.table.goals.size = r.table.goals.size → r.factTotal < r'.factTotal → Progress q K r t ts r'
  | cost : r'.table.goals.size = r.table.goals.size → r'.factTotal = r.factTotal →
    agendaCost K q.kb ts < t.cost K q.kb → Progress q K r t ts r'

variable {q : Query W} {K : Nat} {r r' : Run W} {t : Task W} {ts : List (Task W)}

/-! ## Changes without new facts -/

/-- The two runs have the same goals with the same facts. -/
def SameFacts (r r' : Run W) : Prop :=
  r'.table.goals.size = r.table.goals.size ∧ ∀ i, r'.table.facts i = r.table.facts i

theorem SameFacts.refl (r : Run W) : r.SameFacts r := ⟨rfl, fun _ => rfl⟩

theorem SameFacts.trans {r'' : Run W} (h : r.SameFacts r') (h' : r'.SameFacts r'') : r.SameFacts r'' :=
  ⟨h'.1.trans h.1, fun i => (h'.2 i).trans (h.2 i)⟩

theorem SameFacts.factTotal_eq (h : r.SameFacts r') : r'.factTotal = r.factTotal := by
  rw [factTotal, factTotal, h.1]
  exact Finset.sum_congr rfl (fun i _ => by rw [h.2 i])

theorem SameFacts.progress (h : r.SameFacts r') (hc : agendaCost K q.kb ts < t.cost K q.kb) : r.Progress q K t ts r' :=
  .cost h.1 h.factTotal_eq hc

/-- A step that only changes what there is besides the facts, and hands on tasks that cost less. -/
theorem Progress.of_step {us : List (Task W)} {r₁ : Run W} (e : (.ok us, r₁) = ((.ok ts, r') : Stepped W))
    (h : r.SameFacts r₁) (hc : agendaCost K q.kb us < t.cost K q.kb) : r.Progress q K t ts r' := by
  cases e
  exact h.progress hc

theorem size_modify (r : Run W) (i : Nat) (f : Subgoal W → Subgoal W) :
    (r.modify i f).table.goals.size = r.table.goals.size := by simp [modify, Table.modify]

theorem sameFacts_modify (r : Run W) (i : Nat) {f : Subgoal W → Subgoal W} (hf : ∀ g, (f g).facts = g.facts) :
    r.SameFacts (r.modify i f) := by
  refine ⟨size_modify r i f, fun j => ?_⟩
  rw [Table.facts, Table.facts, goal?_modify]
  split
  · rw [Option.map_map]
    congr 2
    funext g
    exact hf g
  · rfl

theorem facts_modify {i : Nat} {g : Subgoal W} {f : Subgoal W → Subgoal W} (hi : r.table.goal? i = some g) (j : Nat) :
    (r.modify i f).table.facts j = if i = j then (f g).facts else r.table.facts j := by
  rw [Table.facts, goal?_modify]
  split
  · rename_i e
    rw [← e, hi]
    rfl
  · rfl

theorem sameFacts_of_goal {i : Nat} {g : Subgoal W} {f : Subgoal W → Subgoal W} (hi : r.table.goal? i = some g)
    (hf : (f g).facts = g.facts) : r.SameFacts (r.modify i f) := by
  refine ⟨size_modify r i f, fun j => ?_⟩
  rw [facts_modify hi]
  split
  · rename_i e
    rw [← e, Table.facts, hi]
    exact hf
  · rfl

theorem goalFor_cases (q : Query W) (l : Literal W) (r : Run W) :
    (∃ i, r.table.index[l.variant]? = some i ∧ r.goalFor q l = (i, false, r)) ∨
      r.table.index[l.variant]? = none ∧ r.goalFor q l = (r.table.goals.size, true, r.addGoal q l) := by
  cases h : r.table.index[l.variant]? with
  | some i => exact .inl ⟨i, rfl, goalFor_known h⟩
  | none => exact .inr ⟨rfl, goalFor_new h⟩

theorem size_addGoal {l : Literal W} (h : r.table.index[l.variant]? = none) :
    (r.addGoal q l).table.goals.size = r.table.goals.size + 1 := by
  rw [addGoal_goals h, Array.size_push]

variable [Weight W]

theorem sameFacts_markUnprovable (r : Run W) (i : Nat) : r.SameFacts (r.markUnprovable i) := by
  unfold markUnprovable
  split
  · exact .refl r
  · rename_i g hi
    rw [← Array.foldl_toList]
    have key : ∀ (ws : List (Waiter W)) (r : Run W), r.SameFacts
        (ws.foldl (fun r w => r.modify w.goal (fun p => { p with trie := (p.trie.cleanup g.literal).2 })) r) := by
      intro ws
      induction ws with
      | nil => exact fun r => .refl r
      | cons w ws ih =>
        intro r
        have h1 : r.SameFacts (r.modify w.goal (fun p => { p with trie := (p.trie.cleanup g.literal).2 })) :=
          sameFacts_modify r w.goal (fun _ => rfl)
        exact h1.trans (ih _)
    have h1 : r.SameFacts ((r.count (fun s => { s with unprovable := s.unprovable + 1 })).modify i
        (fun g => { g with unprovable := true })) := sameFacts_modify r i (fun _ => rfl)
    exact h1.trans (key _ _)

/-! ## One step -/

theorem runPrimitive_spec (q : Query W) (l : Literal W) (r : Run W) :
    (r.runPrimitive q l).1 = q.answers l ∧ (r.runPrimitive q l).2.table = r.table := by
  unfold runPrimitive Query.answers
  cases l.primitive? with
  | none => exact ⟨rfl, rfl⟩
  | some name =>
    dsimp only
    cases callPrimitive q.kb.registry name (inputs (q.kb.registry.kind name) l) with
    | ok out => exact ⟨rfl, rfl⟩
    | error e => exact ⟨rfl, rfl⟩

theorem progress_search {i : Nat} (ha : (Task.search i).Asks q K r) (h : r.step q (.search i) = (.ok ts, r')) :
    r.Progress q K (.search i) ts r' := by
  simp only [step, search] at h
  cases hi : r.table.goal? i with
  | none =>
    rw [hi] at h
    exact .of_step h (.refl r) (by simp [agendaCost, Task.cost])
  | some g =>
    rw [hi] at h
    dsimp only at h
    split at h
    · unfold searchNegation at h
      split at h
      · cases h
      · split at h
        · cases h
        · rename_i base _
          rcases goalFor_cases q base r with ⟨j, hk, e⟩ | ⟨hk, e⟩
          · rw [e] at h
            exact .of_step h (.refl r) (by simp [agendaCost, Task.cost])
          · rw [e] at h
            injection h with _ e2
            subst e2
            exact .goal (by rw [size_addGoal hk]; exact Nat.lt_succ_self _)
    · split at h
      · rename_i hp
        have hle := ha g hi hp
        obtain ⟨hanswers, htable⟩ := runPrimitive_spec q g.literal r
        cases h
        refine SameFacts.progress ⟨by rw [htable], fun j => by rw [htable]⟩ ?_
        rw [hanswers]
        have hcost : agendaCost K q.kb ((q.answers g.literal).map (fun a => .accept i (.fact a) .asserted)) =
            (q.answers g.literal).length := by
          simp [agendaCost, Function.comp_def, Task.cost]
        rw [hcost]
        simp only [Task.cost]
        omega
      · refine .of_step h (.refl r) ?_
        have := ((List.filter_sublist (p := fun c => g.literal.isRelevant c.head)).trans
          (q.kb.facts.get_sublist g.literal.predicate)).length_le
        simp only [agendaCost, List.map_cons, List.map_nil, List.sum_cons, List.sum_nil, Task.cost, KnowledgeBase.factsFor]
        omega

theorem progress_tryFacts {i : Nat} {left : List (Clause W)} {matched : Bool}
    (h : r.step q (.tryFacts i left matched) = (.ok ts, r')) : r.Progress q K (.tryFacts i left matched) ts r' := by
  simp only [step, tryFacts] at h
  split at h
  · exact .of_step h (.refl r) (by simp [agendaCost, Task.cost])
  · rename_i g _
    refine .of_step h (.refl r) ?_
    have := sum_map_le_of_sublist (fun c => reach K c.body.length + 1)
      ((List.filter_sublist (p := fun c => g.literal.isRelevant c.head)).trans
        (q.kb.rules.get_sublist g.literal.predicate))
    simp only [agendaCost, List.map_cons, List.map_nil, List.sum_cons, List.sum_nil, Task.cost, KnowledgeBase.rulesFor,
      KnowledgeBase.ruleCost]
    omega
  · split at h
    · exact .of_step h (.refl r) (by simp [agendaCost, Task.cost])
    · split at h
      · exact .of_step h (.refl r) (by simp [agendaCost, Task.cost]; omega)
      · exact .of_step h (.refl r) (by simp [agendaCost, Task.cost])

theorem progress_tryRules {i : Nat} {left : List (Clause W)} {matched : Bool}
    (h : r.step q (.tryRules i left matched) = (.ok ts, r')) : r.Progress q K (.tryRules i left matched) ts r' := by
  simp only [step, tryRules] at h
  split at h
  · cases h
    exact (SameFacts.refl r).progress (by simp [agendaCost, Task.cost])
  · cases h
    refine SameFacts.progress ?_ (by simp [agendaCost, Task.cost])
    split
    · exact .refl r
    · exact sameFacts_markUnprovable r i
  · rename_i rule left _
    split at h
    · cases h
      exact (SameFacts.refl r).progress (by simp [agendaCost, Task.cost])
    · split at h
      · cases h
        refine SameFacts.progress ⟨rfl, fun _ => rfl⟩ ?_
        obtain ⟨f, -, -, hb⟩ := Clause.rename_spec rule r.pool
        simp only [agendaCost, List.map_cons, List.map_nil, List.sum_cons, List.sum_nil, Task.cost, Derivation.start,
          Clause.subst, List.length_map, ← hb.length_eq]
        omega
      · cases h
        exact SameFacts.progress ⟨rfl, fun _ => rfl⟩ (by simp [agendaCost, Task.cost])

theorem progress_decideNegation {i j : Nat} {base : Literal W}
    (h : r.step q (.decideNegation i j base) = (.ok ts, r')) : r.Progress q K (.decideNegation i j base) ts r' := by
  simp only [step, decideNegation] at h
  split at h
  · split at h
    · cases h
      exact (SameFacts.refl r).progress (by simp [agendaCost, Task.cost])
    · split at h
      · cases h
        exact (sameFacts_markUnprovable r i).progress (by simp [agendaCost, Task.cost])
      · cases h
        exact SameFacts.progress ⟨rfl, fun _ => rfl⟩ (by simp [agendaCost, Task.cost])
  · cases h
    exact (SameFacts.refl r).progress (by simp [agendaCost, Task.cost])

/-- A goal with a fact more, whether or not it takes another one. -/
theorem facts_accept {g g' : Subgoal W} {f : Clause W} {origin : Origin} {fast : Bool}
    (h : g.addFact f origin = some (fast, g')) (full : Bool) :
    (if full = true then { g' with capped := true } else g').facts = g.facts ++ [f] := by
  have hfacts := Subgoal.addFact_facts h
  split
  · exact hfacts
  · exact hfacts

theorem progress_accept {i : Nat} {f : Clause W} {origin : Origin}
    (h : r.step q (.accept i f origin) = (.ok ts, r')) : r.Progress q K (.accept i f origin) ts r' := by
  have hcost : agendaCost K q.kb [] < (Task.accept i f origin).cost K q.kb := by simp [agendaCost, Task.cost]
  simp only [step, accept] at h
  cases hi : r.table.goal? i with
  | none =>
    rw [hi] at h
    exact .of_step h (.refl r) hcost
  | some g =>
    rw [hi] at h
    dsimp only at h
    split at h
    · exact .of_step h (.refl r) hcost
    · split at h
      · exact .of_step h (.refl r) hcost
      · rename_i fast g' hadd
        cases h
        generalize (i == 0 && q.maxSamples.any (fun n => n ≤ g'.factCount)) = full
        have hsize := size_modify r i (fun _ => if full = true then { g' with capped := true } else g')
        have hat := facts_modify (f := fun _ => if full = true then { g' with capped := true } else g') hi
        rw [facts_accept hadd full] at hat
        have hlt := Table.goal?_lt hi
        refine .fact hsize ?_
        show r.factTotal < (r.modify i _).factTotal
        rw [factTotal, factTotal, hsize]
        refine Finset.sum_lt_sum (fun k _ => ?_) ⟨i, Finset.mem_range.2 hlt, ?_⟩
        · rw [hat]
          split
          · rename_i e
            rw [← e, Table.facts, hi]
            simp
          · exact Nat.le_refl _
        · rw [hat, if_pos rfl, Table.facts, hi]
          simp

theorem progress_notify {ws : List (Waiter W)} {f : Clause W} (h : r.step q (.notify ws f) = (.ok ts, r')) :
    r.Progress q K (.notify ws f) ts r' := by
  simp only [step, notify] at h
  split at h
  · cases h
    exact (SameFacts.refl r).progress (by simp [agendaCost, Task.cost])
  · cases h
    refine (SameFacts.refl r).progress ?_
    split
    · simp [agendaCost, Task.cost]
    · simp only [agendaCost, List.map_cons, List.map_nil, List.sum_cons, List.sum_nil, Task.cost]
      omega

theorem progress_feed {i : Nat} {d : Derivation W} {left : List (Clause W)}
    (h : r.step q (.feed i d left) = (.ok ts, r')) : r.Progress q K (.feed i d left) ts r' := by
  simp only [step, feed] at h
  split at h
  · cases h
    exact (SameFacts.refl r).progress (by simp [agendaCost, Task.cost])
  · cases h
    refine (SameFacts.refl r).progress ?_
    split
    · simp [agendaCost, Task.cost]
    · simp only [agendaCost, List.map_cons, List.map_nil, List.sum_cons, List.sum_nil, Task.cost, List.length_cons,
        Nat.add_mul, Nat.one_mul]
      omega

theorem progress_advance (hK : ∀ i, (r.table.facts i).length ≤ K) {i : Nat} {d : Derivation W}
    (ha : (Task.advance i d).Asks q K r) (h : r.step q (.advance i d) = (.ok ts, r')) :
    r.Progress q K (.advance i d) ts r' := by
  cases hbody : d.rule.body with
  | nil =>
    simp only [step, advance, hbody] at h
    cases h
  | cons first rest =>
    have hcost : (Task.advance i d : Task W).cost K q.kb = 2 + K * (reach K rest.length + 3) := by
      simp only [Task.cost, hbody, List.length_cons, reach]
    have hfirst : first.isPrimitive = false := ha first (by rw [hbody]; exact List.mem_cons_self)
    simp only [step, advance, hbody, hfirst, Bool.false_eq_true, if_false] at h
    split at h
    · cases h
    · simp only [awaitGoal] at h
      rcases goalFor_cases q first r with ⟨j, hk, e⟩ | ⟨hk, e⟩
      · rw [e] at h
        dsimp only at h
        split at h
        · rename_i c g hj hi
          split at h
          · cases h
            exact (SameFacts.refl r).progress (by rw [hcost]; simp [agendaCost])
          · split at h
            · cases h
            · rename_i trie _
              cases h
              have h1 : r.SameFacts (r.modify i (fun g => { g with trie := trie })) := sameFacts_modify r i (fun _ => rfl)
              refine (h1.trans (sameFacts_modify (f := fun c => c.wait ⟨i, d⟩) _ j (fun _ => rfl))).progress ?_
              have hlen := hK j
              rw [Table.facts, hj] at hlen
              have := Nat.mul_le_mul_right (reach K rest.length + 3) hlen
              rw [hcost]
              simp only [Bool.false_eq_true, if_false, agendaCost, List.map_cons, List.map_nil, List.sum_cons,
                List.sum_nil, Task.cost, hbody, List.length_cons, Nat.add_sub_cancel]
              simp only [Option.map_some, Option.getD_some] at this
              omega
        · cases h
          exact (SameFacts.refl r).progress (by rw [hcost]; simp [agendaCost])
      · -- a new goal is progress whatever happens to the derivation
        rw [e] at h
        refine .goal ?_
        have hsize := size_addGoal (q := q) hk
        have hsize' : ∀ (i j : Nat) (f f' : Subgoal W → Subgoal W),
            (((r.addGoal q first).modify i f).modify j f').table.goals.size = r.table.goals.size + 1 := by
          intro i j f f'
          rw [size_modify, size_modify, hsize]
        dsimp only at h
        split at h
        · split at h
          · injection h with _ e2
            subst e2
            omega
          · split at h
            · cases h
            · injection h with _ e2
              subst e2
              rw [hsize']
              omega
        · injection h with _ e2
          subst e2
          omega

theorem record_facts (g : Subgoal W) (c : Clause W) : (g.record c).2.facts = g.facts := by
  simp only [Subgoal.record]
  split <;> rfl

omit [Weight W] in
theorem resolve_length {c : Clause W} {f : Literal W} {d : Clause W} (h : c.resolve f = some d) :
    d.body.length = c.body.length - 1 := by
  unfold Clause.resolve at h
  split at h
  · cases h
  · rename_i hb
    obtain ⟨s, -, rfl⟩ := Option.map_eq_some_iff.1 h
    simp [hb]

theorem progress_resolve {i : Nat} {d : Derivation W} {f : Clause W} (h : r.step q (.resolve i d f) = (.ok ts, r')) :
    r.Progress q K (.resolve i d f) ts r' := by
  simp only [step, resolve] at h
  split at h
  · rename_i rest g hrest hi
    split at h
    · cases h
    · rename_i node trie _
      have h1 : r.SameFacts (r.modify i (fun g => { g with trie := trie })) := sameFacts_modify r i (fun _ => rfl)
      split at h
      · unfold completeRule at h
        split at h
        · exact .of_step h h1 (by simp [agendaCost, Task.cost])
        · rw [goal?_modify_self (f := fun g => { g with trie := trie }) hi] at h
          dsimp only at h
          split at h
          · cases h
          · rename_i c _
            refine .of_step h (h1.trans ?_) (by simp [agendaCost, Task.cost])
            have h2 := sameFacts_of_goal (f := fun _ => (Subgoal.record { g with trie := trie } c).2)
              (goal?_modify_self (f := fun g => { g with trie := trie }) hi) (record_facts { g with trie := trie } c)
            split
            · exact h2
            · exact h2
      · refine .of_step h h1 ?_
        have := resolve_length hrest
        simp only [agendaCost, List.map_cons, List.map_nil, List.sum_cons, List.sum_nil, Task.cost, this]
        omega
  · exact .of_step h (.refl r) (by simp [agendaCost, Task.cost])

/-- **A step makes a goal, finds a fact, or leaves less to do.** -/
theorem step_progress (hK : ∀ i, (r.table.facts i).length ≤ K) (ha : t.Asks q K r) (h : r.step q t = (.ok ts, r')) :
    r.Progress q K t ts r' := by
  cases t with
  | search i => exact progress_search ha h
  | tryFacts i left matched => exact progress_tryFacts h
  | tryRules i left matched => exact progress_tryRules h
  | decideNegation i j base => exact progress_decideNegation h
  | accept i f origin => exact progress_accept h
  | notify ws f => exact progress_notify h
  | feed i d left => exact progress_feed h
  | advance i d => exact progress_advance hK ha h
  | resolve i d f => exact progress_resolve h

/-- A valid run asks no primitives. -/
theorem Valid.asks {V : Vocabulary W} (hv : r.Valid V q.kb) (ht : t.Valid q V r []) : t.Asks q K r := by
  cases t with
  | search i =>
    intro g hi hp
    rw [(hv.goal i g hi).literal.not_isPrimitive] at hp
    cases hp
  | advance i d =>
    obtain ⟨⟨g, -, -, -, π, -, hres⟩, -⟩ := ht
    exact fun l hl => (hres.body l hl).1.not_isPrimitive
  | tryFacts _ _ _ | tryRules _ _ _ | decideNegation _ _ _ | accept _ _ _ | notify _ _ | feed _ _ _ | resolve _ _ _ =>
    trivial

end Run

/-! ## How much there can be -/

theorem finite_lists {α : Type} {S : Set α} (hS : S.Finite) (n : Nat) :
    {l : List α | l.length ≤ n ∧ ∀ x ∈ l, x ∈ S}.Finite := by
  have := hS.to_subtype
  refine ((List.finite_length_le S n).image (List.map Subtype.val)).subset ?_
  rintro l ⟨hlen, hmem⟩
  refine ⟨l.attach.map (fun x => ⟨x.1, hmem x.1 x.2⟩), by simpa using hlen, ?_⟩
  simp [List.map_map, Function.comp_def]

namespace Vocabulary

variable [Weight W] (V : Vocabulary W)

/-- No predicate of the vocabulary has more arguments. -/
def width : Nat := V.predicates.sup Predicate.arity

variable {V}

theorem HasLiteral.length_le {n : Nat} {l : Literal W} (h : V.HasLiteral n l) : l.terms.length ≤ V.width := by
  rw [Literal.isWellFormed_iff.1 h.wellFormed]
  exact Finset.le_sup (f := Predicate.arity) h.predicate

variable (V)

/-- **Up to the names of variables there are finitely many literals.** -/
theorem finite_variants : {k : String | ∃ n, ∃ l : Literal W, V.HasLiteral n l ∧ l.variant = k}.Finite := by
  let S : Set (Constant ⊕ Nat) := Sum.inl '' V.constants ∪ Sum.inr '' {n | n < V.width}
  have hS : S.Finite := (V.constants.finite_toSet.image _).union ((Set.finite_lt_nat _).image _)
  refine ((V.predicates.finite_toSet.prod (finite_lists hS V.width)).image
    (fun p => Literal.applied "," p.1.name (p.2.map Literal.shapeText))).subset ?_
  rintro k ⟨n, l, hl, rfl⟩
  refine ⟨(l.predicate, l.shape), ⟨hl.predicate, ?_, fun x hx => ?_⟩, (Literal.variant_eq l).symm⟩
  · rw [Literal.shape_length]
    exact hl.length_le
  · rcases Literal.mem_shape hx with ⟨c, rfl, hc⟩ | ⟨m, rfl, hm⟩
    · exact .inl ⟨c, hl.terms _ hc, rfl⟩
    · exact .inr ⟨m, Nat.lt_of_lt_of_le hm hl.length_le, rfl⟩

/-- The weighted atoms of the vocabulary, as facts. -/
def facts : Set (Clause W) :=
  {c | ∃ (a : Atom) (w : W), c = .fact (a.literal w) ∧ V.HasLiteral 0 (a.literal w) ∧ w ∈ V.weights}

theorem finite_facts : V.facts.Finite := by
  refine ((V.finite.prod (V.predicates.finite_toSet.prod (finite_lists V.constants.finite_toSet V.width))).image
    (fun p => Clause.fact (Atom.literal ⟨p.2.1, p.2.2⟩ p.1))).subset ?_
  rintro c ⟨a, w, rfl, hl, hw⟩
  refine ⟨(w, a.predicate, a.args), ⟨hw, hl.predicate, ?_, fun c hc => ?_⟩, rfl⟩
  · simpa [Atom.literal] using hl.length_le
  · exact hl.terms (.const c) (List.mem_map.2 ⟨c, hc, rfl⟩)

end Vocabulary

theorem nodup_length_le {α : Type} {S : Set α} (hS : S.Finite) {l : List α} (hl : l.Nodup) (h : ∀ x ∈ l, x ∈ S) :
    l.length ≤ hS.toFinset.card := by
  classical
  rw [← List.toFinset_card_of_nodup hl]
  refine Finset.card_le_card (fun x hx => ?_)
  rw [Set.Finite.mem_toFinset]
  exact h x (List.mem_toFinset.1 hx)

namespace Run

variable [Weight W] {q : Query W} {V : Vocabulary W}

omit [Weight W] in
/-- Goals that are indexed by their variants have different ones, so there are no more goals than variants. -/
theorem size_le_of_indexed {r : Run W} {T : Set String} (hT : T.Finite)
    (hindexed : ∀ i g, r.table.goal? i = some g → r.table.index[g.literal.variant]? = some i)
    (hmem : ∀ i g, r.table.goal? i = some g → g.literal.variant ∈ T) : r.table.goals.size ≤ hT.toFinset.card := by
  have hnodup : (r.table.goals.toList.map (fun g => g.literal.variant)).Nodup := by
    rw [List.Nodup, List.pairwise_iff_getElem]
    intro i j hi hj hij e
    rw [List.length_map, Array.length_toList] at hi hj
    simp only [List.getElem_map, Array.getElem_toList] at e
    have h1 := hindexed i _ (Array.getElem?_eq_getElem hi)
    rw [e, hindexed j _ (Array.getElem?_eq_getElem hj)] at h1
    injection h1 with h1
    omega
  have := nodup_length_le hT hnodup (fun k hk => ?_)
  · simpa using this
  · obtain ⟨g, hg, rfl⟩ := List.mem_map.1 hk
    obtain ⟨i, hi, e⟩ := List.mem_iff_getElem.1 hg
    rw [Array.length_toList] at hi
    exact hmem i g (by rw [Table.goal?, Array.getElem?_eq_getElem hi, ← e, Array.getElem_toList])

theorem Valid.size_le {r : Run W} (h : r.Valid V q.kb) : r.table.goals.size ≤ V.finite_variants.toFinset.card :=
  size_le_of_indexed V.finite_variants h.indexed (fun i g hi => ⟨_, _, (h.goal i g hi).literal, rfl⟩)

/-- A goal has its facts among the weighted atoms; a negation has one fact at most. -/
theorem Agenda.facts_le {r : Run W} {agenda : List (Task W)} (h : r.Agenda q V agenda) (i : Nat) :
    (r.table.facts i).length ≤ V.finite_facts.toFinset.card + 1 := by
  rw [Table.facts]
  cases hi : r.table.goal? i with
  | none => simp
  | some g =>
    have hg := h.valid.goal i g hi
    simp only [Option.map_some, Option.getD_some]
    cases hn : g.literal.isNegated with
    | true =>
      have := h.staked i g hi hn
      rw [Table.stake] at this
      omega
    | false =>
      have hnodup : g.facts.Nodup := hg.store.nodup.of_map Clause.key
      have := nodup_length_le V.finite_facts hnodup (fun f hf => ?_)
      · omega
      · have hf := hg.fact f hf
        obtain ⟨a, w, e, hw, -⟩ := hf.positive hn
        exact ⟨a, w, by rw [← e]; exact hf.eq_fact, e ▸ hf.literal, hw⟩

omit [Weight W] in
theorem agendaCost_append (K : Nat) (kb : KnowledgeBase W) (ts us : List (Task W)) :
    agendaCost K kb (ts ++ us) = agendaCost K kb ts + agendaCost K kb us := by simp [agendaCost]

omit [Weight W] in
/-- What goes down, in this order: the goals still to come, the facts still to come, and what the agenda costs. -/
def measure (q : Query W) (G K : Nat) (agenda : List (Task W)) (r : Run W) : Nat × Nat × Nat :=
  (G - r.table.goals.size, G * K - r.factTotal, agendaCost K q.kb agenda)

omit [Weight W] in
theorem measure_lt {r r' : Run W} {G K : Nat} {t : Task W} {ts : List (Task W)} (agenda : List (Task W))
    (hG : r'.table.goals.size ≤ G) (hM : r'.factTotal ≤ G * K) (h : r.Progress q K t ts r') :
    WellFoundedRelation.rel (measure q G K (ts ++ agenda) r') (measure q G K (t :: agenda) r) := by
  unfold measure
  rcases h with h | ⟨h1, h2⟩ | ⟨h1, h2, h3⟩
  · have : G - r'.table.goals.size < G - r.table.goals.size := by omega
    exact Prod.Lex.left _ _ this
  · have : G * K - r'.factTotal < G * K - r.factTotal := by omega
    rw [h1]
    exact Prod.Lex.right _ (Prod.Lex.left _ _ this)
  · have : agendaCost K q.kb (ts ++ agenda) < agendaCost K q.kb (t :: agenda) := by
      rw [agendaCost_append]
      simp only [agendaCost, List.map_cons, List.sum_cons] at h3 ⊢
      omega
    rw [h1, h2]
    exact Prod.Lex.right _ (Prod.Lex.right _ this)

omit [Weight W] in
theorem factTotal_le {r : Run W} {G K : Nat} (hG : r.table.goals.size ≤ G) (hK : ∀ i, (r.table.facts i).length ≤ K) :
    r.factTotal ≤ G * K := by
  calc r.factTotal ≤ ∑ _i ∈ Finset.range r.table.goals.size, K := Finset.sum_le_sum (fun i _ => hK i)
    _ = r.table.goals.size * K := by simp
    _ ≤ G * K := Nat.mul_le_mul_right K hG

/-- **An agenda in order is worked off**, task by task: after finitely many steps only what stood behind it is left. -/
theorem Agenda.worked_off [LawfulWeight W] (hq : q.Regular V) (front back : List (Task W)) (r : Run W)
    (h : r.Agenda q V (front ++ back)) :
    ∃ n r', r.Grows r' ∧ r'.Agenda q V back ∧
      ∀ steps, Run.execute q (n + steps) (front ++ back) r = Run.execute q steps back r' := by
  match front with
  | [] => exact ⟨0, r, .refl r, h, fun steps => by rw [Nat.zero_add]; rfl⟩
  | t :: front =>
    rw [List.cons_append] at h
    obtain ⟨ts, r₁, hstep, hgrow, hnext⟩ := Agenda.step_ok hq h
    have hprogress := step_progress h.facts_le (h.valid.asks h.tasks.1) hstep
    have hlt := measure_lt front hnext.valid.size_le (factTotal_le hnext.valid.size_le hnext.facts_le) hprogress
    rw [← List.append_assoc] at hnext
    obtain ⟨n, r', hgrow', hrest, hexec⟩ := worked_off hq (ts ++ front) back r₁ hnext
    refine ⟨n + 1, r', hgrow.trans hgrow', hrest, fun steps => ?_⟩
    rw [← hexec steps, Nat.add_right_comm, List.cons_append, Run.execute, hstep, List.append_assoc]
termination_by measure q V.finite_variants.toFinset.card (V.finite_facts.toFinset.card + 1) front r
decreasing_by exact hlt

end Run
end Credence
