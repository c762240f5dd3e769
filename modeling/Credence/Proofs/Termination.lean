import Credence.Proofs.Confinement
import Credence.Proofs.Recursion
import Credence.Proofs.Solving
/-!
# Queries come to an end

Over a program whose rules ask no primitives every query is worked off in finitely many steps, whether it recurses, rests
on its own negation or has wildcards where it likes (`Solver.start_ends`).  Nothing is lost for want of steps: there are
finitely many goals and facts, and every step makes one of them or leaves less to do.  Expanding proofs from what the run
leaves and compiling them end as well, for any snapshot and any proof set, so also for those that a negation is decided
from in the middle of a run (`Solver.queries_end`).
-/
namespace Credence

variable {W : Type} [Weight W]

/-! ## The tries of a run

Whatever the program, the tries of all goals stay sound, so that every climb in one of them comes to an end. -/

namespace Trie

variable {P : Literal W → Prop} {t t' : Trie W} {i c : Nat} {l : Literal W}

/-- Only a node that is there can be brought back. -/
theorem lt_of_revive (h : t.revive i = .ok t') : i < t.size := by
  by_contra hc
  rw [revive, reviveWithin, Array.getElem?_eq_none (Nat.le_of_not_lt hc)] at h
  cases h

theorem Sound.update (h : Sound P t) (hl : P l) (hs : t.update i l = .ok (c, t')) : Sound P t' := by
  cases hr : t.revive i with
  | error e =>
    rw [Trie.update, hr] at hs
    cases hs
  | ok t₁ =>
    obtain ⟨c', t'', hs', h', -⟩ := update_spec h (lt_of_revive hr) hl
    rw [hs] at hs'
    injection hs' with e
    injection e with _ e
    exact e ▸ h'

theorem Sound.wait (h : Sound P t) (hs : t.wait i l = .ok t') : Sound P t' := by
  cases hr : t.revive i with
  | error e =>
    rw [Trie.wait, hr] at hs
    cases hs
  | ok t₁ =>
    obtain ⟨t'', hs', h', -⟩ := wait_spec h (lt_of_revive hr) l
    rw [hs] at hs'
    injection hs' with e
    exact e ▸ h'

end Trie

namespace Run

variable {q : Query W} {r r' : Run W} {i : Nat} {g : Subgoal W}

/-- Every goal has a sound trie. -/
def SoundTries (r : Run W) : Prop := ∀ i g, r.table.goal? i = some g → g.trie.Sound (fun _ => True)

theorem SoundTries.of_goals_eq (h : r.SoundTries) (hg : r'.table.goals = r.table.goals) : r'.SoundTries := by
  intro i g hi
  rw [Table.goal?, hg] at hi
  exact h i g hi

theorem SoundTries.modify (h : r.SoundTries) {f : Subgoal W → Subgoal W}
    (hf : ∀ g, r.table.goal? i = some g → (f g).trie.Sound (fun _ => True)) : (r.modify i f).SoundTries := by
  intro j b hj
  rw [goal?_modify] at hj
  split at hj
  · rename_i e
    subst e
    obtain ⟨g, hi, rfl⟩ := Option.map_eq_some_iff.1 hj
    exact hf g hi
  · exact h j b hj

theorem SoundTries.goalFor (h : r.SoundTries) (q : Query W) (l : Literal W) : (r.goalFor q l).2.2.SoundTries := by
  rcases goalFor_cases q l r with ⟨j, hk, e⟩ | ⟨hk, e⟩
  · rw [e]
    exact h
  · rw [e]
    intro j b hj
    rw [addGoal_goal? hk] at hj
    split at hj
    · injection hj with hj
      exact hj ▸ Trie.sound_empty
    · exact h j b hj

theorem SoundTries.markUnprovable (h : r.SoundTries) (i : Nat) : (r.markUnprovable i).SoundTries := by
  unfold Run.markUnprovable
  split
  · exact h
  · rename_i g hi
    rw [← Array.foldl_toList]
    have key : ∀ (ws : List (Waiter W)) (r : Run W), r.SoundTries →
        (ws.foldl (fun r w => r.modify w.goal (fun p => { p with trie := (p.trie.cleanup g.literal).2 })) r).SoundTries := by
      intro ws
      induction ws with
      | nil => exact fun r h => h
      | cons w ws ih => exact fun r h => ih _ (h.modify (fun b hb => (Trie.cleanup_spec (h w.goal b hb) g.literal).1))
    have hcount : (r.count (fun s => { s with unprovable := s.unprovable + 1 })).SoundTries := h.of_goals_eq rfl
    exact key _ _ (hcount.modify (fun b hb => hcount i b hb))

theorem SoundTries.awaitGoal (h : r.SoundTries) (d : Derivation W) (first : Literal W) :
    (r.awaitGoal q i d first).2.SoundTries := by
  have h₁ := h.goalFor q first
  unfold Run.awaitGoal
  generalize r.goalFor q first = out at h₁
  obtain ⟨child, created, r₁⟩ := out
  dsimp only at h₁ ⊢
  split
  · rename_i c g hc hg
    split
    · exact h₁
    · split
      · exact h₁
      · rename_i trie htrie
        have h₂ : (r₁.modify i (fun g => { g with trie := trie })).SoundTries := h₁.modify (fun _ _ => (h₁ i g hg).wait htrie)
        exact h₂.modify (fun b hb => h₂ child b hb)
  · exact h₁

theorem SoundTries.completeRule (h : r.SoundTries) (node : Nat) (head : Literal W) :
    (r.completeRule i node head).2.SoundTries := by
  unfold Run.completeRule
  split
  · exact h
  · split
    · exact h
    · rename_i g hi
      split
      · exact h
      · rename_i rule _
        have htrie : (g.record rule).2.trie = g.trie := by
          unfold Subgoal.record
          dsimp only
          split <;> rfl
        have h₁ : (r.modify i (fun _ => (g.record rule).2)).SoundTries := h.modify (fun _ _ => by rw [htrie]; exact h i g hi)
        dsimp only
        split
        · exact h₁.of_goals_eq rfl
        · exact h₁

theorem soundTries_opening (pool : VarPool) {l : Literal W} : ((start pool).addGoal q l).SoundTries := by
  have h : (start pool : Run W).SoundTries := by
    intro i g hi
    rw [start_goal?] at hi
    cases hi
  exact h.goalFor q l

/-- **Every step keeps the tries sound**, also one that fails. -/
theorem SoundTries.step (h : r.SoundTries) (t : Task W) : (r.step q t).2.SoundTries := by
  cases t with
  | search i =>
    simp only [Run.step, Run.search]
    split
    · exact h
    · rename_i g hi
      split
      · unfold searchNegation
        split
        · exact h
        · split
          · exact h
          · rename_i base _
            exact h.goalFor q base
      · split
        · exact h.of_goals_eq (by rw [(runPrimitive_spec q g.literal r).2])
        · exact h
  | tryFacts i left matched =>
    simp only [Run.step, Run.tryFacts]
    split
    · exact h
    · exact h
    · split
      · exact h
      · split
        · exact h
        · exact h
  | tryRules i left matched =>
    simp only [Run.step, Run.tryRules]
    split
    · exact h
    · dsimp only
      split
      · exact h
      · exact h.markUnprovable i
    · split
      · exact h
      · split
        · exact h.of_goals_eq rfl
        · exact h.of_goals_eq rfl
  | decideNegation i j base =>
    simp only [Run.step, Run.decideNegation]
    split
    · split
      · exact h
      · split
        · exact h.markUnprovable i
        · exact h.of_goals_eq rfl
    · exact h
  | accept i f origin =>
    simp only [Run.step, Run.accept]
    split
    · exact h
    · rename_i g hi
      split
      · exact h
      · split
        · exact h
        · rename_i fast g' hadd
          have htrie : g'.trie.Sound (fun _ => True) := by
            rw [(Subgoal.addFact_rest hadd).2.2]
            exact h i g hi
          refine SoundTries.of_goals_eq (h.modify (i := i) (fun _ _ => ?_)) rfl
          split
          · exact htrie
          · exact htrie
  | notify ws f => cases ws <;> exact h
  | feed i d left => cases left <;> exact h
  | advance i d =>
    simp only [Run.step, Run.advance]
    split
    · exact h
    · rename_i first _ _
      split
      · exact h.of_goals_eq (by rw [(runPrimitive_spec q first r).2])
      · split
        · exact h
        · exact h.awaitGoal d first
  | resolve i d f =>
    simp only [Run.step, Run.resolve]
    split
    · rename_i rest g _ hi
      split
      · exact h
      · rename_i node trie htrie
        have h₁ : (r.modify i (fun g => { g with trie := trie })).SoundTries :=
          h.modify (fun _ _ => (h i g hi).update trivial htrie)
        split
        · exact h₁.completeRule node rest.head
        · exact h₁
    · exact h

/-- **So does a run**, however far it gets. -/
theorem SoundTries.execute : ∀ (steps : Nat) (agenda : List (Task W)) {r : Run W}, r.SoundTries →
    (Run.execute q steps agenda r).2.SoundTries
  | 0,         [],          r, h => h
  | _ + 1,     [],          r, h => h
  | 0,         _ :: _,      r, h => h
  | steps + 1, t :: agenda, r, h => by
    have hstep := h.step (q := q) t
    rw [Run.execute]
    generalize r.step q t = out at hstep
    obtain ⟨result, r₁⟩ := out
    cases result with
    | error e => exact hstep
    | ok ts => exact SoundTries.execute steps (ts ++ agenda) hstep

end Run

/-! ## Agendas within bounds -/

namespace Run

variable {q : Query W} {S asked : List (Literal W)} {r r' : Run W} {t : Task W} {ts agenda : List (Task W)} {i : Nat}

/-- A run and what it still has to do are within bounds: no negation can come to a second fact. -/
structure Bounded (q : Query W) (S asked : List (Literal W)) (r : Run W) (agenda : List (Task W)) : Prop where
  table  : r.Contained q S asked
  tasks  : ∀ t ∈ agenda, t.Confined q S r
  staked : ∀ i g, r.table.goal? i = some g → g.literal.isNegated = true →
    (agenda.map (Task.stake i)).sum + 2 * (r.table.facts i).length ≤ 3

omit [Weight W] in
/-- A task has no stake in a goal that is not there. -/
theorem stake_eq_zero (ht : t.Confined q S r) (hi : r.table.goal? i = none) : t.stake i = 0 := by
  have hne : ∀ {j g}, r.table.goal? j = some g → j ≠ i := by
    rintro j g hj rfl
    rw [hi] at hj
    cases hj
  cases t with
  | search j =>
    obtain ⟨g, hj⟩ := ht
    exact if_neg (hne hj)
  | decideNegation j k base =>
    obtain ⟨g, hj, -⟩ := ht
    exact if_neg (hne hj)
  | accept j f origin =>
    obtain ⟨g, hj, -⟩ := ht
    exact if_neg (hne hj)
  | tryFacts _ _ _ | tryRules _ _ _ | notify _ _ | feed _ _ _ | advance _ _ | resolve _ _ _ => rfl

/-- **The bounds hold all along.** -/
theorem Bounded.step (h : r.Bounded q S asked (t :: agenda)) (hq : q.Confined S asked) (hs : r.step q t = (.ok ts, r')) :
    r'.Bounded q S asked (ts ++ agenda) := by
  obtain ⟨ht, hagenda⟩ := List.forall_mem_cons.1 h.tasks
  have hstays := step_stays hq h.table ht hs
  refine ⟨hstays.table, List.forall_mem_append.2 ⟨hstays.tasks, fun u hu => (hagenda u hu).mono hstays.retains⟩, ?_⟩
  intro i g' hi' hn
  rw [List.map_append, List.sum_append]
  cases hi : r.table.goal? i with
  | some g =>
    obtain ⟨g'', hi'', e⟩ := hstays.retains i g hi
    have hng : g.literal.isNegated = true := by rw [← e, goal_eq hi'' hi']; exact hn
    have hold := hstays.old i g hi hng
    have hbefore := h.staked i g hi hng
    rw [List.map_cons, List.sum_cons] at hbefore
    omega
  | none =>
    have hnew := hstays.new i g' hi hi'
    have hzero : (agenda.map (Task.stake i)).sum = 0 := by
      refine List.sum_eq_zero (fun n hn => ?_)
      obtain ⟨u, hu, rfl⟩ := List.mem_map.1 hn
      exact stake_eq_zero (hagenda u hu) hi
    omega

theorem Contained.size_le (h : r.Contained q S asked) :
    r.table.goals.size ≤ (finite_variants_within S).toFinset.card :=
  size_le_of_indexed (finite_variants_within S) h.indexed (fun i g hi => ⟨_, (h.goal i g hi).literal, rfl⟩)

/-- No goal has more facts, and no primitive that is asked gives more answers. -/
noncomputable def factBound (q : Query W) (S asked : List (Literal W)) : Nat :=
  (q.finite_keys S).toFinset.card + (asked.map (fun l => (q.answers l).length)).sum + 1

theorem Bounded.facts_le (h : r.Bounded q S asked agenda) (i : Nat) : (r.table.facts i).length ≤ factBound q S asked := by
  unfold factBound
  cases hi : r.table.goal? i with
  | none => simp [Table.facts, hi]
  | some g =>
    have hg := h.table.goal i g hi
    cases hn : g.literal.isNegated with
    | true =>
      have := h.staked i g hi hn
      omega
    | false =>
      have hkeys := nodup_length_le (q.finite_keys S) hg.keyed.nodup (fun k hk => ?_)
      · rw [List.length_map] at hkeys
        simp only [Table.facts, hi, Option.map_some, Option.getD_some]
        exact hkeys.trans (by omega)
      · obtain ⟨f, hf, rfl⟩ := List.mem_map.1 hk
        exact ⟨f, (hg.fact f hf).2 hn, rfl⟩

theorem Contained.asks (h : r.Contained q S asked) (ht : t.Confined q S r) : t.Asks q (factBound q S asked) r := by
  cases t with
  | search i =>
    intro g hi hp
    have hmem := List.mem_map_of_mem (f := fun l => (q.answers l).length) ((h.goal i g hi).primitive hp)
    have := List.single_le_sum (fun _ _ => Nat.zero_le _) _ hmem
    unfold factBound
    omega
  | advance i d => exact fun l hl => (Run.Follows.body ht l hl).2
  | tryFacts _ _ _ | tryRules _ _ _ | decideNegation _ _ _ | accept _ _ _ | notify _ _ | feed _ _ _ | resolve _ _ _ =>
    trivial

/-- **A run within bounds comes to an end**, with its agenda empty or with an error; more steps change nothing. -/
theorem Bounded.ends (hq : q.Confined S asked) (agenda : List (Task W)) (r : Run W) (h : r.Bounded q S asked agenda) :
    ∃ n out, out.1 ≠ .error .unfinished ∧ ∀ steps, Run.execute q (n + steps) agenda r = out := by
  match agenda with
  | [] => exact ⟨0, (.ok (), r), nofun, fun steps => by cases steps <;> rfl⟩
  | t :: agenda =>
    cases hstep : r.step q t with
    | mk result r₁ =>
      cases result with
      | error e =>
        exact ⟨1, (.error (.refused e), r₁), nofun, fun steps => by rw [Nat.add_comm, Run.execute, hstep]⟩
      | ok ts =>
        have hnext := h.step hq hstep
        have hprogress := step_progress h.facts_le (h.table.asks (h.tasks t List.mem_cons_self)) hstep
        have hlt := measure_lt agenda hnext.table.size_le (factTotal_le hnext.table.size_le hnext.facts_le) hprogress
        obtain ⟨n, out, hout, hexec⟩ := ends hq (ts ++ agenda) r₁ hnext
        refine ⟨n + 1, out, hout, fun steps => ?_⟩
        rw [Nat.add_right_comm, Run.execute, hstep]
        exact hexec steps
termination_by measure q (finite_variants_within S).toFinset.card (factBound q S asked) agenda r
decreasing_by exact hlt

/-- A run that opens with one goal to search is within bounds. -/
theorem bounded_opening (pool : VarPool) {l : Literal W} (hS : l ∈ S) (hl : l ∈ asked) :
    ((start pool).addGoal q l).Bounded q S asked [.search 0] := by
  have hk := start_index (W := W) pool l.variant
  have hstart : (start pool : Run W).Contained q S asked := by
    constructor
    · intro i g hi
      rw [start_goal?] at hi
      cases hi
    · intro i g hi
      rw [start_goal?] at hi
      cases hi
  refine ⟨hstart.addGoal hk (Literal.within_of_mem hS) (fun _ => hl), ?_, fun i g _ _ => ?_⟩
  · exact List.forall_mem_singleton.2 ⟨_, addGoal_new hk⟩
  · rw [addGoal_facts hk, Table.facts, start_goal?]
    simp only [List.map_cons, List.map_nil, List.sum_cons, List.sum_nil, Task.stake]
    split <;> simp

end Run

/-! ## Queries -/

/-- The rules ask no primitives. -/
def KnowledgeBase.Ordinary (kb : KnowledgeBase W) : Prop :=
  ∀ c ∈ kb.rules.clauses, ∀ l ∈ c.body, l.isPrimitive = false

/-- The query itself may ask one: the literals over which the run then goes are those of the program, the query, what it
negates, and the answers to either. -/
theorem KnowledgeBase.Ordinary.confined {q : Query W} (h : q.kb.Ordinary) (l : Literal W) :
    ∃ S asked, q.Confined S asked ∧ l ∈ S ∧ l ∈ asked := by
  obtain ⟨bases, hbases⟩ : ∃ bases : List (Literal W), ∀ m, m ∈ bases ↔ l.isNegated = true ∧ l.negate = .ok m := by
    cases hm : l.negate with
    | error e => exact ⟨[], fun m => by simp⟩
    | ok base =>
      cases hn : l.isNegated with
      | true => exact ⟨[base], fun m => by simp [eq_comm]⟩
      | false => exact ⟨[], fun m => by simp⟩
  refine ⟨q.kb.facts.clauses.map Clause.head ++ (q.kb.rules.clauses.flatMap (fun c => c.head :: c.body) ++
    (l :: (l :: bases).flatMap q.answers)), l :: bases, ⟨fun c hc => ?_, fun c hc => ⟨?_, fun m hm => ⟨?_, h c hc m hm⟩⟩,
      fun m hm base hn hb hp => ?_, fun m hm a ha => ?_⟩, by simp, List.mem_cons_self⟩
  · exact List.mem_append_left _ (List.mem_map_of_mem hc)
  · exact List.mem_append_right _ (List.mem_append_left _ (List.mem_flatMap.2 ⟨c, hc, List.mem_cons_self⟩))
  · exact List.mem_append_right _ (List.mem_append_left _ (List.mem_flatMap.2 ⟨c, hc, List.mem_cons_of_mem _ hm⟩))
  · rcases List.mem_cons.1 hm with rfl | hm
    · exact List.mem_cons_of_mem _ ((hbases base).2 ⟨hn, hb⟩)
    · -- a primitive is not negated twice
      obtain ⟨hnl, hml⟩ := (hbases m).1 hm
      exact absurd ⟨hn, (Literal.negate_isPrimitive hb hn).1 hp⟩ (Literal.negate_isPrimitive hml hnl).2
  · exact List.mem_append_right _ (List.mem_append_right _ (List.mem_cons_of_mem _ (List.mem_flatMap.2 ⟨m, hm, ha⟩)))

namespace Solver

variable {s : Solver W}

/-- **Every query over a program whose rules ask no primitives is worked off**: from some number of steps on, the outcome
is the same, and it is never for want of steps. -/
theorem start_ends (hkb : s.kb.Ordinary) (l : Literal W) (maxSamples : Option Nat) :
    ∃ n result r, result ≠ .error .unfinished ∧ ∀ patience, n ≤ patience →
      ({ s with patience := patience } : Solver W).start l maxSamples = (result, { s with patience := patience, run := r }) := by
  unfold start
  cases hopen : l.isNegated && !l.isSemiGrounded with
  | true => exact ⟨0, .error (.refused (.openNegation l.text)), s.run, nofun, fun patience _ => rfl⟩
  | false =>
    let q : Query W := ⟨s.kb, s.settings, s.storeCapacity, maxSamples⟩
    obtain ⟨S, asked, hq, hS, hl⟩ := KnowledgeBase.Ordinary.confined (q := q) hkb (l.shuffle s.run.pool).1
    obtain ⟨n, out, hout, hexec⟩ := Run.Bounded.ends hq [.search 0] _ (Run.bounded_opening (l.shuffle s.run.pool).2 hS hl)
    refine ⟨n, out.1, out.2, hout, fun patience hp => ?_⟩
    obtain ⟨extra, rfl⟩ := Nat.exists_eq_add_of_le hp
    simp only [Bool.false_eq_true, if_false,
      Run.goalFor_new (Run.start_index (W := W) (l.shuffle s.run.pool).2 (l.shuffle s.run.pool).1.variant)]
    rw [show (Run.start (l.shuffle s.run.pool).2 : Run W).table.goals.size = 0 from rfl, hexec extra]

theorem proofs_ends (hkb : s.kb.Ordinary) (l : Literal W) : ∃ n result, result ≠ .error .unfinished ∧
    ∀ patience, n ≤ patience → (({ s with patience := patience } : Solver W).proofs l).1 = result := by
  obtain ⟨n, result, r, hresult, hstart⟩ := start_ends hkb l none
  let prove (_ : Unit) : ProofSet W :=
    (Prover.ofSnapshot r.table.snapshot s.settings.pruneCertain).proofSet ((r.table.facts 0).map Clause.head)
  refine ⟨n, result.map prove, fun h => hresult ?_, fun patience hp => ?_⟩
  · cases result with
    | ok u => cases h
    | error e =>
      injection h with h
      rw [h]
  · rw [proofs, hstart patience hp]
    rfl

end Solver

/-! ## Compiling

The diagram of a compiler has been reached by operations on live handles, also where a negation rests on itself.  So every
if-then-else that compiling asks for is one that ends. -/

namespace Compiler

variable {capacity : Nat} {growth : Float} {c c' : Compiler W}

/-- The diagram has been built as it should, and the finished negations are in it. -/
structure Sound (capacity : Nat) (growth : Float) (c : Compiler W) : Prop where
  reached : Diagram.Reached capacity growth c.diagram
  live    : ∀ (id : String) (f : Handle), c.negations[id]? = some f → c.diagram.Live f

/-- What has been compiled, with the compiler afterwards. -/
structure Leads (capacity : Nat) (growth : Float) (c : Compiler W) (out : Handle × Compiler W) : Prop where
  sound : out.2.Sound capacity growth
  grows : c.diagram.Grows out.2.diagram
  live  : out.2.diagram.Live out.1

/-- Several functions, one after the other. -/
structure LeadsAll (capacity : Nat) (growth : Float) (c : Compiler W) (out : List Handle × Compiler W) : Prop where
  sound : out.2.Sound capacity growth
  grows : c.diagram.Grows out.2.diagram
  live  : ∀ f ∈ out.1, out.2.diagram.Live f

omit [Weight W] in
theorem Sound.leadsNil (h : c.Sound capacity growth) : c.LeadsAll capacity growth ([], c) :=
  ⟨h, h.reached.ready.grows, fun _ hf => nomatch hf⟩

omit [Weight W] in
/-- The functions of the others come after that of the first. -/
theorem Leads.cons {f : Handle} {out : List Handle × Compiler W} (h : c.Leads capacity growth (f, c'))
    (hs : c'.LeadsAll capacity growth out) : c.LeadsAll capacity growth (f :: out.1, out.2) :=
  ⟨hs.sound, h.grows.trans hs.grows, List.forall_mem_cons.2 ⟨hs.grows.within.live h.live, hs.live⟩⟩

omit [Weight W] in
/-- An operation on the diagram. -/
theorem Sound.operate (h : c.Sound capacity growth) (op : Diagram.Operation) (hop : ∀ f ∈ op.operands, c.diagram.Live f)
    (hg : c.diagram.Grows (op.apply c.diagram)) (hd : c'.diagram = op.apply c.diagram) (hn : c'.negations = c.negations) :
    c'.Sound capacity growth := by
  refine ⟨hd ▸ h.reached.step op hop, fun id f hf => ?_⟩
  rw [hn] at hf
  rw [hd]
  exact hg.within.live (h.live id f hf)

theorem Sound.var (h : c.Sound capacity growth) (l : Literal W) : c.Leads capacity growth (c.var l) := by
  have hd := h.reached.ready
  unfold Compiler.var
  dsimp only
  split
  · rename_i v _
    have hg := Diagram.grows_var hd v
    obtain ⟨-, -, -, -, hlive, -⟩ := Diagram.var_spec hd v
    exact ⟨h.operate (.var v) (fun _ hf => nomatch hf) hg rfl rfl, hg, hlive⟩
  · have hg := Diagram.grows_var hd c.weights.size
    obtain ⟨-, -, -, -, hlive, -⟩ := Diagram.var_spec hd c.weights.size
    exact ⟨h.operate (.var c.weights.size) (fun _ hf => nomatch hf) hg rfl rfl, hg, hlive⟩

variable {deny : Literal W → Compiler W → Handle × Compiler W}
  (hdeny : ∀ l {c : Compiler W}, c.Sound capacity growth → c.Leads capacity growth (deny l c))

include hdeny

theorem Sound.conjuncts : ∀ (body : Body W) {c : Compiler W}, c.Sound capacity growth →
    c.LeadsAll capacity growth (Compiler.conjuncts deny body c)
  | [],      c, h => h.leadsNil
  | l :: ls, c, h => by
    unfold Compiler.conjuncts
    split
    · have h1 := hdeny l h
      exact h1.cons (Sound.conjuncts ls h1.sound)
    · split
      · exact Sound.conjuncts ls h
      · have h1 := h.var l
        exact h1.cons (Sound.conjuncts ls h1.sound)

theorem Sound.disjuncts : ∀ (proofs : List (Clause W)) {c : Compiler W}, c.Sound capacity growth →
    c.LeadsAll capacity growth (Compiler.disjuncts deny proofs c)
  | [],      c, h => h.leadsNil
  | p :: ps, c, h => by
    have h1 := Sound.conjuncts hdeny p.body h
    unfold Compiler.disjuncts
    generalize Compiler.conjuncts deny p.body c = out at h1
    obtain ⟨fs, c₁⟩ := out
    have hb := Diagram.andAll_spec h1.sound.reached.ready h1.live
    have h2 : c.Leads capacity growth ((c₁.diagram.andAll fs).1, { c₁ with diagram := (c₁.diagram.andAll fs).2 }) :=
      ⟨h1.sound.operate (.andAll fs) h1.live hb.grows rfl rfl, h1.grows.trans hb.grows, hb.live⟩
    exact h2.cons (Sound.disjuncts ps h2.sound)

theorem Sound.disjunction (proofs : List (Clause W)) (h : c.Sound capacity growth) :
    c.Leads capacity growth (Compiler.disjunction deny proofs c) := by
  have h1 := Sound.disjuncts hdeny proofs h
  unfold Compiler.disjunction
  generalize Compiler.disjuncts deny proofs c = out at h1
  obtain ⟨fs, c₁⟩ := out
  have hb := Diagram.orAll_spec h1.sound.reached.ready h1.live
  exact ⟨h1.sound.operate (.orAll fs) h1.live hb.grows rfl rfl, h1.grows.trans hb.grows, hb.live⟩

omit hdeny

/-- By induction on the bound; whether it is enough does not matter here. -/
theorem Sound.negation (set : ProofSet W) : ∀ (fuel : Nat) (pending : List String) (leaf : Literal W) {c : Compiler W},
    c.Sound capacity growth → c.Leads capacity growth (Compiler.negation set fuel pending leaf c)
  | 0,        pending, leaf, c, h => h.var leaf
  | fuel + 1, pending, leaf, c, h => by
    have hd := h.reached.ready
    unfold Compiler.negation
    dsimp only
    cases hknown : c.negations[leaf.id]? with
    | some f => exact ⟨h, hd.grows, h.live leaf.id f hknown⟩
    | none =>
      cases set.negation? leaf with
      | none =>
        dsimp only
        split
        · exact ⟨h, hd.grows, Diagram.live_top⟩
        · exact h.var leaf
      | some base =>
        dsimp only
        split
        · exact h.var leaf
        · have h1 := Sound.disjunction (fun l c hc => Sound.negation set fuel (leaf.id :: pending) l hc) base h
          generalize Compiler.disjunction (Compiler.negation set fuel (leaf.id :: pending)) base c = out at h1
          obtain ⟨f, c₁⟩ := out
          have hb := Diagram.not_spec h1.sound.reached.ready h1.live
          have h2 : ({ c₁ with diagram := (c₁.diagram.not f).2 } : Compiler W).Sound capacity growth :=
            h1.sound.operate (.not f) (List.forall_mem_singleton.2 h1.live) hb.grows rfl rfl
          refine ⟨⟨h2.reached, fun id g hg => ?_⟩, h1.grows.trans hb.grows, hb.live⟩
          simp only [Std.HashMap.getElem?_insert] at hg
          split at hg
          · injection hg with hg
            exact hg ▸ hb.live
          · exact h2.live id g hg

end Compiler

namespace Estimator

/-- **What is compiled has been reached by operations on live handles**, from any proof set and with any setting. -/
theorem compile_reached (e : Estimator W) (l : Literal W) :
    Diagram.Reached e.settings.cacheCapacity e.settings.siftingGrowth (e.compile l).diagram ∧
      (e.compile l).diagram.Live (e.compile l).root := by
  have hstart : (Compiler.start e.settings : Compiler W).Sound e.settings.cacheCapacity e.settings.siftingGrowth :=
    ⟨.empty, fun id f hf => by simp [Compiler.start] at hf⟩
  have h := Compiler.Sound.disjunction (fun m c hc => hc.negation e.set (e.set.negations.size + 1) [] m) (e.proofsFor l) hstart
  have hdiagram : (e.compile l).diagram = if e.settings.siftBeforeCount && !(e.built l).1.isTerminal then
      ((e.built l).2.diagram.reference (e.built l).1).sift.2 else (e.built l).2.diagram := rfl
  change Compiler.Leads _ _ _ (e.built l) at h
  rw [show (e.compile l).root = (e.built l).1 from rfl, hdiagram]
  split
  · have href : Diagram.Reached e.settings.cacheCapacity e.settings.siftingGrowth
        ((e.built l).2.diagram.reference (e.built l).1) :=
      h.sound.reached.step (.reference (e.built l).1) (List.forall_mem_singleton.2 h.live)
    exact ⟨href.step .sift (List.forall_mem_nil _),
      (Diagram.sift_spec href.ready).live _ (Diagram.mem_addRef _ _) h.live⟩
  · exact ⟨h.sound.reached, h.live⟩

end Estimator

/-! ## All of it -/

/-- The recursions that make a proof set end: the expansion of a target, and the search for negations. -/
structure Prover.Ends (p : Prover W) (targets : List (Literal W)) : Prop where
  expand : ∀ l, EndsAt p.expandStep ([], l, ∅) (p.expandWithin (p.rules.size + 2) [] l ∅)
  close  : EndsAt p.closeStep (ProofSet.negationLeaves (p.proofsOf targets), ∅) (p.proofSet targets).negations

/-- The recursions that make a probability from a proof set end: compiling a negation, the operations on the diagrams that
this leads to, and the weighted count of the one it ends with. -/
structure Estimator.Ends (e : Estimator W) (l : Literal W) : Prop where
  negation : ∀ leaf c, EndsAt (Compiler.negationStep e.set) ([], leaf, c)
    (Compiler.negation e.set (e.set.negations.size + 1) [] leaf c)
  reached  : Diagram.Reached e.settings.cacheCapacity e.settings.siftingGrowth (e.compile l).diagram
  ready    : ∀ {d}, Diagram.Reached e.settings.cacheCapacity e.settings.siftingGrowth d → d.Ready
  ite      : ∀ {d f g h}, d.Ready → d.Live f → d.Live g → d.Live h → EndsAt Diagram.iteStep (d, f, g, h) (d.ite f g h)
  search   : ∀ {d : Diagram}, d.Ready → ∀ seen f, EndsAt d.reachStep (seen, f) (d.reachFrom (d.varCount + 1) seen f)
  count    : ∃ memo, EndsAt ((e.compile l).diagram.countStep (fun v => (e.compile l).weights.getD v 1))
    (∅, (e.compile l).root) ((e.compile l).probability, memo)

theorem Prover.ofSnapshot_ends (s : Snapshot W) (prune : Bool) (targets : List (Literal W)) :
    (Prover.ofSnapshot s prune).Ends targets :=
  ⟨Prover.expand_ends _, Prover.proofSet_ends s prune targets⟩

theorem Estimator.ends (e : Estimator W) (l : Literal W) : e.Ends l where
  negation leaf c := Compiler.negation_ends e.set leaf c
  reached := (e.compile_reached l).1
  ready h := h.ready
  ite hd hf hg hh := Diagram.ite_ends hd hf hg hh
  search hd := Diagram.reach_ends hd.valid
  count := ⟨_, Diagram.count_ends (e.compile_reached l).1.ready.valid _ _⟩

/-- Every recursion and every loop that a query and an estimate from its proofs go through comes to an end. -/
structure Solver.Ends (s : Solver W) (l : Literal W) : Prop where
  /-- The run, whether or not the number of answers is limited. -/
  start    : ∀ maxSamples, ∃ n result r, result ≠ .error .unfinished ∧ ∀ patience, n ≤ patience →
    ({ s with patience := patience } : Solver W).start l maxSamples = (result, { s with patience := patience, run := r })
  /-- The run for the proofs of all answers. -/
  proofs   : ∃ n result, result ≠ .error .unfinished ∧ ∀ patience, n ≤ patience →
    (({ s with patience := patience } : Solver W).proofs l).1 = result
  /-- Following bindings, at every stage of a unification. -/
  bindings : ∀ as bs t, EndsAt (Term.unifyAll as bs .empty).2.chaseStep t ((Term.unifyAll as bs .empty).2.chase t)
  /-- The climbs in the tries of a run, after any number of steps. -/
  tries    : ∀ (q : Query W) pool m steps i g,
    (Run.execute q steps [.search 0] ((Run.start pool).addGoal q m)).2.table.goal? i = some g → g.trie.Sound (fun _ => True)
  climbs   : ∀ t : Trie W, t.Sound (fun _ => True) → t.Ends
  /-- The proofs from any snapshot, so also where a negation is decided in the middle of a run. -/
  expand   : ∀ (snapshot : Snapshot W) (prune : Bool) (targets : List (Literal W)),
    (Prover.ofSnapshot snapshot prune).Ends targets
  /-- The probability from any proof set. -/
  estimate : ∀ (e : Estimator W) (target : Literal W), e.Ends target

/-- **Queries come to an end** over every program whose rules ask no primitives. -/
theorem Solver.queries_end {s : Solver W} (hkb : s.kb.Ordinary) (l : Literal W) : s.Ends l where
  start := start_ends hkb l
  proofs := proofs_ends hkb l
  bindings := Subst.chase_ends
  tries _ pool _ steps i g hi := (Run.soundTries_opening pool).execute steps [.search 0] i g hi
  climbs _ ht := ht.ends
  expand := Prover.ofSnapshot_ends
  estimate := Estimator.ends

namespace Standoff

/-! Who wins a game is said by negation of the very same, and who can get where by recursion from the left. -/

def x : Term := .var ⟨0, false⟩
def y : Term := .var ⟨1, false⟩
def z : Term := .var ⟨2, false⟩
def anywhere : Term := .var ⟨3, true⟩

def move (w : Double) (t u : Term) : Literal Double := ⟨w, ⟨"move", 2⟩, [t, u]⟩
def path (t u : Term) : Literal Double := ⟨1, ⟨"path", 2⟩, [t, u]⟩
def win (t : Term) : Literal Double := ⟨1, ⟨"win", 1⟩, [t]⟩
def lost (t : Term) : Literal Double := ⟨1, ⟨"~win", 1⟩, [t]⟩
def blocked (t : Term) : Literal Double := ⟨1, ⟨"~move", 2⟩, [t, anywhere]⟩

def rules : List (Clause Double) :=
  [⟨path x y, [path x z, move 1 z y]⟩, ⟨path x y, [move 1 x y]⟩, ⟨win x, [move 1 x y, lost y]⟩, ⟨win x, [path x y, blocked y]⟩]

def kb : KnowledgeBase Double :=
  rules.foldl KnowledgeBase.storeRule
    ((KnowledgeBase.empty .empty).storeFact (.fact (move ⟨0x3FE0000000000000⟩ (.const ⟨"a"⟩) (.const ⟨"b"⟩)))).2

theorem ordinary : kb.Ordinary := by
  have hrules : kb.rules = rules.foldl Shelf.push .empty := by
    simp only [kb, rules, List.foldl_cons, List.foldl_nil, KnowledgeBase.storeRule, KnowledgeBase.storeFact,
      KnowledgeBase.empty, Std.HashSet.contains_empty, Bool.false_eq_true, if_false]
  have hall : (rules.foldl Shelf.push .empty).clauses.all (fun c => c.body.all (fun l => !l.isPrimitive)) = true := by
    decide
  intro c hc l hl
  rw [hrules] at hc
  simpa using List.all_eq_true.1 (List.all_eq_true.1 hall c hc) l hl

end Standoff

/-- Who wins from anywhere, where a win may rest on itself, is found out in finitely many steps. -/
theorem Solver.queries_end_standoff : Standoff.kb.Ordinary ∧ ∃ n result, result ≠ .error .unfinished ∧
    ∀ patience, n ≤ patience → (({ Solver.new Standoff.kb .default with patience := patience } : Solver Double).proofs
      (Standoff.win Standoff.anywhere)).1 = result :=
  ⟨Standoff.ordinary, (Solver.queries_end (s := Solver.new Standoff.kb .default) Standoff.ordinary _).proofs⟩

end Credence
