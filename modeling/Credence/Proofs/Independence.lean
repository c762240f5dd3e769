import Credence.Proofs.Answers
import Credence.Proofs.Following
import Credence.Proofs.Making
/-!
# Calls do not depend on earlier ones

All that a solver keeps from one call to the next is its latest run, and of that a new run takes the pool alone.  Shifting
by the pools of the other, two solvers over the same program make one run out of theirs; so whatever they were asked
before, they give the same answers in the same order, the same proofs and the same counts, up to the numbers of wildcards,
or are stopped by errors of one kind (`Solver.solve_agrees`, `Solver.proofs_agrees`, `Solver.calls_independent`).
-/
namespace Credence

variable {W : Type} [Weight W] {n : Nat}

/-! ## Knowledge bases -/

namespace KnowledgeBase

variable {kb : KnowledgeBase W}

theorem Accepted.grounded (h : kb.Accepted) : kb.Grounded := fun c hc => (h.checked.fact c hc).grounded

theorem Made.grounded (h : kb.Made) : kb.Grounded := fun c hc => (h.formed.fact c hc).grounded

end KnowledgeBase

/-! ## Runs -/

/-- What stopped a run, but for its text. -/
def Run.Halt.kind : Run.Halt → Option Nat
  | .unfinished => none
  | .refused e  => some e.kind

/-- Both calls end well with related results, or both are stopped by errors of one kind. -/
inductive Agrees {α σ τ : Type} (R : α × σ → α × τ → Prop) : Except Run.Halt α × σ → Except Run.Halt α × τ → Prop
  | ok {a b : α} {s : σ} {s' : τ} : R (a, s) (b, s') → Agrees R (.ok a, s) (.ok b, s')
  | error {e e' : Run.Halt} {s : σ} {s' : τ} : e.kind = e'.kind → Agrees R (.error e, s) (.error e', s')

namespace Agrees

variable {α β σ τ υ : Type} {R : α × σ → α × τ → Prop} {x : Except Run.Halt α × σ} {y : Except Run.Halt α × τ}

/-- What is read off related results is related. -/
theorem map {f : α → σ → β} {g : α → τ → β} {S : β × σ → β × τ → Prop} (h : Agrees R x y)
    (hS : ∀ a b s s', R (a, s) (b, s') → S (f a s, s) (g b s', s')) :
    Agrees S (x.1.map (f · x.2), x.2) (y.1.map (g · y.2), y.2) := by
  cases h with
  | ok h => exact .ok (hS _ _ _ _ h)
  | error h => exact .error h

/-- Calls that agree with one call agree with each other. -/
theorem join {Q : α × υ → α × τ → Prop} {z : Except Run.Halt α × υ} (h : Agrees R x y) (h' : Agrees Q z y) :
    Agrees (fun a b => ∃ c, R a c ∧ Q b c) x z := by
  cases h with
  | ok h =>
    cases h' with
    | ok h' => exact .ok ⟨_, h, h'⟩
  | error h =>
    cases h' with
    | error h' => exact .error (h.trans h'.symm)

end Agrees

omit [Weight W] in
/-- What a task needs of the table lasts. -/
theorem Task.Closed.mono {r r' : Run W} {t : Task W} (h : t.Closed r) (hr : r.Extends r') : t.Closed r' := by
  cases t with
  | decideNegation i j base =>
    obtain ⟨g, hi, hn⟩ := h
    obtain ⟨g', hi', hg⟩ := hr i g hi
    exact ⟨g', hi', by rw [hg.literal]; exact hn⟩
  | tryFacts _ _ _ | accept _ _ _ | notify _ _ | feed _ _ _ | resolve _ _ _ => exact h
  | search _ | tryRules _ _ _ | advance _ _ => trivial

namespace Run

variable {q : Query W} {r r' : Run W}

/-- **A run in variables further on is the same run**, as far as it gets. -/
theorem execute_mirrors (hq : q.kb.Grounded) : ∀ (steps : Nat) (agenda : List (Task W)) {r r' : Run W}, r.Mirrors n r' →
    r.SoundTries → (∀ t ∈ agenda, t.Closed r) →
    Agrees (fun x y => x.2.Mirrors n y.2) (execute q steps agenda r)
      (execute q.plain steps (agenda.map (Task.shift n)) r')
  | 0,         [],          r, r', h, _,  _  => .ok h
  | _ + 1,     [],          r, r', h, _,  _  => .ok h
  | 0,         _ :: _,      r, r', _, _,  _  => .error rfl
  | steps + 1, t :: agenda, r, r', h, hr, ht => by
    obtain ⟨ht, hagenda⟩ := List.forall_mem_cons.1 ht
    have hstep := step_mirrors hq h ht
    have hsound := hr.step (q := q) t
    have hext := step_extends (q := q) hr t
    rw [List.map_cons, execute, execute]
    generalize r.step q t = out at hstep hsound hext
    generalize r'.step q.plain (t.shift n) = out' at hstep
    cases hstep with
    | refused he => exact .error (congrArg some he.symm)
    | on h₁ htasks =>
      dsimp only
      rw [← List.map_append]
      refine execute_mirrors hq steps _ h₁ hsound (fun u hu => ?_)
      rcases List.mem_append.1 hu with hu | hu
      · exact htasks u hu
      · exact (hagenda u hu).mono hext

/-- The facts of a goal are the same up to wildcards. -/
theorem Mirrors.facts (h : r.Mirrors n r') (i : Nat) : r'.table.facts i = (r.table.facts i).map (Clause.shift 0) := by
  rw [Table.facts, Table.facts, h.goal?]
  cases r.table.goal? i with
  | none => rfl
  | some g => exact Subgoal.facts_shift g

theorem mirrors_start (pool : VarPool) : (start pool : Run W).Mirrors n (start (pool.shift n)) := by
  refine ⟨rfl, by simp [start, Table.empty], rfl, .empty _, rfl, fun i g hi => ?_, fun k x hk => ?_⟩
  · rw [start_goal?] at hi
    cases hi
  · simp [start, Table.empty] at hk

end Run

/-! ## Solvers -/

/-- The answers are the same up to wildcards. -/
def SameAnswers (as bs : List (Clause W)) : Prop := as.map (Clause.shift 0) = bs.map (Clause.shift 0)

/-- The proofs, and those behind every negation, are the same up to wildcards. -/
structure ProofSet.Same (s s' : ProofSet W) : Prop where
  proofs    : s.proofs.map (Clause.shift 0) = s'.proofs.map (Clause.shift 0)
  negations : ∀ k : String, s.negations[k]?.map (List.map (Clause.shift 0)) = s'.negations[k]?.map (List.map (Clause.shift 0))

omit [Weight W] in
theorem ProofSet.Mirrors.same {s s' t : ProofSet W} (h : s.Mirrors t) (h' : s'.Mirrors t) : s.Same s' :=
  ⟨h.proofs.symm.trans h'.proofs, fun k => (h.negations k).symm.trans (h'.negations k)⟩

namespace Solver

/-- Solvers that differ in their latest runs only. -/
structure Twin (s s' : Solver W) : Prop where
  kb            : s'.kb = s.kb
  settings      : s'.settings = s.settings
  storeCapacity : s'.storeCapacity = s.storeCapacity
  patience      : s'.patience = s.patience

variable {s s' : Solver W} {l : Literal W}

theorem opening_mirrors (s : Solver W) (hl : l.isNegated = true → l.isSemiGrounded = true) (maxSamples : Option Nat) :
    (s.opening l).Mirrors n ((Run.start ((l.shift 0).shuffle (s.run.pool.shift n)).2).addGoal (s.asking maxSamples).plain
      (((l.shift 0).shuffle (s.run.pool.shift n)).1.shift 0)) := by
  obtain ⟨h1, h2⟩ := l.shuffle_shift (n := n) s.run.pool
  have hasked : (s.asked l).isNegated = true → (s.asked l).isSemiGrounded = true := fun hn =>
    asked_isSemiGrounded (hl (by
      obtain ⟨f, -, hc⟩ := l.shuffle_spec s.run.pool
      rw [asked, Literal.isNegated, hc.predicate] at hn
      exact hn))
  obtain ⟨r₁, e, h₁⟩ := (Run.mirrors_start (n := n) (l.shuffle s.run.pool).2).goalFor (s.asking maxSamples) hasked
  rw [h1, h2]
  change Run.Mirrors n _ (Run.goalFor (s.asking maxSamples).plain ((s.asked l).shift n) _).2.2
  rw [e]
  exact h₁

/-- **Two solvers that differ in their latest runs start runs that mirror one run.** -/
theorem start_agrees (hkb : s.kb.Grounded) (h : s.Twin s') (l : Literal W) (maxSamples : Option Nat) :
    Agrees (fun x y => y.2.settings = x.2.settings ∧ ∃ n n' r, x.2.run.Mirrors n r ∧ y.2.run.Mirrors n' r)
      (s.start l maxSamples) (s'.start l maxSamples) := by
  have hasking : s'.asking maxSamples = s.asking maxSamples := by
    rw [asking, asking, h.kb, h.settings, h.storeCapacity]
  rcases s.start_cases l maxSamples with ⟨e, hn, hc⟩ | ⟨hl, e⟩
  · rcases s'.start_cases l maxSamples with ⟨e', -⟩ | ⟨hl, -⟩
    · rw [e, e']
      exact .error rfl
    · rw [hl hn] at hc
      cases hc
  · rcases s'.start_cases l maxSamples with ⟨-, hn, hc⟩ | ⟨-, e'⟩
    · rw [hl hn] at hc
      cases hc
    · rw [hasking, h.patience] at e'
      -- Either run is shifted by the pool of the other.
      have hpool : s'.run.pool.shift s.run.pool.issued = s.run.pool.shift s'.run.pool.issued :=
        congrArg VarPool.mk (Nat.add_comm ..)
      have hopen := s.opening_mirrors (n := s'.run.pool.issued) hl maxSamples
      have hopen' := s'.opening_mirrors (n := s.run.pool.issued) hl maxSamples
      rw [hpool, hasking] at hopen'
      have hsearch : ∀ {r : Run W}, ∀ t ∈ [Task.search 0], t.Closed r := List.forall_mem_singleton.2 trivial
      have hrun := Run.execute_mirrors (q := s.asking maxSamples) hkb s.patience [.search 0] hopen
        (Run.soundTries_opening _) hsearch
      have hrun' := Run.execute_mirrors (q := s.asking maxSamples) hkb s.patience [.search 0] hopen'
        (Run.soundTries_opening _) hsearch
      rw [e, e']
      have hboth := hrun.join hrun'
      generalize Run.execute (s.asking maxSamples) s.patience [.search 0] (s.opening l) = x at hboth ⊢
      generalize Run.execute (s.asking maxSamples) s.patience [.search 0] (s'.opening l) = y at hboth ⊢
      cases hboth with
      | ok hr =>
        obtain ⟨c, h₁, h₂⟩ := hr
        exact .ok ⟨h.settings, _, _, _, h₁, h₂⟩
      | error he => exact .error he

/-- **Answers do not depend on the latest run.** -/
theorem solve_agrees (hkb : s.kb.Grounded) (h : s.Twin s') (l : Literal W) (maxSamples : Option Nat) :
    Agrees (fun x y => SameAnswers x.1 y.1 ∧ x.2.run.stats = y.2.run.stats) (s.solve l maxSamples)
      (s'.solve l maxSamples) := by
  rw [solve, solve, h.settings]
  refine (start_agrees hkb h l (maxSamples <|> s.settings.maxSamples)).map (f := fun _ s => s.run.table.facts 0)
    (g := fun _ s => s.run.table.facts 0) (fun _ _ x y hr => ?_)
  obtain ⟨-, n, n', r, h₁, h₂⟩ := hr
  exact ⟨(h₁.facts 0).symm.trans (h₂.facts 0), h₁.stats.symm.trans h₂.stats⟩

/-- The proofs of all answers of the latest run. -/
def proofSet (s : Solver W) : ProofSet W :=
  (Prover.ofSnapshot s.snapshot s.settings.pruneCertain).proofSet ((s.run.table.facts 0).map Clause.head)

/-- Runs that mirror one run have the same proofs. -/
theorem proofSet_same {n' : Nat} {r : Run W} (h : s.run.Mirrors n r) (h' : s'.run.Mirrors n' r)
    (hs : s'.settings = s.settings) : s.proofSet.Same s'.proofSet := by
  have hx := h.proofSet s.settings.pruneCertain ((s.run.table.facts 0).map Clause.head)
  have hy := h'.proofSet s'.settings.pruneCertain ((s'.run.table.facts 0).map Clause.head)
  -- Both are asked for the proofs of the same answers.
  have hheads : ((s'.run.table.facts 0).map Clause.head).map (Literal.shift 0) =
      ((s.run.table.facts 0).map Clause.head).map (Literal.shift 0) := by
    have hfacts := congrArg (List.map Clause.head) ((h'.facts 0).symm.trans (h.facts 0))
    rwa [List.map_map, List.map_map] at hfacts ⊢
  rw [hheads, hs] at hy
  rw [proofSet, proofSet, hs]
  exact hx.same hy

/-- **Nor do proofs.** -/
theorem proofs_agrees (hkb : s.kb.Grounded) (h : s.Twin s') (l : Literal W) :
    Agrees (fun x y => x.1.Same y.1 ∧ x.2.run.stats = y.2.run.stats) (s.proofs l) (s'.proofs l) := by
  rw [proofs, proofs]
  refine (start_agrees hkb h l none).map (f := fun _ => proofSet) (g := fun _ => proofSet) (fun _ _ x y hr => ?_)
  obtain ⟨hsettings, n, n', r, h₁, h₂⟩ := hr
  exact ⟨proofSet_same h₁ h₂ hsettings, h₁.stats.symm.trans h₂.stats⟩

theorem twin_of_start (s : Solver W) (l : Literal W) (maxSamples : Option Nat) : s.Twin (s.start l maxSamples).2 := by
  rcases s.start_cases l maxSamples with ⟨e, -⟩ | ⟨-, e⟩
  · rw [e]
    exact ⟨rfl, rfl, rfl, rfl⟩
  · rw [e]
    exact ⟨rfl, rfl, rfl, rfl⟩

end Solver

/-- A call to a solver. -/
inductive Call (W : Type) where
  | solve (query : Literal W) (maxSamples : Option Nat)
  | proofs (query : Literal W)

namespace Solver

/-- The solver after a call, whatever came of it. -/
def after (s : Solver W) : Call W → Solver W
  | .solve l maxSamples => (s.solve l maxSamples).2
  | .proofs l           => (s.proofs l).2

variable {s : Solver W}

theorem twin_foldl_after : ∀ (calls : List (Call W)) {s s' : Solver W}, s.Twin s' → s.Twin (calls.foldl after s')
  | [],            _, _,  h => h
  | call :: calls, s, s', h => by
    refine twin_foldl_after calls ?_
    have hcall : s'.Twin (s'.after call) := by
      cases call with
      | solve l maxSamples => exact s'.twin_of_start l _
      | proofs l => exact s'.twin_of_start l none
    exact ⟨hcall.kb.trans h.kb, hcall.settings.trans h.settings, hcall.storeCapacity.trans h.storeCapacity,
      hcall.patience.trans h.patience⟩

/-- **What a solver says does not depend on what it was asked before.**  After any calls, and whatever came of them, a
further call gives the answers in their order, the proofs and the counts that it gives without them, but for the ids of
wildcards, or is stopped by an error of the same kind.  The facts of every knowledge base are ground that is made by calls
(`KnowledgeBase.Made.grounded`) or holds accepted clauses only (`KnowledgeBase.Accepted.grounded`). -/
theorem calls_independent (hkb : s.kb.Grounded) (calls : List (Call W)) (l : Literal W) :
    (∀ maxSamples, Agrees (fun x y => SameAnswers x.1 y.1 ∧ x.2.run.stats = y.2.run.stats)
      (s.solve l maxSamples) ((calls.foldl after s).solve l maxSamples)) ∧
    Agrees (fun x y => x.1.Same y.1 ∧ x.2.run.stats = y.2.run.stats) (s.proofs l) ((calls.foldl after s).proofs l) := by
  have htwin : s.Twin (calls.foldl after s) := twin_foldl_after calls ⟨rfl, rfl, rfl, rfl⟩
  exact ⟨fun maxSamples => solve_agrees hkb htwin l maxSamples, proofs_agrees hkb htwin l⟩

/-- One edge is asked for a sample and for its proofs before it is asked again. -/
theorem calls_independent_oneEdge : (OneEdge.kb (1 : ℚ)).Grounded ∧
    let s : Solver ℚ := Solver.new (OneEdge.kb 1) .default
    let s' : Solver ℚ := [.solve OneEdge.query (some 0), .proofs OneEdge.query].foldl after s
    (∀ maxSamples, Agrees (fun x y => SameAnswers x.1 y.1 ∧ x.2.run.stats = y.2.run.stats)
      (s.solve OneEdge.query maxSamples) (s'.solve OneEdge.query maxSamples)) ∧
    Agrees (fun x y => x.1.Same y.1 ∧ x.2.run.stats = y.2.run.stats) (s.proofs OneEdge.query) (s'.proofs OneEdge.query) :=
  have hkb : (OneEdge.kb (1 : ℚ)).Grounded := (OneEdge.built (by norm_num)).accepted.grounded
  ⟨hkb, calls_independent hkb [.solve OneEdge.query (some 0), .proofs OneEdge.query] OneEdge.query⟩

end Solver
end Credence
