import Credence.Proofs.Saturation
import Credence.Solver.Basic
/-!
# Solvers come to rest

A solver opens a run with the goal of its query alone, in fresh variables.  Over a program in order that run has an
agenda in order, so it is worked off without an error, in a number of steps that depends on program and query only, and
the table it leaves is settled (`Solver.settles`).
-/
namespace Credence

variable {W : Type} [Weight W]

/-! ## The opening of a run -/

namespace Run

variable {q : Query W} {V : Vocabulary W}

omit [Weight W] in
theorem start_index (pool : VarPool) (k : String) : (start pool : Run W).table.index[k]? = none := by
  simp [start, Table.empty]

omit [Weight W] in
theorem start_goal? (pool : VarPool) (i : Nat) : (start pool : Run W).table.goal? i = none := by
  simp [start, Table.empty, Table.goal?]

theorem valid_start (pool : VarPool) (kb : KnowledgeBase W) : (start pool : Run W).Valid V kb := by
  refine ⟨fun i g hi => ?_, fun k i hk => ?_, fun i g hi => ?_, fun k v hk => ?_⟩
  · rw [start_goal?] at hi
    cases hi
  · rw [start_index] at hk
    cases hk
  · rw [start_goal?] at hi
    cases hi
  · simp [start, Table.empty] at hk

/-- **A run that opens with one goal to search is in order.** -/
theorem agenda_opening (hcap : q.storeCapacity = none) {pool : VarPool} {l : Literal W}
    (hl : V.HasLiteral pool.issued l) (hn : l.isNegated = true → l.isSemiGrounded = true) :
    ((start pool).addGoal q l).Agenda q V [.search 0] := by
  have hk := start_index (W := W) pool l.variant
  have hv := valid_start (V := V) pool q.kb
  have hnew := addGoal_new (q := q) hk
  have hserves : ∀ duty, ((start pool).addGoal q l).Owes q duty →
      ((start pool).addGoal q l).Serves q V (.search 0) duty := by
    intro duty hd
    rcases owes_addGoal (V := V) hk hd with hd | hs
    · cases duty with
      | fact i c =>
        obtain ⟨g, hi, -⟩ := hd
        rw [start_goal?] at hi
        cases hi
      | rule i c =>
        obtain ⟨g, hi, -⟩ := hd
        rw [start_goal?] at hi
        cases hi
      | meet w f =>
        obtain ⟨j, b, hj, -⟩ := hd
        rw [start_goal?] at hj
        cases hj
      | deny i =>
        obtain ⟨g, hi, -⟩ := hd
        rw [start_goal?] at hi
        cases hi
    · exact hs
  refine ⟨hv.addGoal hk hcap hl hn, ⟨⟨_, hnew⟩, trivial⟩, fun duty hd => .inr ⟨_, List.mem_cons_self, hserves duty hd⟩,
    fun j b c hj hnb hsole => .inr ⟨_, rfl, hserves _ ⟨b, hj, hnb, hsole.looked⟩⟩, fun i g hi hng => ?_⟩
  have hst : (start pool).Staked (.search 0) [.search 0] ((start pool).addGoal q l) :=
    staked_addGoal hv hk (fun i g hi _ => by rw [start_goal?] at hi; cases hi) (by simp [Task.stake, start, Table.empty])
  exact hst.new i g (start_goal? pool i) hi hng

end Run

/-! ## The solver -/

namespace Solver

/-- What a solver asks of a run for all answers. -/
def query (s : Solver W) : Query W := ⟨s.kb, s.settings, s.storeCapacity, none⟩

/-- The literal of the query in fresh variables. -/
def asked (s : Solver W) (l : Literal W) : Literal W := (l.shuffle s.run.pool).1

/-- The run with the goal of the query alone. -/
def opening (s : Solver W) (l : Literal W) : Run W := (Run.start (l.shuffle s.run.pool).2).addGoal s.query (s.asked l)

variable {s : Solver W} {V : Vocabulary W} {l : Literal W}

theorem start_eq (hn : l.isNegated = true → l.isSemiGrounded = true) :
    s.start l none = ((Run.execute s.query s.patience [.search 0] (s.opening l)).1,
      { s with run := (Run.execute s.query s.patience [.search 0] (s.opening l)).2 }) := by
  have hopen : (l.isNegated && !l.isSemiGrounded) = false := by
    cases hl : l.isNegated with
    | false => rfl
    | true => simp [hn hl]
  simp only [start, hopen, Bool.false_eq_true, if_false,
    Run.goalFor_new (Run.start_index (W := W) (l.shuffle s.run.pool).2 (l.shuffle s.run.pool).1.variant)]
  rfl

omit [Weight W] in
theorem asked_isSemiGrounded (h : l.isSemiGrounded = true) : (s.asked l).isSemiGrounded = true := by
  obtain ⟨f, hf, hc⟩ := Literal.shuffle_spec l s.run.pool
  refine List.all_eq_true.2 (fun u hu => ?_)
  rcases hc.mem_terms hu with ⟨c, rfl, -⟩ | ⟨v, hv, rfl⟩ | hw
  · rfl
  · have := List.all_eq_true.1 h _ hv.2
    simp only [Term.isConst, Term.isWildcard, hv.1, Bool.or_self, Bool.false_eq_true] at this
  · rw [hw, Bool.or_true]

omit [Weight W] in
theorem asked_covers_iff (a : Atom) : (s.asked l).Covers a ↔ l.Covers a := by
  obtain ⟨f, hf, hc⟩ := Literal.shuffle_spec l s.run.pool
  exact hc.covers_iff hf (fun v hv => hv) a

omit [Weight W] in
theorem asked_values (h : l.isSemiGrounded = true) (ν μ : Valuation) : (s.asked l).values ν = l.values μ := by
  obtain ⟨f, hf, hc⟩ := Literal.shuffle_spec l s.run.pool
  rw [asked, hc.values_eq hf (fun v hv => hv), Literal.values_of_isSemiGrounded h]

/-- The goal of the query stays in the first place. -/
theorem exists_root {r : Run W} (hg : (s.opening l).Grows r) : ∃ g, r.table.goal? 0 = some g ∧ g.literal = s.asked l := by
  obtain ⟨g, hi, hgg⟩ := hg.goal 0 _ (Run.addGoal_new (q := s.query) (Run.start_index (W := W) _ _))
  exact ⟨g, hi, hgg.literal⟩

theorem opening_agenda (hcap : s.storeCapacity = none) {n : Nat} (hl : V.HasLiteral n l)
    (hn : l.isNegated = true → l.isSemiGrounded = true) : (s.opening l).Agenda s.query V [.search 0] := by
  obtain ⟨f, hf, hc⟩ := Literal.shuffle_spec l s.run.pool
  exact Run.agenda_opening hcap (hl.copy hc hf (fun v hv => hv)) (fun h => asked_isSemiGrounded (hn h))

variable [LawfulWeight W]

/-- **A solver over a program in order comes to rest.** -/
theorem settles (hkb : s.kb.Regular V) (hcap : s.storeCapacity = none) {n : Nat} (hl : V.HasLiteral n l)
    (hn : l.isNegated = true → l.isSemiGrounded = true) :
    ∃ steps r, (s.opening l).Grows r ∧ r.Agenda s.query V [] ∧ ∀ patience, steps ≤ patience →
      ({ s with patience := patience } : Solver W).start l none = (.ok (), { s with patience := patience, run := r }) := by
  have hq : s.query.Regular V := ⟨hkb, hcap, rfl⟩
  obtain ⟨steps, r, hg, ha, he⟩ := Run.Agenda.worked_off hq [.search 0] [] (s.opening l) (opening_agenda hcap hl hn)
  refine ⟨steps, r, hg, ha, fun patience hp => ?_⟩
  obtain ⟨extra, rfl⟩ := Nat.exists_eq_add_of_le hp
  have hrun : Run.execute s.query (steps + extra) [.search 0] (s.opening l) = (.ok (), r) := by
    rw [show [Task.search 0] = [Task.search 0] ++ ([] : List (Task W)) from rfl, he extra]
    cases extra <;> rfl
  -- query and opening do not look at the patience
  have hrun' : Run.execute ({ s with patience := steps + extra } : Solver W).query (steps + extra) [.search 0]
      (({ s with patience := steps + extra } : Solver W).opening l) = (.ok (), r) := hrun
  rw [start_eq hn, hrun']

end Solver
end Credence
