import Credence.Proofs.Answers
import Credence.Proofs.Refusal
/-!
# Samples

A run that is to stop at some number of answers goes exactly as the run for all of them until it has that many, and then
its query takes no more, whatever is still on the agenda (`Run.execute_sample`).  So a sample is the beginning of all
answers (`Solver.solve_sample`).  The query is closed only as it takes an answer: who asks for none gets one.
-/
namespace Credence

variable {W : Type} [Weight W]

/-- The same query for all answers. -/
def Query.all (q : Query W) : Query W := { q with maxSamples := none }

namespace Run

variable {q : Query W} {r r' : Run W} {n : Nat} {fs : List (Clause W)}

/-- The query takes answers, and has fewer than asked for. -/
def Short (n : Nat) (r : Run W) : Prop :=
  ∃ g, r.table.goal? 0 = some g ∧ g.capped = false ∧ g.facts.length < max n 1

/-- The query has these answers and takes no more. -/
def Full (fs : List (Clause W)) (r : Run W) : Prop :=
  ∃ g, r.table.goal? 0 = some g ∧ g.capped = true ∧ g.facts = fs

/-- The query had these answers first. -/
def Begins (fs : List (Clause W)) (r : Run W) : Prop := ∃ g, r.table.goal? 0 = some g ∧ fs <+: g.facts

omit [Weight W] in
theorem Full.extends (h : r.Full fs) (hr : r.Extends r') : r'.Full fs := by
  obtain ⟨g, hi, hc, hf⟩ := h
  obtain ⟨g', hi', hg⟩ := hr 0 g hi
  obtain ⟨h1, h2⟩ := hg.frozen hc
  exact ⟨g', hi', h1, h2.trans hf⟩

omit [Weight W] in
theorem Begins.extends (h : r.Begins fs) (hr : r.Extends r') : r'.Begins fs := by
  obtain ⟨g, hi, hf⟩ := h
  obtain ⟨g', hi', hg⟩ := hr 0 g hi
  exact ⟨g', hi', hf.trans hg.facts⟩

omit [Weight W] in
theorem Short.develops (h : r.Short n) (hr : r.Develops r') : r'.Short n := by
  obtain ⟨g, hi, hc, hf⟩ := h
  obtain ⟨g', hi', hg⟩ := hr 0 g hi
  exact ⟨g', hi', hg.capped.trans hc, by rw [hg.facts]; exact hf⟩

/-! ## Two runs -/

/-- What a step does in the run for a sample and in the run for all answers: the same, or the last answer is found. -/
inductive Samples (n : Nat) (capped all : Stepped W) : Prop
  | same : capped = all → capped.2.Short n → Samples n capped all
  | last {ts : List (Task W)} {fs : List (Clause W)} : capped.1 = .ok ts → all.1 = .ok ts → fs.length = max n 1 →
    capped.2.Full fs → all.2.Begins fs → Samples n capped all

omit [Weight W] in
/-- A goal other than the query is out of reach of the limit. -/
theorem short_modify (h : r.Short n) {i : Nat} (hi : i ≠ 0) (f : Subgoal W → Subgoal W) : (r.modify i f).Short n := by
  obtain ⟨g, h0, hg⟩ := h
  exact ⟨g, by rw [goal?_modify, if_neg hi]; exact h0, hg⟩

theorem accept_sample (hn : q.maxSamples = some n) (h : r.Short n) (i : Nat) (f : Clause W) (origin : Origin) :
    Samples n (r.accept q i f origin) (r.accept q.all i f origin) := by
  unfold Run.accept
  cases hi : r.table.goal? i with
  | none => exact .same rfl h
  | some g =>
    dsimp only
    split
    · exact .same rfl h
    · rename_i hc
      cases hadd : g.addFact f origin with
      | none => exact .same rfl h
      | some out =>
        obtain ⟨fast, g'⟩ := out
        have hfacts := Subgoal.addFact_facts hadd
        have hcapped : g'.capped = false := by
          rw [(Subgoal.addFact_store hadd).2]
          simpa using hc
        have hcount : g'.factCount = g'.facts.length := rfl
        simp only [Query.all, hn, Option.any_some, Option.any_none, Bool.and_false, Bool.false_eq_true, if_false]
        cases hfull : (i == 0 && decide (n ≤ g'.factCount)) with
        | false =>
          simp only [Bool.false_eq_true, if_false]
          refine .same rfl ?_
          by_cases h0 : i = 0
          · subst h0
            refine ⟨g', goal?_modify_self hi, hcapped, ?_⟩
            have : ¬ n ≤ g'.factCount := by simpa using hfull
            omega
          · exact short_modify h h0 _
        | true =>
          simp only [if_true]
          have h0 : i = 0 ∧ n ≤ g'.factCount := by simpa using hfull
          obtain ⟨rfl, hle⟩ := h0
          -- the answer before this one did not close the query
          have hlen : g'.facts.length = max n 1 := by
            obtain ⟨b, hb, -, hshort⟩ := h
            rw [goal_eq hb hi] at hshort
            rw [hcount, hfacts, List.length_append, List.length_singleton] at hle
            rw [hfacts, List.length_append, List.length_singleton]
            omega
          exact .last rfl rfl hlen ⟨{ g' with capped := true }, goal?_modify_self hi, rfl, rfl⟩
            ⟨g', goal?_modify_self hi, List.prefix_refl _⟩

theorem step_sample (hn : q.maxSamples = some n) (h : r.Short n) (hr : r.SoundTries) (t : Task W) :
    Samples n (r.step q t) (r.step q.all t) := by
  cases t with
  | accept i f origin => exact accept_sample hn h i f origin
  | search _ | tryFacts _ _ _ | tryRules _ _ _ | decideNegation _ _ _ | notify _ _ | feed _ _ _ | advance _ _
  | resolve _ _ _ => exact .same rfl (h.develops (step_develops hr _ nofun))

/-- **A run for a sample is the run for all answers up to the last answer it takes.** -/
theorem execute_sample (hn : q.maxSamples = some n) : ∀ (steps : Nat) (agenda : List (Task W)) {r : Run W}, r.SoundTries →
    r.Short n → (Run.execute q steps agenda r = Run.execute q.all steps agenda r ∧ (Run.execute q steps agenda r).2.Short n) ∨
      ∃ fs : List (Clause W), fs.length = max n 1 ∧ (Run.execute q steps agenda r).2.Full fs ∧
        (Run.execute q.all steps agenda r).2.Begins fs
  | 0,         [],          r, _,  h => .inl ⟨rfl, h⟩
  | _ + 1,     [],          r, _,  h => .inl ⟨rfl, h⟩
  | 0,         _ :: _,      r, _,  h => .inl ⟨rfl, h⟩
  | steps + 1, t :: agenda, r, hr, h => by
    have hsound := hr.step (q := q) t
    have hsound' := hr.step (q := q.all) t
    have hstep := step_sample hn h hr t
    rw [Run.execute, Run.execute]
    generalize r.step q t = capped at hsound hstep
    generalize r.step q.all t = all at hsound' hstep
    obtain ⟨result, r₁⟩ := capped
    obtain ⟨result', r₂⟩ := all
    rcases hstep with ⟨e, h1⟩ | ⟨e, e', hlen, hfull, hbegins⟩
    · injection e with e e'
      subst e e'
      cases result with
      | error e => exact .inl ⟨rfl, h1⟩
      | ok ts => exact execute_sample hn steps (ts ++ agenda) hsound h1
    · simp only at e e'
      subst e e'
      exact .inr ⟨_, hlen, hfull.extends (execute_extends _ _ hsound), hbegins.extends (execute_extends _ _ hsound')⟩

end Run

/-! ## Answers -/

namespace Solver

variable {s : Solver W} {l : Literal W} {n : Nat}

/-- **A sample is the beginning of all answers**, one answer being the least there is to a sample. -/
theorem solve_sample (hs : s.settings.maxSamples = none) {sample answers : List (Clause W)}
    (hsample : (s.solve l (some n)).1 = .ok sample) (hall : (s.solve l none).1 = .ok answers) :
    sample = answers.take (max n 1) := by
  obtain ⟨-, -, rfl⟩ := of_solve_ok hsample
  obtain ⟨-, -, rfl⟩ := of_solve_ok hall
  have hlimit : s.asking (some n <|> s.settings.maxSamples) = s.asking (some n) := rfl
  have hunlimited : s.asking (none <|> s.settings.maxSamples) = (s.asking (some n)).all := by rw [hs]; rfl
  have hshort : (s.opening l).Short n := ⟨_, Run.addGoal_new (Run.start_index (W := W) _ _), rfl, by
    simp [Run.newGoal, Subgoal.new, Subgoal.facts, Store.empty, Store.toList]⟩
  have htries : (s.opening l).SoundTries := Run.soundTries_opening _
  rw [hlimit, hunlimited]
  rcases Run.execute_sample (q := s.asking (some n)) rfl s.patience [.search 0] htries hshort with
    ⟨e, g, hi, -, hlen⟩ | ⟨fs, hlen, ⟨g, hi, -, rfl⟩, g', hi', hprefix⟩
  · rw [← e, Table.facts, hi, Option.map_some, Option.getD_some]
    exact (List.take_of_length_le hlen.le).symm
  · rw [Table.facts, Table.facts, hi, hi', Option.map_some, Option.getD_some, Option.map_some, Option.getD_some, ← hlen]
    exact List.prefix_iff_eq_take.1 hprefix

end Solver

/-- The query for the paths from `a` is answered, with a limit and without. -/
theorem OneEdge.solve_ok (maxSamples : Option Nat) : ∃ steps, ∀ patience, steps ≤ patience → ∃ answers,
    (({ Solver.new (kb 1) .default with patience := patience } : Solver ℚ).solve query maxSamples).1 = .ok answers := by
  have hrule : ∀ c ∈ (kb 1).rules.clauses, c = rule := fun c hc => by
    rw [rules] at hc
    exact List.mem_singleton.1 hc
  have hord : (kb 1).Ordinary := fun c hc => by rw [hrule c hc]; decide
  obtain ⟨steps, result, r, hne, hstart⟩ :=
    Solver.start_ends (s := Solver.new (kb 1) .default) hord query (maxSamples <|> none)
  refine ⟨steps, fun patience hp => ?_⟩
  have h := hstart patience hp
  cases result with
  | ok u => exact ⟨_, Solver.solve_of_start h⟩
  | error halt =>
    cases halt with
    | unfinished => exact absurd rfl hne
    | refused e =>
      have hbuilt := built (w := 1) (by norm_num)
      rcases Solver.start_refused (s := { Solver.new (kb 1) .default with patience := patience }) hbuilt.accepted.checked
        (fun hn => by cases hn) (fun hn => by cases hn) (congrArg Prod.fst h) with
        ⟨-, ⟨c, hc, t, ht, hw⟩ | ⟨m, hm, hw⟩⟩ | ⟨-, m, hm, hd⟩
      · rw [hrule c hc] at ht
        have hhead : ∀ t ∈ rule.head.terms, t.isWildcard = false := by decide
        rw [hhead t ht] at hw
        cases hw
      · have hplain := (hbuilt.kept.plain_literals (fun c hc => by rw [hrule c hc]; decide) rfl rfl m hm).1
        rw [Literal.isPlain.wellFormed hplain] at hw
        cases hw
      · have hn : m.predicate.isNegated = false := by
          rcases hm with rfl | ⟨c, hc, hm⟩
          · rfl
          · rw [hrule c hc] at hm
            rw [List.mem_singleton.1 hm]
            rfl
        rw [hd.isNegated] at hn
        cases hn

namespace Solver

/-- Who asks for no path gets one. -/
theorem solve_sample_oneEdge : ∃ patience sample answers,
    (({ Solver.new (OneEdge.kb 1) .default with patience := patience } : Solver ℚ).solve OneEdge.query (some 0)).1 = .ok sample ∧
    (({ Solver.new (OneEdge.kb 1) .default with patience := patience } : Solver ℚ).solve OneEdge.query none).1 = .ok answers ∧
    sample = answers.take 1 := by
  obtain ⟨steps, hsample⟩ := OneEdge.solve_ok (some 0)
  obtain ⟨steps', hall⟩ := OneEdge.solve_ok none
  obtain ⟨sample, hsample⟩ := hsample (max steps steps') (le_max_left _ _)
  obtain ⟨answers, hall⟩ := hall (max steps steps') (le_max_right _ _)
  exact ⟨_, sample, answers, hsample, hall, solve_sample (n := 0) rfl hsample hall⟩

end Solver
end Credence
