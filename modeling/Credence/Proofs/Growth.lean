import Credence.Proofs.Termination
/-!
# What every run keeps

Whatever the program, no step takes anything back.  A step that accepts a fact may put one behind the others of its goal,
unless the goal takes no more; every other step leaves the facts of all goals as they are (`step_develops`).  Waits are
dropped and branches pruned, but nodes of a trie, completed rules and what was asserted stay (`step_extends`).
-/
namespace Credence

variable {W : Type}

/-- A goal with the same facts, and with everything else it had. -/
structure Subgoal.Develops (g g' : Subgoal W) : Prop where
  literal  : g'.literal = g.literal
  facts    : g'.facts = g.facts
  capped   : g'.capped = g.capped
  asserted : ∀ id, g.asserted.contains id = true → g'.asserted.contains id = true
  grounded : ∀ c ∈ g.grounded, c ∈ g'.grounded
  trie     : g.trie.Keeps g'.trie

/-- A goal with perhaps more facts, unless it took no more. -/
structure Subgoal.Extends (g g' : Subgoal W) : Prop where
  literal  : g'.literal = g.literal
  facts    : g.facts <+: g'.facts
  frozen   : g.capped = true → g'.capped = true ∧ g'.facts = g.facts
  asserted : ∀ id, g.asserted.contains id = true → g'.asserted.contains id = true
  grounded : ∀ c ∈ g.grounded, c ∈ g'.grounded
  trie     : g.trie.Keeps g'.trie

namespace Subgoal

variable {g g' g'' : Subgoal W}

theorem Develops.refl (g : Subgoal W) : g.Develops g := ⟨rfl, rfl, rfl, fun _ h => h, fun _ h => h, .refl _⟩

theorem Develops.trans (h : g.Develops g') (h' : g'.Develops g'') : g.Develops g'' :=
  ⟨h'.literal.trans h.literal, h'.facts.trans h.facts, h'.capped.trans h.capped,
    fun i hi => h'.asserted i (h.asserted i hi), fun c hc => h'.grounded c (h.grounded c hc), h.trie.trans h'.trie⟩

theorem Develops.extends (h : g.Develops g') : g.Extends g' :=
  ⟨h.literal, h.facts ▸ List.prefix_refl _, fun hc => ⟨h.capped.trans hc, h.facts⟩, h.asserted, h.grounded, h.trie⟩

theorem Extends.refl (g : Subgoal W) : g.Extends g := (Develops.refl g).extends

theorem Extends.trans (h : g.Extends g') (h' : g'.Extends g'') : g.Extends g'' := by
  refine ⟨h'.literal.trans h.literal, h.facts.trans h'.facts, fun hc => ?_, fun i hi => h'.asserted i (h.asserted i hi),
    fun c hc => h'.grounded c (h.grounded c hc), h.trie.trans h'.trie⟩
  obtain ⟨h1, h2⟩ := h.frozen hc
  obtain ⟨h3, h4⟩ := h'.frozen h1
  exact ⟨h3, h4.trans h2⟩

variable [Weight W]

theorem develops_record (g : Subgoal W) (c : Clause W) : g.Develops (g.record c).2 := by
  unfold record
  dsimp only
  split
  · exact .refl g
  · exact ⟨rfl, rfl, rfl, fun _ h => h, fun d hd => Array.mem_push_of_mem c hd, .refl _⟩

/-- A goal that takes facts, with one more; it may take no more then. -/
theorem extends_addFact {f : Clause W} {origin : Origin} {fast : Bool} (hs : g.addFact f origin = some (fast, g'))
    (hc : g.capped = false) (full : Bool) : g.Extends (if full = true then { g' with capped := true } else g') := by
  have hopen : ∀ {p : Prop}, g.capped = true → p := fun h => absurd h (by simp [hc])
  have hext : g.Extends g' := by
    have hfacts := addFact_facts hs
    obtain ⟨-, rfl⟩ := addFact_store hs
    refine ⟨rfl, ⟨[f], hfacts.symm⟩, hopen, fun id hid => ?_, fun _ h => h, .refl _⟩
    dsimp only
    split
    · rw [Std.HashSet.contains_insert, hid, Bool.or_true]
    · exact hid
  split
  · exact ⟨hext.literal, hext.facts, hopen, hext.asserted, hext.grounded, hext.trie⟩
  · exact hext

end Subgoal

/-! ## Tries -/

namespace Trie

variable [Weight W] {P : Literal W → Prop} {t t' : Trie W} {i c : Nat} {l : Literal W}

theorem Sound.keeps_update (h : Sound P t) (hl : P l) (hs : t.update i l = .ok (c, t')) : t.Keeps t' := by
  cases hr : t.revive i with
  | error e =>
    rw [Trie.update, hr] at hs
    cases hs
  | ok t₁ =>
    obtain ⟨c', t'', hs', -, hk, -⟩ := update_spec h (lt_of_revive hr) hl
    rw [hs] at hs'
    injection hs' with e
    injection e with _ e
    exact e ▸ hk

theorem Sound.keeps_wait (h : Sound P t) (hs : t.wait i l = .ok t') : t.Keeps t' := by
  cases hr : t.revive i with
  | error e =>
    rw [Trie.wait, hr] at hs
    cases hs
  | ok t₁ =>
    obtain ⟨t'', hs', -, hk⟩ := wait_spec h (lt_of_revive hr) l
    rw [hs] at hs'
    injection hs' with e
    exact e ▸ hk

end Trie

/-! ## Runs -/

/-- Every goal is still there, with the same facts. -/
def Run.Develops (r r' : Run W) : Prop :=
  ∀ i g, r.table.goal? i = some g → ∃ g', r'.table.goal? i = some g' ∧ g.Develops g'

/-- **Every goal is still there, with all it had.** -/
def Run.Extends (r r' : Run W) : Prop :=
  ∀ i g, r.table.goal? i = some g → ∃ g', r'.table.goal? i = some g' ∧ g.Extends g'

namespace Run

variable {q : Query W} {r r' r'' : Run W} {i : Nat} {g : Subgoal W}

theorem Develops.trans (h : r.Develops r') (h' : r'.Develops r'') : r.Develops r'' := by
  intro i g hi
  obtain ⟨g', hi', hg⟩ := h i g hi
  obtain ⟨g'', hi'', hg'⟩ := h' i g' hi'
  exact ⟨g'', hi'', hg.trans hg'⟩

theorem Develops.extends (h : r.Develops r') : r.Extends r' := by
  intro i g hi
  obtain ⟨g', hi', hg⟩ := h i g hi
  exact ⟨g', hi', hg.extends⟩

theorem develops_of_goals_eq (h : r'.table.goals = r.table.goals) : r.Develops r' := fun i g hi =>
  ⟨g, by rw [Table.goal?, h]; exact hi, .refl g⟩

theorem Develops.refl (r : Run W) : r.Develops r := develops_of_goals_eq rfl

theorem Extends.refl (r : Run W) : r.Extends r := (Develops.refl r).extends

theorem Extends.trans (h : r.Extends r') (h' : r'.Extends r'') : r.Extends r'' := by
  intro i g hi
  obtain ⟨g', hi', hg⟩ := h i g hi
  obtain ⟨g'', hi'', hg'⟩ := h' i g' hi'
  exact ⟨g'', hi'', hg.trans hg'⟩

theorem develops_modify {f : Subgoal W → Subgoal W} (hf : ∀ g, r.table.goal? i = some g → g.Develops (f g)) :
    r.Develops (r.modify i f) := by
  intro j b hj
  rw [goal?_modify]
  split
  · rename_i e
    subst e
    exact ⟨f b, by rw [hj]; rfl, hf b hj⟩
  · exact ⟨b, hj, .refl b⟩

theorem extends_modify {f : Subgoal W → Subgoal W} (hf : ∀ g, r.table.goal? i = some g → g.Extends (f g)) :
    r.Extends (r.modify i f) := by
  intro j b hj
  rw [goal?_modify]
  split
  · rename_i e
    subst e
    exact ⟨f b, by rw [hj]; rfl, hf b hj⟩
  · exact ⟨b, hj, .refl b⟩

/-- What does not touch literal, facts and records of a goal, and keeps the nodes of its trie. -/
theorem develops_setTrie {t : Subgoal W → Trie W} (hf : ∀ g, r.table.goal? i = some g → g.trie.Keeps (t g)) :
    r.Develops (r.modify i (fun g => { g with trie := t g })) :=
  develops_modify (fun g hi => ⟨rfl, rfl, rfl, fun _ h => h, fun _ h => h, hf g hi⟩)

theorem develops_goalFor (q : Query W) (l : Literal W) (r : Run W) : r.Develops (r.goalFor q l).2.2 := by
  rcases goalFor_cases q l r with ⟨j, -, e⟩ | ⟨hk, e⟩
  · rw [e]
    exact .refl r
  · rw [e]
    intro j b hj
    have := Table.goal?_lt hj
    rw [addGoal_goal? hk, if_neg (by omega)]
    exact ⟨b, hj, .refl b⟩

variable [Weight W]

theorem develops_markUnprovable (h : r.SoundTries) (i : Nat) : r.Develops (r.markUnprovable i) := by
  unfold Run.markUnprovable
  split
  · exact .refl r
  · rename_i g hi
    rw [← Array.foldl_toList]
    have key : ∀ (ws : List (Waiter W)) (r : Run W), r.SoundTries → r.Develops
        (ws.foldl (fun r w => r.modify w.goal (fun p => { p with trie := (p.trie.cleanup g.literal).2 })) r) := by
      intro ws
      induction ws with
      | nil => exact fun r _ => .refl r
      | cons w ws ih =>
        intro r h
        have hd : r.Develops (r.modify w.goal (fun p => { p with trie := (p.trie.cleanup g.literal).2 })) :=
          develops_setTrie (fun b hb => (Trie.cleanup_spec (h w.goal b hb) g.literal).2)
        exact hd.trans (ih _ (h.modify (fun b hb => (Trie.cleanup_spec (h w.goal b hb) g.literal).1)))
    have hcount : (r.count (fun s => { s with unprovable := s.unprovable + 1 })).SoundTries := h.of_goals_eq rfl
    have hmark : (r.count (fun s => { s with unprovable := s.unprovable + 1 })).Develops
        ((r.count (fun s => { s with unprovable := s.unprovable + 1 })).modify i (fun g => { g with unprovable := true })) :=
      develops_modify (fun b _ => ⟨rfl, rfl, rfl, fun _ h => h, fun _ h => h, .refl _⟩)
    have hfold := key g.waiters.toList _ (hcount.modify (i := i) (f := fun g => { g with unprovable := true })
      (fun b hb => hcount i b hb))
    exact fun j b hj => (hmark.trans hfold) j b hj

theorem develops_awaitGoal (h : r.SoundTries) (d : Derivation W) (first : Literal W) :
    r.Develops (r.awaitGoal q i d first).2 := by
  have h₁ := h.goalFor q first
  have hd := develops_goalFor q first r
  unfold Run.awaitGoal
  generalize r.goalFor q first = out at h₁ hd
  obtain ⟨child, created, r₁⟩ := out
  dsimp only at h₁ hd ⊢
  split
  · rename_i c g hc hg
    split
    · exact hd
    · split
      · exact hd
      · rename_i trie htrie
        have h2 : r₁.Develops (r₁.modify i (fun g => { g with trie := trie })) :=
          develops_setTrie (fun b hb => by rw [goal_eq hb hg]; exact (h₁ i g hg).keeps_wait htrie)
        exact (hd.trans h2).trans (develops_modify (fun b _ => ⟨rfl, rfl, rfl, fun _ h => h, fun _ h => h, .refl _⟩))
  · exact hd

theorem develops_completeRule (r : Run W) (i node : Nat) (head : Literal W) :
    r.Develops (r.completeRule i node head).2 := by
  unfold Run.completeRule
  split
  · exact .refl r
  · split
    · exact .refl r
    · rename_i g hi
      split
      · exact .refl r
      · rename_i rule _
        have hd : r.Develops (r.modify i (fun _ => (g.record rule).2)) :=
          develops_modify (fun b hb => by rw [goal_eq hb hi]; exact g.develops_record rule)
        dsimp only
        split
        · exact fun j b hj => hd j b hj
        · exact hd

theorem develops_search (r : Run W) (i : Nat) : r.Develops (r.search q i).2 := by
  simp only [Run.search]
  split
  · exact .refl r
  · rename_i g _
    split
    · unfold searchNegation
      split
      · exact .refl r
      · split
        · exact .refl r
        · rename_i base _
          exact develops_goalFor q base r
    · split
      · exact develops_of_goals_eq (by rw [(runPrimitive_spec q g.literal r).2])
      · exact .refl r

omit [Weight W] in
theorem develops_tryFacts (r : Run W) (i : Nat) (left : List (Clause W)) (matched : Bool) :
    r.Develops (r.tryFacts q i left matched).2 := by
  simp only [Run.tryFacts]
  split
  · exact .refl r
  · exact .refl r
  · split
    · exact .refl r
    · split <;> exact .refl r

theorem develops_tryRules (h : r.SoundTries) (i : Nat) (left : List (Clause W)) (matched : Bool) :
    r.Develops (r.tryRules i left matched).2 := by
  simp only [Run.tryRules]
  split
  · exact .refl r
  · dsimp only
    split
    · exact .refl r
    · exact develops_markUnprovable h i
  · split
    · exact .refl r
    · split <;> exact develops_of_goals_eq rfl

theorem develops_decideNegation (h : r.SoundTries) (i j : Nat) (base : Literal W) :
    r.Develops (r.decideNegation q i j base).2 := by
  simp only [Run.decideNegation]
  split
  · split
    · exact .refl r
    · split
      · exact develops_markUnprovable h i
      · exact develops_of_goals_eq rfl
  · exact .refl r

theorem develops_advance (h : r.SoundTries) (i : Nat) (d : Derivation W) : r.Develops (r.advance q i d).2 := by
  simp only [Run.advance]
  split
  · exact .refl r
  · rename_i first _ _
    split
    · exact develops_of_goals_eq (by rw [(runPrimitive_spec q first r).2])
    · split
      · exact .refl r
      · exact develops_awaitGoal h d first

theorem develops_resolve (h : r.SoundTries) (i : Nat) (d : Derivation W) (f : Clause W) :
    r.Develops (r.resolve i d f).2 := by
  simp only [Run.resolve]
  split
  · rename_i rest g _ hi
    split
    · exact .refl r
    · rename_i node trie htrie
      have hd : r.Develops (r.modify i (fun g => { g with trie := trie })) :=
        develops_setTrie (fun b hb => by rw [goal_eq hb hi]; exact (h i g hi).keeps_update trivial htrie)
      split
      · exact hd.trans (develops_completeRule _ i node rest.head)
      · exact hd
  · exact .refl r

/-- **Only accepting a fact changes facts.** -/
theorem step_develops (h : r.SoundTries) (t : Task W) (ht : ∀ i f origin, t ≠ .accept i f origin) :
    r.Develops (r.step q t).2 := by
  cases t with
  | search i => exact develops_search r i
  | tryFacts i left matched => exact develops_tryFacts r i left matched
  | tryRules i left matched => exact develops_tryRules h i left matched
  | decideNegation i j base => exact develops_decideNegation h i j base
  | accept i f origin => exact absurd rfl (ht i f origin)
  | notify ws f => cases ws <;> exact .refl r
  | feed i d left => cases left <;> exact .refl r
  | advance i d => exact develops_advance h i d
  | resolve i d f => exact develops_resolve h i d f

theorem extends_accept (r : Run W) (i : Nat) (f : Clause W) (origin : Origin) : r.Extends (r.accept q i f origin).2 := by
  unfold Run.accept
  split
  · exact .refl r
  · rename_i g hi
    split
    · exact .refl r
    · rename_i hc
      split
      · exact .refl r
      · rename_i fast g' hadd
        have hext : r.Extends (r.modify i (fun _ =>
            if (i == 0 && q.maxSamples.any (fun n => n ≤ g'.factCount)) = true then { g' with capped := true } else g')) :=
          extends_modify (fun b hb => by rw [goal_eq hb hi]; exact Subgoal.extends_addFact hadd (by simpa using hc) _)
        exact fun j b hj => hext j b hj

/-- **No step takes anything back.** -/
theorem step_extends (h : r.SoundTries) (t : Task W) : r.Extends (r.step q t).2 := by
  by_cases ht : ∃ i f origin, t = .accept i f origin
  · obtain ⟨i, f, origin, rfl⟩ := ht
    exact extends_accept r i f origin
  · exact (step_develops h t (fun i f origin e => ht ⟨i, f, origin, e⟩)).extends

/-- **Nor does a run**, however far it gets. -/
theorem execute_extends : ∀ (steps : Nat) (agenda : List (Task W)) {r : Run W}, r.SoundTries →
    r.Extends (Run.execute q steps agenda r).2
  | 0,         [],          r, _ => .refl r
  | _ + 1,     [],          r, _ => .refl r
  | 0,         _ :: _,      r, _ => .refl r
  | steps + 1, t :: agenda, r, h => by
    have hext := step_extends (q := q) h t
    have hsound := h.step (q := q) t
    rw [Run.execute]
    generalize r.step q t = out at hext hsound
    obtain ⟨result, r₁⟩ := out
    cases result with
    | error e => exact hext
    | ok ts => exact hext.trans (execute_extends steps (ts ++ agenda) hsound)

end Run

/-! ## Solvers -/

namespace Solver

/-- What a solver asks of a run for some number of answers. -/
def asking (s : Solver W) (maxSamples : Option Nat) : Query W := ⟨s.kb, s.settings, s.storeCapacity, maxSamples⟩

variable [Weight W] {s : Solver W} {l : Literal W}

/-- **A query is refused at once, or a run is opened for it.** -/
theorem start_cases (s : Solver W) (l : Literal W) (maxSamples : Option Nat) :
    s.start l maxSamples = (.error (.refused (.openNegation l.text)), s) ∧ l.isNegated = true ∧ l.isSemiGrounded = false ∨
      (l.isNegated = true → l.isSemiGrounded = true) ∧
      s.start l maxSamples = ((Run.execute (s.asking maxSamples) s.patience [.search 0] (s.opening l)).1,
        { s with run := (Run.execute (s.asking maxSamples) s.patience [.search 0] (s.opening l)).2 }) := by
  unfold start
  split
  · rename_i hopen
    rw [Bool.and_eq_true, Bool.not_eq_true'] at hopen
    exact .inl ⟨rfl, hopen⟩
  · rename_i hopen
    refine .inr ⟨fun hn => by simpa [hn] using hopen, ?_⟩
    simp only [Run.goalFor_new (Run.start_index (W := W) (l.shuffle s.run.pool).2 (l.shuffle s.run.pool).1.variant)]
    rfl

/-- The answers of a run that was worked off. -/
theorem of_solve_ok {maxSamples : Option Nat} {answers : List (Clause W)} (h : (s.solve l maxSamples).1 = .ok answers) :
    (l.isNegated = true → l.isSemiGrounded = true) ∧
      (Run.execute (s.asking (maxSamples <|> s.settings.maxSamples)) s.patience [.search 0] (s.opening l)).1 = .ok () ∧
      answers =
        (Run.execute (s.asking (maxSamples <|> s.settings.maxSamples)) s.patience [.search 0] (s.opening l)).2.table.facts 0 := by
  unfold solve at h
  rcases s.start_cases l (maxSamples <|> s.settings.maxSamples) with ⟨e, -⟩ | ⟨hopen, e⟩
  · rw [e] at h
    cases h
  · rw [e] at h
    generalize Run.execute (s.asking (maxSamples <|> s.settings.maxSamples)) s.patience [.search 0] (s.opening l) = out at h ⊢
    obtain ⟨result, r⟩ := out
    cases result with
    | error e => cases h
    | ok u =>
      injection h with h
      exact ⟨hopen, rfl, h.symm⟩

theorem solve_fst (s : Solver W) (l : Literal W) (maxSamples : Option Nat) : (s.solve l maxSamples).1 =
    (s.start l (maxSamples <|> s.settings.maxSamples)).1.map
      (fun _ => (s.start l (maxSamples <|> s.settings.maxSamples)).2.run.table.facts 0) := rfl

theorem solve_of_start {maxSamples : Option Nat} {s' : Solver W}
    (h : s.start l (maxSamples <|> s.settings.maxSamples) = (.ok (), s')) :
    (s.solve l maxSamples).1 = .ok (s'.run.table.facts 0) := by
  rw [solve_fst, h]
  rfl

theorem solve_eq_error_iff {maxSamples : Option Nat} {e : Run.Halt} :
    (s.solve l maxSamples).1 = .error e ↔ (s.start l (maxSamples <|> s.settings.maxSamples)).1 = .error e := by
  rw [solve_fst]
  cases (s.start l (maxSamples <|> s.settings.maxSamples)).1 <;> simp [Except.map]

theorem proofs_fst (s : Solver W) (l : Literal W) : (s.proofs l).1 =
    (s.start l none).1.map (fun _ =>
      (Prover.ofSnapshot (s.start l none).2.snapshot s.settings.pruneCertain).proofSet
        (((s.start l none).2.run.table.facts 0).map Clause.head)) := by
  have hset : (s.start l none).2.settings = s.settings := by
    rcases s.start_cases l none with ⟨h, -⟩ | ⟨-, h⟩
    · rw [h]
    · rw [h]
  rw [← hset]
  rfl

theorem proofs_eq_error_iff {e : Run.Halt} : (s.proofs l).1 = .error e ↔ (s.start l none).1 = .error e := by
  rw [proofs_fst]
  cases (s.start l none).1 <;> simp [Except.map]

end Solver
end Credence
