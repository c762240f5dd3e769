import Credence.Proofs.Perfection
/-!
# What negations are entered against

Only the decision of a negation enters it in the table (`step_negations`).  What it is entered against are facts that its
base had then, and facts stay, so in the end every entry of a run lists facts of a base (`Agenda.entered`).
-/
namespace Credence
namespace Run

variable {W : Type} [Weight W] {q : Query W} {V : Vocabulary W} {r r' : Run W}

/-! ## One step -/

omit [Weight W] in
theorem goalFor_negations (q : Query W) (l : Literal W) (r : Run W) :
    (r.goalFor q l).2.2.table.negations = r.table.negations := by
  unfold goalFor
  dsimp only
  split
  · rfl
  · rfl

theorem runPrimitive_negations (q : Query W) (l : Literal W) (r : Run W) :
    (r.runPrimitive q l).2.table.negations = r.table.negations := by
  unfold runPrimitive
  split
  · rfl
  · dsimp only
    split
    · rfl
    · rfl

omit [Weight W] in
theorem foldl_modify_negations {α : Type} (place : α → Nat) (f : α → Subgoal W → Subgoal W) : ∀ (xs : List α) (r : Run W),
    (xs.foldl (fun r x => r.modify (place x) (f x)) r).table.negations = r.table.negations
  | [],      _ => rfl
  | x :: xs, r => (foldl_modify_negations place f xs (r.modify (place x) (f x))).trans rfl

theorem markUnprovable_negations (i : Nat) (r : Run W) : (r.markUnprovable i).table.negations = r.table.negations := by
  unfold markUnprovable
  split
  · rfl
  · dsimp only
    rw [← Array.foldl_toList, foldl_modify_negations]
    rfl

theorem search_negations (i : Nat) : (r.search q i).2.table.negations = r.table.negations := by
  unfold search
  split
  · rfl
  · dsimp only
    split
    · unfold searchNegation
      split
      · rfl
      · split
        · rfl
        · exact goalFor_negations q _ r
    · split
      · exact runPrimitive_negations q _ r
      · rfl

omit [Weight W] in
theorem tryFacts_negations (i : Nat) (left : List (Clause W)) (matched : Bool) :
    (r.tryFacts q i left matched).2.table.negations = r.table.negations := by
  unfold tryFacts
  split
  · rfl
  · rfl
  · split
    · rfl
    · split
      · rfl
      · rfl

theorem tryRules_negations (i : Nat) (left : List (Clause W)) (matched : Bool) :
    (r.tryRules i left matched).2.table.negations = r.table.negations := by
  unfold tryRules
  split
  · rfl
  · dsimp only
    split
    · rfl
    · exact markUnprovable_negations i r
  · split
    · rfl
    · dsimp only
      split
      · rfl
      · rfl

theorem accept_negations (i : Nat) (f : Clause W) (origin : Origin) :
    (r.accept q i f origin).2.table.negations = r.table.negations := by
  unfold accept
  split
  · rfl
  · split
    · rfl
    · split
      · rfl
      · rfl

theorem advance_negations (i : Nat) (d : Derivation W) : (r.advance q i d).2.table.negations = r.table.negations := by
  unfold advance
  split
  · rfl
  · split
    · exact runPrimitive_negations q _ r
    · split
      · rfl
      · unfold awaitGoal
        dsimp only
        split
        · split
          · exact goalFor_negations q _ r
          · split
            · exact goalFor_negations q _ r
            · exact goalFor_negations q _ r
        · exact goalFor_negations q _ r

theorem resolve_negations (i : Nat) (d : Derivation W) (f : Clause W) :
    (r.resolve i d f).2.table.negations = r.table.negations := by
  unfold resolve
  split
  · split
    · rfl
    · dsimp only
      split
      · unfold completeRule
        split
        · rfl
        · split
          · rfl
          · split
            · rfl
            · dsimp only
              split
              · rfl
              · rfl
      · rfl
  · rfl

/-- **Only the decision of a negation enters it.** -/
theorem step_negations {t : Task W} (h : ∀ i j l, t ≠ .decideNegation i j l) :
    (r.step q t).2.table.negations = r.table.negations := by
  cases t with
  | search i => exact search_negations i
  | tryFacts i left matched => exact tryFacts_negations i left matched
  | tryRules i left matched => exact tryRules_negations i left matched
  | decideNegation i j l => exact absurd rfl (h i j l)
  | accept i f origin => exact accept_negations i f origin
  | notify left f => cases left <;> rfl
  | feed i d left => cases left <;> rfl
  | advance i d => exact advance_negations i d
  | resolve i d f => exact resolve_negations i d f

/-! ## A run -/

/-- Every entry is about a negation, and lists facts of its base. -/
def Entered (r : Run W) : Prop := ∀ (k : String) (v : Literal W × List (Literal W)), r.table.negations[k]? = some v →
  ∃ i j g b, r.Opposes i j g b ∧ v.1.predicate = g.literal.predicate ∧ v.1.terms = g.literal.terms ∧
    ∀ x ∈ v.2, ∃ c ∈ b.facts, c.head = x

theorem Opposes.mono {i j : Nat} {g b : Subgoal W} (h : r.Opposes i j g b) (hr : r.Grows r') :
    ∃ g' b', r'.Opposes i j g' b' ∧ g.Grows g' ∧ b.Grows b' := by
  obtain ⟨g', hg', hgg⟩ := hr.goal i g h.goal
  obtain ⟨b', hb', hbb⟩ := hr.goal j b h.base
  obtain ⟨l, hneg, hvar⟩ := h.literal
  exact ⟨g', b', ⟨hg', hgg.literal ▸ h.negated, hb', l, hgg.literal ▸ hneg, hbb.literal ▸ hvar⟩, hgg, hbb⟩

theorem Entered.mono (h : r.Entered) (hr : r.Grows r')
    (hn : ∀ (k : String) (v : Literal W × List (Literal W)), r'.table.negations[k]? = some v →
      r.table.negations[k]? = some v ∨ ∃ i j g b, r.Opposes i j g b ∧ v.1.predicate = g.literal.predicate ∧
        v.1.terms = g.literal.terms ∧ ∀ x ∈ v.2, ∃ c ∈ b.facts, c.head = x) : r'.Entered := by
  intro k v hk
  obtain ⟨i, j, g, b, hop, hp, ht, hfacts⟩ := (hn k v hk).elim (h k v) id
  obtain ⟨g', b', hop', hgg, hbb⟩ := hop.mono hr
  refine ⟨i, j, g', b', hop', hgg.literal ▸ hp, hgg.literal ▸ ht, fun x hx => ?_⟩
  obtain ⟨c, hc, e⟩ := hfacts x hx
  exact ⟨c, hbb.facts c hc, e⟩

variable [LawfulWeight W]

/-- A step enters a negation against facts of its base. -/
theorem Agenda.entered_step (hq : q.Regular V) {t : Task W} {agenda ts : List (Task W)} (h : r.Agenda q V (t :: agenda))
    (he : r.Entered) (hstep : r.step q t = (.ok ts, r')) : r'.Entered := by
  obtain ⟨ts₀, r₀, hstep₀, hgrow, -⟩ := h.step_ok hq
  obtain rfl : r₀ = r' := congrArg Prod.snd (hstep₀.symm.trans hstep)
  refine he.mono hgrow (fun k v hk => ?_)
  have hsame : ∀ {r₁ : Run W}, r₁.table.negations = r.table.negations → r₁ = r₀ → r.table.negations[k]? = some v := by
    rintro r₁ hn rfl
    rw [← hn]
    exact hk
  by_cases hdecides : ∃ i j base, t = .decideNegation i j base
  · obtain ⟨i, j, base, rfl⟩ := hdecides
    obtain ⟨⟨g, b, hi, hn, hj, hneg, hvar⟩, -⟩ := h.tasks
    rcases step_decideNegation_cases h.valid hi hn hj hneg hvar with ⟨-, e⟩ | ⟨-, -, e⟩ | ⟨-, -, e⟩
    · exact .inl (hsame rfl (congrArg Prod.snd (e.symm.trans hstep)))
    · exact .inl (hsame (markUnprovable_negations i r) (congrArg Prod.snd (e.symm.trans hstep)))
    · obtain rfl : r.enter _ _ = r₀ := congrArg Prod.snd (e.symm.trans hstep)
      rw [enter, Std.HashMap.getElem?_insert] at hk
      split at hk
      · injection hk with hk
        subst hk
        exact .inr ⟨i, j, g, b, ⟨hi, hn, hj, base, hneg, hvar⟩, rfl, rfl, fun x hx => List.mem_map.1 hx⟩
      · exact .inl hk
  · have hn := step_negations (q := q) (r := r) (t := t) (fun i j base e => hdecides ⟨i, j, base, e⟩)
    exact .inl (hsame hn (congrArg Prod.snd hstep))

theorem Agenda.entered (hq : q.Regular V) : ∀ (steps : Nat) {agenda : List (Task W)} {r : Run W}, r.Agenda q V agenda →
    r.Entered → ∀ {r'}, execute q steps agenda r = (.ok (), r') → r'.Entered
  | _, [], r, _, he, r', hexec => by
    obtain rfl : r = r' := by
      unfold execute at hexec
      exact congrArg Prod.snd hexec
    exact he
  | 0, _ :: _, r, _, _, r', hexec => by
    unfold execute at hexec
    cases congrArg Prod.fst hexec
  | steps + 1, t :: agenda, r, h, he, r', hexec => by
    obtain ⟨ts, r₁, hstep, -, hnext⟩ := h.step_ok hq
    rw [execute, hstep] at hexec
    exact Agenda.entered hq steps hnext (h.entered_step hq he hstep) hexec

end Run

namespace Solver

variable {W : Type} [Weight W] [LawfulWeight W] {s : Solver W} {V : Vocabulary W} {l : Literal W} {r : Run W}

/-- What a solver leaves of its run when it starts with enough patience. -/
theorem entered_of_start (hkb : s.kb.Regular V) (hcap : s.storeCapacity = none) {n : Nat} (hl : V.HasLiteral n l)
    (hn : l.isNegated = true → l.isSemiGrounded = true) {s' : Solver W} (hstart : s.start l none = (.ok (), s')) :
    s'.run.Entered := by
  rw [start_eq hn] at hstart
  obtain ⟨hok, rfl⟩ := Prod.mk.inj hstart
  have hexec : Run.execute s.query s.patience [.search 0] (s.opening l) =
      (.ok (), (Run.execute s.query s.patience [.search 0] (s.opening l)).2) := Prod.ext hok rfl
  refine Run.Agenda.entered ⟨hkb, hcap, rfl⟩ _ (opening_agenda hcap hl hn) (fun k v hk => ?_) hexec
  rw [opening, Run.addGoal, Run.goalFor_negations] at hk
  simp [Run.start, Table.empty] at hk

end Solver
end Credence
