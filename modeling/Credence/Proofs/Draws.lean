import Credence.Proofs.Closing
/-!
# What a rule weight is drawn for

The literal that carries the weight of a rule gets the number of a recorded clause wherever it stands in a proof.  Clauses
are recorded once each and numbered apart, so the weight is drawn once for every recorded clause: proofs that rest on the
same clause share the variable, however many they are, and different clauses have different variables
(`Table.draws_per_clause`).  A recorded clause keeps the weights of the facts that its body met.  So where an atom was
found with two weights, a rule that rests on it is recorded, and drawn, twice.
-/
namespace Credence

variable {W : Type} [Weight W]

/-! ## Numbers -/

namespace Prover

variable {rules : List (Clause W)} {c c' : Clause W} {k k' : Nat} {m m' : Literal W}

/-- Sorting and numbering lose no clause and repeat none. -/
theorem numberRules_fst (rules : List (Clause W)) : ((numberRules rules).map Prod.fst).Perm rules := by
  simp only [numberRules, List.map_map]
  refine ((List.mergeSort_perm _ _).map _).trans ?_
  rw [List.map_map]
  -- the number of a place in the order of texts says nothing about the clause in it
  show (List.map ((fun x : String × Clause W × Nat => x.2.1) ∘ Prod.fst) _).Perm rules
  rw [← List.map_map, List.zipIdx_map_fst]
  refine ((List.mergeSort_perm _ _).map _).trans ?_
  rw [List.map_map]
  show (List.map Prod.fst _).Perm rules
  rw [List.zipIdx_map_fst]

theorem numberRules_snd (rules : List (Clause W)) : ((numberRules rules).map Prod.snd).Nodup := by
  simp only [numberRules, List.map_map]
  refine ((List.mergeSort_perm _ _).map _).nodup_iff.2 ?_
  rw [List.map_map]
  show (List.map Prod.snd _).Nodup
  rw [List.zipIdx_map_snd]
  exact List.nodup_range'

/-- **Clauses that are listed once have one number each, and no two the same.** -/
theorem number_eq_iff (h : rules.Nodup) (hc : (c, k) ∈ numberRules rules) (hc' : (c', k') ∈ numberRules rules) :
    k = k' ↔ c = c' := by
  constructor
  · intro e
    exact congrArg Prod.fst (List.inj_on_of_nodup_map (numberRules_snd rules) hc hc' e)
  · intro e
    have hnodup := (numberRules_fst rules).nodup_iff.2 h
    exact congrArg Prod.snd (List.inj_on_of_nodup_map hnodup hc hc' e)

/-- The number that a rule weight was marked with can be read off its id. -/
theorem number_of_id (hm : isRuleWeight m = true) (hm' : isRuleWeight m' = true)
    (h : (mark k m).id = (mark k' m').id) : k = k' := by
  have hid : ∀ (k : Nat) {m : Literal W}, isRuleWeight m = true →
      ∃ lead, (mark k m).id.toList = lead ++ 'r' :: ((toString k).toList ++ [')']) := by
    intro k m hm
    obtain ⟨lead, hlead⟩ := Text.exists_intercalate_append "," ("r" ++ toString k) (m.terms.map Literal.idTerm)
    have hterms : ((mark k m).terms).map Literal.idTerm = m.terms.map Literal.idTerm ++ ["r" ++ toString k] := by
      simp [mark, hm, Literal.extend, Literal.idTerm]
    refine ⟨(Weight.text (mark k m).weight ++ "::" ++ ((mark k m).name ++ "(" ++ lead)).toList, ?_⟩
    rw [Literal.id, Literal.applied, hterms, if_neg (by simp), hlead]
    simp [String.toList_append]
  have hfree : ∀ k : Nat, 'r' ∉ (toString k).toList ++ [')'] := by
    intro k hr
    rcases List.mem_append.1 hr with hr | hr
    · exact Text.not_mem_toString (by decide) hr
    · exact absurd hr (by decide)
  obtain ⟨lead, e⟩ := hid k hm
  obtain ⟨lead', e'⟩ := hid k' hm'
  rw [h, e'] at e
  obtain ⟨-, hdigits⟩ := Text.split_at_last_mark (hfree k') (hfree k) e
  exact (Text.toString_nat_inj (String.toList_injective (List.append_cancel_right hdigits))).symm

end Prover

/-! ## Recorded clauses -/

namespace Snapshot

/-- Clauses are recorded once, by their keys. -/
structure Distinct (s : Snapshot W) : Prop where
  keys  : ∀ k, s.ruleKeys.contains k = true ↔ ∃ c ∈ s.rules.toList, c.key = k
  nodup : (s.rules.toList.map Clause.key).Nodup

variable {s s' : Snapshot W}

theorem Distinct.of_rules_eq (h : s.Distinct) (hr : s'.rules = s.rules) (hk : s'.ruleKeys = s.ruleKeys) : s'.Distinct :=
  ⟨by rw [hr, hk]; exact h.keys, by rw [hr]; exact h.nodup⟩

theorem Distinct.addRule (h : s.Distinct) (c : Clause W) : (s.addRule c).Distinct := by
  unfold Snapshot.addRule
  split
  · exact h
  · rename_i hc
    rw [h.keys] at hc
    constructor
    · intro k
      simp only [Std.HashSet.contains_insert, Bool.or_eq_true, beq_iff_eq, h.keys, Array.toList_push, List.mem_append,
        List.mem_singleton]
      constructor
      · rintro (rfl | ⟨d, hd, e⟩)
        · exact ⟨c, .inr rfl, rfl⟩
        · exact ⟨d, .inl hd, e⟩
      · rintro ⟨d, hd | rfl, e⟩
        · exact .inr ⟨d, hd, e⟩
        · exact .inl e
    · simp only [Array.toList_push, List.map_append, List.map_cons, List.map_nil]
      refine List.nodup_append.2 ⟨h.nodup, by simp, fun k hk k' hk' e => ?_⟩
      obtain ⟨d, hd, rfl⟩ := List.mem_map.1 hk
      exact hc ⟨d, hd, e.trans (List.mem_singleton.1 hk')⟩

/-- The variable that a recorded clause draws for a rule weight in its body. -/
def Draws (s : Snapshot W) (c : Clause W) (m x : Literal W) : Prop :=
  ∃ k, (c, k) ∈ Prover.numberRules s.rules.toList ∧ m ∈ c.body ∧ Prover.isRuleWeight m = true ∧ x = Prover.mark k m

variable {c c' : Clause W} {m m' x x' : Literal W}

/-- Different clauses draw different variables. -/
theorem Draws.clause_eq (hs : s.Distinct) (h : s.Draws c m x) (h' : s.Draws c' m' x') (e : x.id = x'.id) : c = c' := by
  obtain ⟨k, hc, -, hm, rfl⟩ := h
  obtain ⟨k', hc', -, hm', rfl⟩ := h'
  exact (Prover.number_eq_iff (hs.nodup.of_map _) hc hc').1 (Prover.number_of_id hm hm' e)

/-- A clause draws a rule weight once. -/
theorem Draws.variable_eq (hs : s.Distinct) (h : s.Draws c m x) (h' : s.Draws c m x') : x = x' := by
  obtain ⟨k, hc, -, -, rfl⟩ := h
  obtain ⟨k', hc', -, -, rfl⟩ := h'
  rw [(Prover.number_eq_iff (hs.nodup.of_map _) hc hc').2 rfl]

/-- A rule weight in a proof is the target itself or was drawn for a recorded clause. -/
theorem exists_draws (prune : Bool) {target : Literal W} {b : Body W} (hb : b ∈ (Prover.ofSnapshot s prune).expand target)
    (hx : x ∈ b) (hw : Prover.isRuleWeight x = true) : x = target ∨ ∃ c m, s.Draws c m x := by
  rcases Prover.expand_among hb hx with e | ⟨id, body, hrule, hmem⟩
  · exact .inl e
  · obtain ⟨c, k, hc, -, rfl⟩ := (Prover.ofSnapshot_rule s prune).1 hrule
    obtain ⟨m, hm, rfl⟩ := List.mem_map.1 hmem
    cases hmw : Prover.isRuleWeight m with
    | true => exact .inr ⟨c, m, k, hc, hm, hmw, rfl⟩
    | false =>
      rw [Prover.mark_of_not hmw, hmw] at hw
      cases hw

end Snapshot

namespace Table

theorem distinct_addGoal {s : Snapshot W} (hs : s.Distinct) (g : Subgoal W) : (addGoal s g).Distinct := by
  rw [addGoal, ← Array.foldl_toList]
  have hfold : ∀ (cs : List (Clause W)) {s : Snapshot W}, s.Distinct → (cs.foldl Snapshot.addRule s).Distinct := by
    intro cs
    induction cs with
    | nil => exact fun hs => hs
    | cons c cs ih => exact fun hs => ih (hs.addRule c)
  obtain ⟨-, h2, h3, -⟩ := Snapshot.foldl_addFact g g.facts s
  exact hfold _ (hs.of_rules_eq h2 h3)

/-- **The clauses of a table are recorded once each.** -/
theorem distinct_snapshot (t : Table W) : t.snapshot.Distinct := by
  have hempty : (Snapshot.empty : Snapshot W).Distinct := ⟨fun k => by simp [Snapshot.empty], by simp [Snapshot.empty]⟩
  have hgoals : ∀ (gs : List (Subgoal W)) {s : Snapshot W}, s.Distinct → (gs.foldl addGoal s).Distinct := by
    intro gs
    induction gs with
    | nil => exact fun hs => hs
    | cons g gs ih => exact fun hs => ih (distinct_addGoal hs g)
  rw [snapshot, ← Array.foldl_toList]
  obtain ⟨-, e2, e3, -⟩ := Snapshot.foldl_addNegation t.negations.toList (t.goals.toList.foldl addGoal Snapshot.empty)
  exact (hgoals t.goals.toList hempty).of_rules_eq e2 e3

/-- **A rule weight is drawn once for every recorded clause.**  Where one stands in a proof, it is the target of the proof
or was drawn for a recorded clause; two that are the same variable were drawn for the same clause; and for one weight in
its body a clause draws one variable only. -/
theorem draws_per_clause (t : Table W) (prune : Bool) (targets : List (Literal W)) :
    (∀ p ∈ ((Prover.ofSnapshot t.snapshot prune).proofSet targets).proofs, ∀ x ∈ p.body, Prover.isRuleWeight x = true →
      x = p.head ∨ ∃ c m, t.snapshot.Draws c m x) ∧
    (∀ {c c' m m' x x'}, t.snapshot.Draws c m x → t.snapshot.Draws c' m' x' → x.id = x'.id → c = c') ∧
    ∀ {c m x x'}, t.snapshot.Draws c m x → t.snapshot.Draws c m x' → x = x' := by
  have hd := t.distinct_snapshot
  refine ⟨fun p hp x hx hw => ?_, fun h h' e => h.clause_eq hd h' e, fun h h' => h.variable_eq hd h'⟩
  exact Snapshot.exists_draws prune (Prover.of_mem_proofsOf hp).2 hx hw

end Table
end Credence
