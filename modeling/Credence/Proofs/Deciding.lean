import Credence.Proofs.Resolving
/-!
# Steps that decide a negation

A negation is decided once, from the facts that its base has at that moment.  With this every task is accounted for: a
step that meets a task in order succeeds, and the agenda it leaves is in order again (`Agenda.step_ok`).
-/
namespace Credence
namespace Run

variable {W : Type} [Weight W] {q : Query W} {V : Vocabulary W} {r : Run W}

/-- The literal of a negation holds no variables, so it is a literal of the vocabulary at any time. -/
theorem hasLiteral_of_isSemiGrounded {n : Nat} {l : Literal W} (h : V.HasLiteral n l) (hs : l.isSemiGrounded = true) :
    V.HasLiteral 0 l := by
  refine ⟨h.predicate, h.wellFormed, fun t ht => ?_⟩
  have := List.all_eq_true.1 hs t ht
  cases t with
  | const c => exact h.terms _ ht
  | var v => exact .inl (by simpa [Term.isConst, Term.isWildcard] using this)

/-- The run with an entry for a weighted negation. -/
def enter (r : Run W) (leaf : Literal W) (bases : List (Literal W)) : Run W :=
  { r with table := { r.table with negations := r.table.negations.insert leaf.id (leaf, bases) } }

/-- What is entered under the id of a negation is entered for it. -/
theorem Valid.hasEntry_of_negations (hv : r.Valid V q.kb) {i : Nat} {g : Subgoal W} (hi : r.table.goal? i = some g)
    (hn : g.literal.isNegated = true) {leaf : Literal W} (hp : leaf.predicate = g.literal.predicate)
    (ht : leaf.terms = g.literal.terms) {v : Literal W × List (Literal W)} (hv' : r.table.negations[leaf.id]? = some v) :
    r.table.HasEntry g.literal := by
  have hplain : ∀ {l : Literal W} {b : Subgoal W} {k : Nat}, r.table.goal? k = some b → b.literal.isNegated = true →
      l.predicate = b.literal.predicate → l.terms = b.literal.terms → l.isPlain = true ∧ l.isSemiGrounded = true := by
    intro l b k hk hb hp ht
    have hbv := hv.goal k b hk
    refine ⟨(Literal.isPlain_congr hp ht).trans hbv.literal.isPlain, ?_⟩
    rw [Literal.isSemiGrounded, ht]
    exact hbv.negation hb
  obtain ⟨hid, k, b, hk, hb, hpb, htb⟩ := hv.negations _ v hv'
  obtain ⟨h1, h2⟩ := hplain hk hb hpb htb
  obtain ⟨h3, h4⟩ := hplain hi hn hp ht
  obtain ⟨-, hvar⟩ := Literal.variant_eq_of_id_eq h1 h3 h2 h4 hid
  rw [Literal.variant_congr hpb htb, Literal.variant_congr hp ht] at hvar
  obtain rfl := hv.goal_unique hk hi hvar
  rw [goal_eq hk hi] at hpb htb
  exact ⟨_, v, hv', hpb, htb⟩

theorem enter_spec (hv : r.Valid V q.kb) {i : Nat} {g : Subgoal W} (hi : r.table.goal? i = some g)
    (hn : g.literal.isNegated = true) (hent : ¬ r.table.HasEntry g.literal) {leaf : Literal W}
    (hp : leaf.predicate = g.literal.predicate) (ht : leaf.terms = g.literal.terms) (bases : List (Literal W)) :
    r.Grows (r.enter leaf bases) ∧ (r.enter leaf bases).Valid V q.kb := by
  have hgrow : r.Grows (r.enter leaf bases) := by
    refine ⟨Nat.le_refl _, fun k b hk => ⟨b, hk, .refl b⟩, fun _ _ h => h, fun k v hk => ?_⟩
    show (r.table.negations.insert leaf.id (leaf, bases))[k]? = some v
    rw [Std.HashMap.getElem?_insert, if_neg]
    · exact hk
    · intro e
      rw [← eq_of_beq e] at hk
      exact hent (hv.hasEntry_of_negations hi hn hp ht hk)
  refine ⟨hgrow, fun k b hk => (hv.goal k b hk).mono hgrow, hv.index, hv.indexed, fun k v hk => ?_⟩
  have hk' : (r.table.negations.insert leaf.id (leaf, bases))[k]? = some v := hk
  rw [Std.HashMap.getElem?_insert] at hk'
  split at hk'
  · rename_i e
    injection hk' with hk'
    subst hk'
    exact ⟨eq_of_beq e, i, g, hi, hn, hp, ht⟩
  · exact hv.negations k v hk'

/-- How the decision of a negation goes on. -/
theorem step_decideNegation_cases (hv : r.Valid V q.kb) {i j : Nat} {g b : Subgoal W} {base : Literal W}
    (hi : r.table.goal? i = some g) (hn : g.literal.isNegated = true) (hj : r.table.goal? j = some b)
    (hneg : g.literal.negate = .ok base) (hvar : b.literal.variant = base.variant) :
    (b.facts = [] ∧ r.step q (.decideNegation i j base) = (.ok [.accept i (.fact g.literal) .asserted], r)) ∨
    (b.facts ≠ [] ∧ IsDropped q (r.complement q base b) ∧
      r.step q (.decideNegation i j base) = (.ok [], r.markUnprovable i)) ∨
    (b.facts ≠ [] ∧ ¬ IsDropped q (r.complement q base b) ∧ r.step q (.decideNegation i j base) =
      (.ok [.accept i (.fact { g.literal with weight := r.complement q base b }) .asserted],
        r.enter { g.literal with weight := r.complement q base b } (b.facts.map Clause.head))) := by
  have hb := hv.goal j b hj
  obtain ⟨base', hneg', -, hpos, hlit⟩ := (hv.goal i g hi).literal.negate hn
  rw [hneg] at hneg'
  injection hneg' with hneg'
  subst hneg'
  have hnb : b.literal.isNegated = false := by
    rw [Literal.isNegated, (Literal.shape_eq_of_variant_eq hb.literal.isPlain hlit.isPlain hvar).1]
    exact hpos
  have hzero : (b.unprovable || b.factCount == 0) = true ↔ b.facts = [] := by
    have hcount : b.factCount = b.facts.length := by simp [Subgoal.factCount, Subgoal.facts, Store.size, Store.toList]
    rw [Bool.or_eq_true, beq_iff_eq, hcount, List.length_eq_zero_iff]
    exact ⟨fun h => h.elim (fun hu => hb.facts_of_hopeless hnb (hb.hopeless hu hnb)) (fun h => h), .inr⟩
  by_cases hempty : b.facts = []
  · refine .inl ⟨hempty, ?_⟩
    simp only [step, decideNegation, hi, hj, hzero.2 hempty, if_true]
  · have hzero' : (b.unprovable || b.factCount == 0) = false := by
      rw [← Bool.not_eq_true, hzero]
      exact hempty
    by_cases hdrop : IsDropped q (r.complement q base b)
    · have hd : Weight.isZero (Weight.round q.settings.negationDigits
          (1 - r.estimate q base (b.facts.map Clause.head))) = true := hdrop
      refine .inr (.inl ⟨hempty, hdrop, ?_⟩)
      simp only [step, decideNegation, hi, hj, hzero', Bool.false_eq_true, if_false, hd, if_true]
    · have hd : Weight.isZero (Weight.round q.settings.negationDigits
          (1 - r.estimate q base (b.facts.map Clause.head))) = false := Bool.not_eq_true _ ▸ hdrop
      refine .inr (.inr ⟨hempty, hdrop, ?_⟩)
      simp only [step, decideNegation, hi, hj, hzero', Bool.false_eq_true, if_false, hd]
      rfl

/-- Whatever weight a negation gets, its goal accepts it. -/
theorem accepts_denial {kb : KnowledgeBase W} {g : Subgoal W} (hg : g.Valid V kb r) (hn : g.literal.isNegated = true) {l : Literal W}
    (hp : l.predicate = g.literal.predicate) (ht : l.terms = g.literal.terms) : g.Accepts V kb (.fact l) := by
  have h0 := hasLiteral_of_isSemiGrounded hg.literal (hg.negation hn)
  refine ⟨rfl, ⟨hp ▸ h0.predicate, ?_, ht ▸ h0.terms⟩, fun h => ?_, fun _ => ⟨hp, ht⟩⟩
  · show (l.terms.length == l.predicate.arity) = true
    rw [hp, ht]
    exact h0.wellFormed
  · rw [hn] at h
    cases h

section Stakes

variable {i j : Nat} {g : Subgoal W} {base : Literal W}

/-- A negation that is given up takes over the stake of its decision. -/
theorem staked_markUnprovable (hi : r.table.goal? i = some g) (hfacts : g.facts = []) (hun : g.unprovable = false)
    (h : (r.modify i (fun g => { g with unprovable := true })).Trims (r.markUnprovable i)) :
    r.Staked (.decideNegation i j base) [] (r.markUnprovable i) := by
  have hent : (r.markUnprovable i).table.HasEntry = r.table.HasEntry := Table.hasEntry_congr h.negations
  refine ⟨fun k b b' hk hk' _ => ?_, fun k b' hk hk' _ => ?_⟩
  · obtain ⟨b₀, hb₀, e1, e2, -, e4⟩ := markUnprovable_goal h hk'
    rw [goal_eq hb₀ hk] at e1 e2 e4
    rw [Table.stake, Table.stake, hent, e1, e2, e4]
    by_cases hik : i = k
    · subst hik
      rw [goal_eq hk hi, hun, hfacts]
      simp [Task.stake]
    · simp [Task.stake, hik]
  · obtain ⟨b, hb, -⟩ := markUnprovable_goal h hk'
    rw [hk] at hb
    cases hb

/-- The entry and the acceptance of a weighted negation share the stake of its decision. -/
theorem staked_enter (hv : r.Valid V q.kb) (hi : r.table.goal? i = some g) (hfacts : g.facts = [])
    (hun : g.unprovable = false) {leaf : Literal W} (hp : leaf.predicate = g.literal.predicate)
    (ht : leaf.terms = g.literal.terms) (bases : List (Literal W)) :
    r.Staked (.decideNegation i j base) [.accept i (.fact leaf) .asserted] (r.enter leaf bases) := by
  refine ⟨fun k c c' hk hk' _ => ?_, fun k b' hk hk' _ => ?_⟩
  · have hk'' : r.table.goal? k = some c' := hk'
    rw [goal_eq hk'' hk, Table.stake, Table.stake]
    by_cases hik : i = k
    · subst hik
      rw [goal_eq hk hi, hfacts, hun]
      simp [Task.stake]
      split <;> omega
    · -- an entry for this goal was there before: the new one is for another literal
      have hsame : (r.enter leaf bases).table.HasEntry c.literal → r.table.HasEntry c.literal := by
        rintro ⟨key, v, hkey, hvp, hvt⟩
        have hkey' : (r.table.negations.insert leaf.id (leaf, bases))[key]? = some v := hkey
        rw [Std.HashMap.getElem?_insert] at hkey'
        split at hkey'
        · injection hkey' with hkey'
          subst hkey'
          exact absurd (hv.goal_unique hi hk (Literal.variant_congr (hp.symm.trans hvp) (ht.symm.trans hvt))) hik
        · exact ⟨key, v, hkey', hvp, hvt⟩
      simp only [List.map_cons, List.map_nil, List.sum_cons, List.sum_nil, Task.stake, if_neg hik]
      by_cases he : (r.enter leaf bases).table.HasEntry c.literal
      · rw [if_pos he, if_pos (hsame he)]
        omega
      · rw [if_neg he]
        omega
  · have hk'' : r.table.goal? k = some b' := hk'
    rw [hk] at hk''
    cases hk''

end Stakes

theorem step_decideNegation (hv : r.Valid V q.kb) {i j : Nat} {base : Literal W}
    (ht : (Task.decideNegation i j base).Valid q V r []) (hp : r.Provided q)
    (hst : ∀ g, r.table.goal? i = some g → g.literal.isNegated = true → 3 + r.table.stake g ≤ 3) :
    ∃ ts r', r.step q (.decideNegation i j base) = (.ok ts, r') ∧ r.Steps q V (.decideNegation i j base) ts r' := by
  obtain ⟨g, b, hi, hn, hj, hneg, hvar⟩ := ht
  have hg := hv.goal i g hi
  obtain ⟨hfacts, hun, hent⟩ := Table.stake_eq_zero (hst g hi hn)
  have hpos : ∀ {P : Prop}, g.literal.isNegated = false → P := by
    intro P h
    rw [hn] at h
    cases h
  rcases step_decideNegation_cases hv hi hn hj hneg hvar with ⟨hempty, hstep⟩ | ⟨hempty, hdrop, hstep⟩ | ⟨hempty, hdrop, hstep⟩
  · refine ⟨_, _, hstep, .quiet hv rfl (Nat.le_refl _) ⟨⟨g, hi, accepts_denial hg hn rfl rfl, fun _ => hpos,
      fun ho => by cases ho⟩, trivial⟩ (fun duty hd => ?_) (fun _ _ => by simp) (fun k b hk hb => ?_)⟩
    · cases hd with
      | decide =>
        exact .inr ⟨_, List.mem_cons_self, .acceptDenial ⟨r, j, g, b, base, hv, hp, .refl r, hi, hj, hn, hneg, hvar,
          .certain hempty⟩⟩
    · by_cases hik : i = k <;> simp [Task.stake, hik]
  · obtain ⟨h1, h2, h3⟩ := markUnprovable_spec hv hi hpos
    obtain ⟨g', hi', hgg⟩ := h1.goal i g hi
    obtain ⟨g₀, hg₀, -, -, -, e4⟩ := markUnprovable_goal h3 hi'
    refine ⟨_, _, hstep, h1, h2, trivial, fun duty hd => .inl ?_, fun duty hd => .inl (markUnprovable_owes h3 hd),
      (fun _ _ e => by cases e), staked_markUnprovable hi hfacts hun h3⟩
    cases hd with
    | decide =>
      exact ⟨none, ⟨r, j, g, b, base, hv, hp, h1, hi, hj, hn, hneg, hvar, .dropped hempty hdrop⟩, g', hi',
        (fun f e => by cases e), fun _ => by simpa using e4⟩
  · let leaf : Literal W := { g.literal with weight := r.complement q base b }
    have hpred : leaf.predicate = g.literal.predicate := rfl
    have hterms : leaf.terms = g.literal.terms := rfl
    obtain ⟨h1, h2⟩ := enter_spec hv hi hn hent hpred hterms (b.facts.map Clause.head)
    refine ⟨_, _, hstep, h1, h2, ⟨⟨g, hi, accepts_denial hg hn hpred hterms, fun _ => hpos, fun ho => by cases ho⟩,
      trivial⟩, fun duty hd => .inr ?_, fun duty hd => .inl ?_, (fun _ _ e => by cases e),
      staked_enter hv hi hfacts hun hpred hterms _⟩
    · cases hd with
      | decide =>
        refine ⟨_, List.mem_cons_self, .acceptDenial ⟨r, j, g, b, base, hv, hp, h1, hi, hj, hn, hneg, hvar,
          .weighted hempty hdrop rfl ?_⟩⟩
        show (r.table.negations.insert leaf.id (leaf, b.facts.map Clause.head))[leaf.id]? = _
        rw [Std.HashMap.getElem?_insert_self]
    · cases duty <;> exact hd

/-! ## Facts that are found at once

Goals are worked off depth first: a new goal is searched next, and of the facts tried for it the first that fits is
accepted next. -/

/-- Only such tasks see to the facts of the program. -/
def Finds : Task W → Prop
  | .search _ | .tryFacts _ _ _ | .accept _ _ _ => True
  | _                                           => False

theorem Serves.finds {t : Task W} {j : Nat} {c : Clause W} (h : r.Serves q V t (.fact j c)) : Finds t := by
  cases h with
  | searchFact _ | tryFact _ | acceptFact => trivial

section Tails

variable {r' : Run W} {ts : List (Task W)} {i : Nat}

theorem tail_search (hv : r.Valid V q.kb) (h : r.step q (.search i) = (.ok ts, r')) : ∀ u ∈ ts.tail, ¬ Finds u := by
  simp only [step, search] at h
  split at h
  · cases h
    simp
  · rename_i g hi
    have hprim := (hv.goal i g hi).literal.not_isPrimitive
    simp only [hprim, Bool.false_eq_true, if_false] at h
    split at h
    · unfold searchNegation at h
      split at h
      · cases h
      · split at h
        · cases h
        · rename_i base _
          generalize r.goalFor q base = out at h
          obtain ⟨k, created, r₁⟩ := out
          cases h
          cases created <;> simp [Finds]
    · cases h
      simp

theorem tail_advance {d : Derivation W} (h : r.step q (.advance i d) = (.ok ts, r')) : ∀ u ∈ ts.tail, ¬ Finds u := by
  simp only [step, advance] at h
  split at h
  · cases h
  · split at h
    · cases h
      intro u hu
      obtain ⟨a, -, rfl⟩ := List.mem_map.1 (List.mem_of_mem_tail hu)
      exact id
    · split at h
      · cases h
      · unfold awaitGoal at h
        dsimp only at h
        split at h
        · split at h
          · cases h
            simp
          · split at h
            · cases h
            · cases h
              split <;> simp
        · cases h
          simp

theorem tail_resolve {d : Derivation W} {f : Clause W} (h : r.step q (.resolve i d f) = (.ok ts, r')) :
    ∀ u ∈ ts.tail, ¬ Finds u := by
  simp only [step, resolve] at h
  split at h
  · split at h
    · cases h
    · split at h
      · unfold completeRule at h
        split at h
        · cases h
          simp
        · split at h
          · cases h
            simp
          · split at h
            · cases h
            · cases h
              simp
      · cases h
        simp
  · cases h
    simp

/-- **Behind the first of the tasks that a step leaves**, none sees to a fact of the program, but while facts are tried. -/
theorem step_tail (hv : r.Valid V q.kb) {t : Task W} (hne : ∀ i left matched, t ≠ .tryFacts i left matched)
    (h : r.step q t = (.ok ts, r')) : ∀ u ∈ ts.tail, ¬ Finds u := by
  cases t with
  | search i => exact tail_search hv h
  | tryFacts i left matched => exact absurd rfl (hne i left matched)
  | tryRules i left matched =>
    simp only [step, tryRules] at h
    split at h
    · cases h
      simp
    · cases h
      simp
    · split at h
      · cases h
        simp
      · split at h
        · cases h
          simp [Finds]
        · cases h
          simp
  | decideNegation i j base =>
    simp only [step, decideNegation] at h
    split at h
    · split at h
      · cases h
        simp
      · split at h
        · cases h
          simp
        · cases h
          simp
    · cases h
      simp
  | accept i f origin =>
    simp only [step, accept] at h
    split at h
    · cases h
      simp
    · split at h
      · cases h
        simp
      · split at h
        · cases h
          simp
        · cases h
          simp
  | notify ws f =>
    simp only [step, notify] at h
    split at h
    · cases h
      simp
    · cases h
      split <;> simp [Finds]
  | feed i d left =>
    simp only [step, feed] at h
    split at h
    · cases h
      simp
    · cases h
      split <;> simp [Finds]
  | advance i d => exact tail_advance h
  | resolve i d f => exact tail_resolve h

/-- **The first of the tasks that a step leaves sees to the fact**, if any of them does and the goal meets no other. -/
theorem step_leads (hv : r.Valid V q.kb) {t : Task W} (ht : t.Valid q V r []) (h : r.step q t = (.ok ts, r')) {j : Nat}
    {b : Subgoal W} {c : Clause W} (hj : r'.table.goal? j = some b) (hsole : q.kb.Sole b.literal c) {u : Task W}
    (hu : u ∈ ts) (hs : r'.Serves q V u (.fact j c)) : ∃ v ∈ ts.head?, r'.Serves q V v (.fact j c) := by
  cases ts with
  | nil => cases hu
  | cons v vs =>
    refine ⟨v, rfl, ?_⟩
    rcases List.mem_cons.1 hu with rfl | htail
    · exact hs
    by_cases htry : ∃ i left matched, t = .tryFacts i left matched
    · obtain ⟨i, left, matched, rfl⟩ := htry
      obtain ⟨g, hi, -, hleft, -⟩ := ht
      cases left with
      | nil =>
        simp only [step, tryFacts, hi] at h
        cases h
        cases htail
      | cons f left =>
        simp only [step, tryFacts, hi] at h
        split at h
        · cases h
        · split at h
          · -- the fact that has just been found is the only one that fits
            rename_i hmeets
            cases h
            obtain rfl := List.mem_singleton.1 htail
            cases hs with
            | tryFact hc =>
              obtain rfl := goal_eq hi hj
              rw [hsole.only f (hleft f List.mem_cons_self) hmeets]
              exact .acceptFact
          · cases h
            cases htail
    · exact absurd hs.finds (step_tail hv (fun i left matched e => htry ⟨i, left, matched, e⟩) h u htail)

end Tails

/-! ## Every task -/

/-- **A step that meets a task in order succeeds.** -/
theorem step_spec [LawfulWeight W] (hq : q.Regular V) (hv : r.Valid V q.kb) {t : Task W} (ht : t.Valid q V r [])
    (hp : ∀ i j l, t = .decideNegation i j l → r.Provided q)
    (hst : ∀ i g, r.table.goal? i = some g → g.literal.isNegated = true → t.stake i + r.table.stake g ≤ 3) :
    ∃ ts r', r.step q t = (.ok ts, r') ∧ r.Steps q V t ts r' := by
  cases t with
  | search i => exact step_search hq hv ht
  | tryFacts i left matched => exact step_tryFacts hq hv ht
  | tryRules i left matched => exact step_tryRules hq hv ht
  | decideNegation i j base =>
    exact step_decideNegation hv ht (hp i j base rfl) (fun g hi hn => by simpa [Task.stake] using hst i g hi hn)
  | accept i f origin =>
    exact step_accept hq hv ht (fun g hi hn => Table.stake_two (by simpa [Task.stake] using hst i g hi hn))
  | notify ws f => exact step_notify hv ht
  | feed i d left => exact step_feed hv ht
  | advance i d => exact step_advance hq hv ht
  | resolve i d f => exact step_resolve hq hv ht

/-- **An agenda in order**: every task on it is in order, what the table asks for is done or served, a goal that only one
stated fact meets has it or is served first, and no negation can be decided twice. -/
structure Agenda (q : Query W) (V : Vocabulary W) (r : Run W) (agenda : List (Task W)) : Prop where
  valid   : r.Valid V q.kb
  tasks   : Task.InOrder q V r [] agenda
  covered : ∀ duty, r.Owes q duty → r.Did q V duty ∨ ∃ t ∈ agenda, r.Serves q V t duty
  prompt  : ∀ j b c, r.table.goal? j = some b → b.literal.isNegated = false → q.kb.Sole b.literal c →
    c ∈ b.facts ∨ ∃ t ∈ agenda.head?, r.Serves q V t (.fact j c)
  staked  : ∀ i g, r.table.goal? i = some g → g.literal.isNegated = true →
    (agenda.map (Task.stake i)).sum + r.table.stake g ≤ 3

/-- A negation is decided when the goals have been provided for: no fact is about to be accepted. -/
theorem Agenda.provided {i j : Nat} {l : Literal W} {agenda : List (Task W)}
    (h : r.Agenda q V (.decideNegation i j l :: agenda)) : r.Provided q := by
  intro k b c hk hn hsole
  rcases h.prompt k b c hk hn hsole with hc | ⟨t, ht, hs⟩
  · exact hc
  · obtain rfl : Task.decideNegation i j l = t := by simpa using ht
    cases hs

theorem Agenda.step_ok [LawfulWeight W] (hq : q.Regular V) {t : Task W} {agenda : List (Task W)}
    (h : r.Agenda q V (t :: agenda)) :
    ∃ ts r', r.step q t = (.ok ts, r') ∧ r.Grows r' ∧ r'.Agenda q V (ts ++ agenda) := by
  have hprov : ∀ i j l, t = .decideNegation i j l → r.Provided q := by
    rintro i j l rfl
    exact h.provided
  have hst : ∀ i g, r.table.goal? i = some g → g.literal.isNegated = true → t.stake i + r.table.stake g ≤ 3 := by
    intro i g hi hn
    have := h.staked i g hi hn
    rw [List.map_cons, List.sum_cons] at this
    omega
  obtain ⟨ts, r', hstep, hs⟩ := step_spec hq h.valid h.tasks.1 hprov hst
  refine ⟨ts, r', hstep, hs.grows, hs.valid, hs.tasks.append (h.tasks.2.mono hs.grows (fun i c hm => ?_)), fun duty hd => ?_,
    fun j b' c hj' hn hsole => ?_, fun i g' hi' hn => ?_⟩
  · rw [List.mem_singleton] at hm
    exact .inr (hs.accepts i c hm.symm)
  · have hlater : r.Owes q duty → r'.Did q V duty ∨ ∃ u ∈ ts ++ agenda, r'.Serves q V u duty := by
      intro hd
      rcases h.covered duty hd with hd | ⟨u, hu, hsu⟩
      · exact .inl (hd.mono hs.grows)
      · rcases List.mem_cons.1 hu with rfl | hu
        · exact (hs.serves duty hsu).imp_right (fun ⟨v, hv, hsv⟩ => ⟨v, List.mem_append_left _ hv, hsv⟩)
        · exact .inr ⟨u, List.mem_append_right _ hu, hsu.mono hs.grows⟩
    rcases hs.owes duty hd with hd | hd | ⟨u, hu, hsu⟩
    · exact hlater hd
    · exact .inl hd
    · exact .inr ⟨u, List.mem_append_left _ hu, hsu⟩
  · have hdid : r'.Did q V (.fact j c) → c ∈ b'.facts := by
      rintro ⟨b₀, hj₀, hc⟩
      obtain rfl := goal_eq hj₀ hj'
      exact hc hsole.meets
    -- what serves the goal now is the first of the tasks that the step left
    have hfirst : (∃ u ∈ ts, r'.Serves q V u (.fact j c)) → ∃ u ∈ (ts ++ agenda).head?, r'.Serves q V u (.fact j c) := by
      rintro ⟨u, hu, hsu⟩
      obtain ⟨v, hv, hsv⟩ := step_leads h.valid h.tasks.1 hstep hj' hsole hu hsu
      exact ⟨v, List.mem_head?_append_of_mem_head? hv, hsv⟩
    rcases hs.owes (.fact j c) ⟨b', hj', hn, hsole.looked⟩ with ⟨b, hj, -, -⟩ | hd | hu
    · obtain ⟨b₀, hj₀, hbb⟩ := hs.grows.goal j b hj
      obtain rfl := goal_eq hj₀ hj'
      rcases h.prompt j b c hj (hbb.literal ▸ hn) (hbb.literal ▸ hsole) with hc | ⟨u, hu, hsu⟩
      · exact .inl (hbb.facts c hc)
      · obtain rfl : t = u := by simpa using hu
        exact (hs.serves _ hsu).imp hdid hfirst
    · exact .inl (hdid hd)
    · exact .inr (hfirst hu)
  · rw [List.map_append, List.sum_append]
    cases hi : r.table.goal? i with
    | some g =>
      have hgg : g'.literal = g.literal := by
        obtain ⟨g'', hi'', hgg⟩ := hs.grows.goal i g hi
        rw [goal_eq hi' hi'', hgg.literal]
      have h1 := hs.staked.old i g g' hi hi' (hgg ▸ hn)
      have h2 := h.staked i g hi (hgg ▸ hn)
      rw [List.map_cons, List.sum_cons] at h2
      omega
    | none =>
      have h1 := hs.staked.new i g' hi hi' hn
      have h2 := h.tasks.2.stake_eq_zero hi
      omega

end Run
end Credence
