import Credence.Proofs.Progress
/-!
# What a run can be about

Whatever the program is like, a run makes its literals from those of the program, the query and the answers of a
primitive: unification, substitution and renaming add no constants and no arguments, and a negation only loses its
mark.  So up to the names of variables the literals of a run are finitely many (`finite_variants_within`), and so are the
keys of the facts that a positive goal can have (`finite_keys`).  A negation has one fact at most, whatever its weight.
Every step stays within these bounds (`Run.step_stays`).  Nothing is asked of the program but that its rules have no
primitives in their bodies.
-/
namespace Credence

variable {W : Type}

/-! ## Literals over other literals -/

/-- A variable, or a constant of some literal of `S`. -/
def Term.Within (S : List (Literal W)) : Term → Prop
  | .const c => ∃ m ∈ S, Term.const c ∈ m.terms
  | .var _   => True

namespace Literal

/-- Written like a literal of `S`, marks in front of the name apart, with constants of `S`. -/
structure Within (S : List (Literal W)) (l : Literal W) : Prop where
  form  : ∃ m ∈ S, l.name.toList <:+ m.name.toList ∧ l.terms.length = m.terms.length
  terms : ∀ t ∈ l.terms, t.Within S

variable {S : List (Literal W)} {l m : Literal W}

theorem within_of_mem (h : l ∈ S) : l.Within S := by
  refine ⟨⟨l, h, List.suffix_refl _, rfl⟩, fun t ht => ?_⟩
  cases t with
  | const c => exact ⟨l, h, ht⟩
  | var v => trivial

theorem Within.congr (h : l.Within S) (hn : m.name = l.name) (ht : m.terms = l.terms) : m.Within S :=
  ⟨by rw [hn, ht]; exact h.form, by rw [ht]; exact h.terms⟩

theorem Within.copy (h : l.Within S) {f : Var → Var} (hc : Copy f l m) : m.Within S := by
  obtain ⟨n, hn, h1, h2⟩ := h.form
  refine ⟨⟨n, hn, ?_, hc.terms.length_eq.symm.trans h2⟩, fun u hu => ?_⟩
  · rw [name, hc.predicate]
    exact h1
  · rcases hc.mem_terms hu with ⟨c, rfl, hm⟩ | ⟨v, -, rfl⟩ | hw
    · exact h.terms _ hm
    · trivial
    · cases u with
      | const c => cases hw
      | var v => trivial

/-- What two literals within `S` are unified with leaves a third one there. -/
theorem Within.subst (h : l.Within S) {a b : Literal W} {s : Subst} (ha : a.Within S) (hb : b.Within S)
    (hs : a.unify b = some s) : (l.subst s).Within S := by
  obtain ⟨n, hn, h1, h2⟩ := h.form
  refine ⟨⟨n, hn, ?_, ?_⟩, ?_⟩
  · rw [name, subst_predicate]
    exact h1
  · rw [subst_terms, List.length_map]
    exact h2
  · exact subst_closed (unify_eq_some hs).2.1 (unify_closed hs ha.terms hb.terms) h.terms

/-- What a negation negates is a primitive only if the negation is; and no primitive is negated twice. -/
theorem negate_isPrimitive [Weight W] (h : l.negate = .ok m) (hn : l.isNegated = true) :
    (m.isPrimitive = true → l.isPrimitive = true) ∧ ¬ (m.isNegated = true ∧ m.isPrimitive = true) := by
  have hneg : l.predicate.isNegated = true := hn
  simp only [negate, Predicate.negate, hneg, if_true, Predicate.check] at h
  split at h
  · cases h
  · rename_i hcheck
    injection h with h
    subst h
    rw [Bool.and_eq_true] at hcheck
    refine ⟨fun hp => ?_, hcheck⟩
    have hpos : (⟨l.predicate.base, l.predicate.arity⟩ : Predicate).isNegated = false :=
      Bool.eq_false_of_not_eq_true (fun e => hcheck ⟨e, hp⟩)
    simp only [isPrimitive, Predicate.isPrimitive, Predicate.base_of_not_isNegated hpos] at hp ⊢
    exact hp

theorem Within.negate [Weight W] (h : l.Within S) (hn : l.isNegated = true) (hm : l.negate = .ok m) : m.Within S := by
  have hneg : l.predicate.isNegated = true := hn
  have hname : l.name = Predicate.negationMark ++ l.predicate.base := Predicate.name_of_isNegated hneg
  simp only [Literal.negate, Predicate.negate, hneg, if_true, Predicate.check] at hm
  split at hm
  · cases hm
  · injection hm with hm
    subst hm
    obtain ⟨n, hn, h1, h2⟩ := h.form
    refine ⟨⟨n, hn, List.IsSuffix.trans ?_ h1, h2⟩, h.terms⟩
    rw [hname, String.toList_append]
    exact List.suffix_append _ _

end Literal

/-! ## Finitely many -/

theorem finite_constants (S : List (Literal W)) : {c : Constant | ∃ m ∈ S, Term.const c ∈ m.terms}.Finite := by
  refine (List.finite_toSet (S.flatMap (fun m => m.terms.filterMap Term.const?))).subset ?_
  rintro c ⟨m, hm, hc⟩
  exact List.mem_flatMap.2 ⟨m, hm, List.mem_filterMap.2 ⟨.const c, hc, rfl⟩⟩

/-- **Up to the names of variables there are finitely many literals within a list.** -/
theorem finite_variants_within (S : List (Literal W)) : {k : String | ∃ l : Literal W, l.Within S ∧ l.variant = k}.Finite := by
  let words (m : Literal W) : Set (Constant ⊕ Nat) :=
    Sum.inl '' {c | ∃ m ∈ S, Term.const c ∈ m.terms} ∪ Sum.inr '' {n | n < m.terms.length}
  have hwords : ∀ m, (words m).Finite := fun m =>
    ((finite_constants S).image _).union ((Set.finite_lt_nat _).image _)
  refine ((List.finite_toSet S).biUnion (fun m _ => ((List.finite_toSet m.name.toList.tails).prod
    (finite_lists (hwords m) m.terms.length)).image
      (fun p => Literal.applied "," (String.ofList p.1) (p.2.map Literal.shapeText)))).subset ?_
  rintro k ⟨l, hl, rfl⟩
  obtain ⟨m, hm, h1, h2⟩ := hl.form
  refine Set.mem_biUnion hm ⟨(l.name.toList, l.shape), ⟨(List.mem_tails _ _).2 h1, ?_, fun x hx => ?_⟩, ?_⟩
  · rw [Literal.shape_length, h2]
  · rcases Literal.mem_shape hx with ⟨c, rfl, hc⟩ | ⟨n, rfl, hn⟩
    · exact .inl ⟨c, hl.terms _ hc, rfl⟩
    · exact .inr ⟨n, h2 ▸ hn, rfl⟩
  · dsimp only
    rw [String.ofList_toList, Literal.variant_eq]

variable [Weight W]

/-- A fact that a rule gives: a head within `S` without variables, with the weight of some literal of `S`. -/
structure Literal.Derived (S : List (Literal W)) (l : Literal W) : Prop where
  within : l.Within S
  weight : ∃ m ∈ S, l.weight = m.weight
  closed : l.isSemiGrounded = true

theorem finite_derived (S : List (Literal W)) : {k : Nat × String | ∃ l : Literal W, l.Derived S ∧ (Clause.fact l).key = k}.Finite := by
  let texts : Set String := (fun c => Literal.idTerm (.const c)) '' {c | ∃ m ∈ S, Term.const c ∈ m.terms} ∪ {"_"}
  have htexts : texts.Finite := ((finite_constants S).image _).union (Set.finite_singleton _)
  refine ((List.finite_toSet S).biUnion (fun m _ => (((List.finite_toSet S).image Literal.weight).prod
    ((List.finite_toSet m.name.toList.tails).prod (finite_lists htexts m.terms.length))).image
      (fun p => (0, Weight.text p.1 ++ "::" ++ String.ofList p.2.1 ++ "(" ++ String.intercalate "," p.2.2 ++ ")")))).subset ?_
  rintro k ⟨l, hl, rfl⟩
  obtain ⟨m, hm, h1, h2⟩ := hl.within.form
  obtain ⟨n, hn, hw⟩ := hl.weight
  refine Set.mem_biUnion hm ⟨(l.weight, l.name.toList, l.terms.map Literal.idTerm),
    ⟨⟨n, hn, hw.symm⟩, (List.mem_tails _ _).2 h1, ?_, fun x hx => ?_⟩, ?_⟩
  · rw [List.length_map, h2]
  · obtain ⟨t, ht, rfl⟩ := List.mem_map.1 hx
    have hclosed := List.all_eq_true.1 hl.closed t ht
    cases t with
    | const c => exact .inl ⟨c, hl.within.terms _ ht, rfl⟩
    | var v =>
      have hv : v.wildcard = true := by simpa [Term.isConst, Term.isWildcard] using hclosed
      exact .inr (by simp [Literal.idTerm, hv])
  · rw [Clause.key_fact hl.closed]
    simp [Literal.written, Literal.form]

/-! ## What is asked -/

namespace Query

/-- A program and the primitive literals it may be asked for, over `S`.  A negation of a primitive asks for what it
negates. -/
structure Confined (q : Query W) (S asked : List (Literal W)) : Prop where
  fact   : ∀ c ∈ q.kb.facts.clauses, c.head ∈ S
  rule   : ∀ c ∈ q.kb.rules.clauses, c.head ∈ S ∧ ∀ l ∈ c.body, l ∈ S ∧ l.isPrimitive = false
  base   : ∀ l ∈ asked, ∀ m, l.isNegated = true → l.negate = .ok m → m.isPrimitive = true → m ∈ asked
  answer : ∀ l ∈ asked, ∀ a ∈ q.answers l, a ∈ S

/-- What a positive goal may have as a fact: a fact of the program, an answer, or what a rule gives. -/
inductive Offers (q : Query W) (S : List (Literal W)) : Clause W → Prop
  | stated {c : Clause W} : c ∈ q.kb.facts.clauses → Offers q S c
  | given {a : Literal W} : a ∈ S → Offers q S (.fact a)
  | derived {l : Literal W} : l.Derived S → Offers q S (.fact l)

variable {q : Query W} {S asked : List (Literal W)}

theorem Offers.within (hq : q.Confined S asked) {c : Clause W} (h : q.Offers S c) : c.head.Within S := by
  cases h with
  | stated h => exact Literal.within_of_mem (hq.fact c h)
  | given h => exact Literal.within_of_mem h
  | derived h => exact h.within

/-- **The facts of a positive goal have finitely many keys.** -/
theorem finite_keys (q : Query W) (S : List (Literal W)) : {k : Nat × String | ∃ c, q.Offers S c ∧ c.key = k}.Finite := by
  refine ((List.finite_toSet (q.kb.facts.clauses.map Clause.key)).union
    ((List.finite_toSet (S.map (fun a => (Clause.fact a).key))).union (finite_derived S))).subset ?_
  rintro k ⟨c, hc, rfl⟩
  cases hc with
  | stated h => exact .inl (List.mem_map_of_mem h)
  | given h => exact .inr (.inl (List.mem_map_of_mem (f := fun a => (Clause.fact a).key) h))
  | derived h => exact .inr (.inr ⟨_, h, rfl⟩)

end Query

/-! ## Runs within bounds -/

namespace Run

/-- Goals keep their literals. -/
def Retains (r r' : Run W) : Prop :=
  ∀ i g, r.table.goal? i = some g → ∃ g', r'.table.goal? i = some g' ∧ g'.literal = g.literal

/-- A rule of a positive goal part way through its body. -/
structure Follows (S : List (Literal W)) (r : Run W) (i : Nat) (d : Derivation W) : Prop where
  goal   : ∃ g, r.table.goal? i = some g ∧ g.literal.isNegated = false
  head   : d.rule.head.Within S
  weight : ∃ m ∈ S, d.rule.head.weight = m.weight
  body   : ∀ l ∈ d.rule.body, l.Within S ∧ l.isPrimitive = false

end Run

/-- What holds of every goal. -/
structure Subgoal.Confined (q : Query W) (S asked : List (Literal W)) (r : Run W) (g : Subgoal W) : Prop where
  literal   : g.literal.Within S
  primitive : g.literal.isPrimitive = true → g.literal ∈ asked
  keyed     : g.store.Keyed
  fact      : ∀ f ∈ g.facts, f.head.Within S ∧ (g.literal.isNegated = false → q.Offers S f)
  waiter    : ∀ w ∈ g.waiters, r.Follows S w.goal w.derivation

/-- What holds of a task on the agenda. -/
def Task.Confined (q : Query W) (S : List (Literal W)) (r : Run W) : Task W → Prop
  | .search i             => ∃ g, r.table.goal? i = some g
  | .tryFacts i left _    => (∃ g, r.table.goal? i = some g ∧ g.literal.isNegated = false) ∧
      ∀ c ∈ left, c ∈ q.kb.facts.clauses
  | .tryRules i left _    => (∃ g, r.table.goal? i = some g ∧ g.literal.isNegated = false) ∧
      ∀ c ∈ left, c ∈ q.kb.rules.clauses
  | .decideNegation i _ _ => ∃ g, r.table.goal? i = some g ∧ g.literal.isNegated = true
  | .accept i f _         => ∃ g, r.table.goal? i = some g ∧ f.head.Within S ∧
      (g.literal.isNegated = false → q.Offers S f)
  | .notify ws f          => (∀ w ∈ ws, r.Follows S w.goal w.derivation) ∧ f.head.Within S
  | .feed i d left        => r.Follows S i d ∧ ∀ f ∈ left, f.head.Within S
  | .advance i d          => r.Follows S i d
  | .resolve i d f        => r.Follows S i d ∧ f.head.Within S

variable {q : Query W} {S asked : List (Literal W)} {r r' r'' : Run W} {i : Nat} {g : Subgoal W}

section

omit [Weight W]

theorem Run.Retains.refl (r : Run W) : r.Retains r := fun _ g h => ⟨g, h, rfl⟩

theorem Run.Retains.trans (h : r.Retains r') (h' : r'.Retains r'') : r.Retains r'' := by
  intro i g hi
  obtain ⟨g', hi', e⟩ := h i g hi
  obtain ⟨g'', hi'', e'⟩ := h' i g' hi'
  exact ⟨g'', hi'', e'.trans e⟩

theorem Run.retains_modify {f : Subgoal W → Subgoal W} (hf : ∀ g, r.table.goal? i = some g → (f g).literal = g.literal) :
    r.Retains (r.modify i f) := by
  intro j g hj
  rw [goal?_modify]
  split
  · rename_i e
    subst e
    exact ⟨f g, by rw [hj]; rfl, hf g hj⟩
  · exact ⟨g, hj, rfl⟩

theorem Run.retains_addGoal {l : Literal W} (h : r.table.index[l.variant]? = none) : r.Retains (r.addGoal q l) := by
  intro j g hj
  have hlt := Table.goal?_lt hj
  exact ⟨g, by rw [addGoal_goal? h, if_neg (by omega)]; exact hj, rfl⟩

theorem Run.Follows.mono {d : Derivation W} (h : r.Follows S i d) (hr : r.Retains r') : r'.Follows S i d := by
  obtain ⟨g, hi, hn⟩ := h.goal
  obtain ⟨g', hi', e⟩ := hr i g hi
  exact ⟨⟨g', hi', e ▸ hn⟩, h.head, h.weight, h.body⟩

theorem Task.Confined.mono {t : Task W} (h : t.Confined q S r) (hr : r.Retains r') : t.Confined q S r' := by
  have hgoal : ∀ {i : Nat} {P : Literal W → Prop}, (∃ g, r.table.goal? i = some g ∧ P g.literal) →
      ∃ g, r'.table.goal? i = some g ∧ P g.literal := by
    rintro i P ⟨g, hi, hP⟩
    obtain ⟨g', hi', e⟩ := hr i g hi
    exact ⟨g', hi', e ▸ hP⟩
  cases t with
  | search i =>
    obtain ⟨g, hi⟩ := h
    obtain ⟨g', hi', -⟩ := hr i g hi
    exact ⟨g', hi'⟩
  | tryFacts i left matched => exact ⟨hgoal (P := fun l => l.isNegated = false) h.1, h.2⟩
  | tryRules i left matched => exact ⟨hgoal (P := fun l => l.isNegated = false) h.1, h.2⟩
  | decideNegation i j base => exact hgoal (P := fun l => l.isNegated = true) h
  | accept i f origin => exact hgoal (P := fun l => f.head.Within S ∧ (l.isNegated = false → q.Offers S f)) h
  | notify ws f => exact ⟨fun w hw => (h.1 w hw).mono hr, h.2⟩
  | feed i d left => exact ⟨h.1.mono hr, h.2⟩
  | advance i d => exact Run.Follows.mono h hr
  | resolve i d f => exact ⟨h.1.mono hr, h.2⟩

end

theorem Subgoal.Confined.mono (h : g.Confined q S asked r) (hr : r.Retains r') : g.Confined q S asked r' :=
  ⟨h.literal, h.primitive, h.keyed, h.fact, fun w hw => (h.waiter w hw).mono hr⟩

/-- Only the literal, the facts and the waiters matter. -/
theorem Subgoal.Confined.congr {g' : Subgoal W} (h : g.Confined q S asked r) (hl : g'.literal = g.literal)
    (hs : g'.store = g.store) (hw : g'.waiters = g.waiters) : g'.Confined q S asked r := by
  have hf : g'.facts = g.facts := congrArg Store.toList hs
  refine ⟨hl ▸ h.literal, fun hp => ?_, hs ▸ h.keyed, fun f hf' => ?_, fun w hw' => ?_⟩
  · rw [hl] at hp ⊢
    exact h.primitive hp
  · rw [hf] at hf'
    rw [hl]
    exact h.fact f hf'
  · rw [hw] at hw'
    exact h.waiter w hw'

namespace Run

/-- **What holds of the table of a run**, whatever the program. -/
structure Contained (q : Query W) (S asked : List (Literal W)) (r : Run W) : Prop where
  goal    : ∀ i g, r.table.goal? i = some g → g.Confined q S asked r
  indexed : ∀ i g, r.table.goal? i = some g → r.table.index[g.literal.variant]? = some i

omit [Weight W] in
theorem retains_of_goals_eq (h : r'.table.goals = r.table.goals) : r.Retains r' := fun i g hi =>
  ⟨g, by rw [Table.goal?, h]; exact hi, rfl⟩

theorem Contained.of_goals_eq (h : r.Contained q S asked) (hg : r'.table.goals = r.table.goals)
    (hx : r'.table.index = r.table.index) : r'.Contained q S asked := by
  refine ⟨fun i g hi => ?_, fun i g hi => ?_⟩
  · rw [Table.goal?, hg] at hi
    exact (h.goal i g hi).mono (retains_of_goals_eq hg)
  · rw [Table.goal?, hg] at hi
    rw [hx]
    exact h.indexed i g hi

theorem Contained.modify {f : Subgoal W → Subgoal W} (h : r.Contained q S asked)
    (hf : ∀ g, r.table.goal? i = some g → (f g).literal = g.literal ∧ (f g).Confined q S asked r) :
    (r.modify i f).Contained q S asked := by
  have hr : r.Retains (r.modify i f) := retains_modify (fun g hi => (hf g hi).1)
  constructor
  · intro j b hj
    rw [goal?_modify] at hj
    split at hj
    · rename_i e
      subst e
      obtain ⟨g, hi, rfl⟩ := Option.map_eq_some_iff.1 hj
      exact (hf g hi).2.mono hr
    · exact (h.goal j b hj).mono hr
  · intro j b hj
    rw [goal?_modify] at hj
    split at hj
    · rename_i e
      subst e
      obtain ⟨g, hi, rfl⟩ := Option.map_eq_some_iff.1 hj
      rw [(hf g hi).1]
      exact h.indexed i g hi
    · exact h.indexed j b hj

/-- Tries and marks do not matter. -/
theorem Contained.setTrie (h : r.Contained q S asked) (i : Nat) (trie : Subgoal W → Trie W) :
    (r.modify i (fun g => { g with trie := trie g })).Contained q S asked :=
  h.modify (fun g hi => ⟨rfl, (h.goal i g hi).congr rfl rfl rfl⟩)

theorem Contained.markUnprovable (h : r.Contained q S asked) (i : Nat) :
    (r.markUnprovable i).Contained q S asked ∧ r.Retains (r.markUnprovable i) := by
  unfold Run.markUnprovable
  split
  · exact ⟨h, .refl r⟩
  · rename_i g hi
    rw [← Array.foldl_toList]
    have key : ∀ (ws : List (Waiter W)) (r : Run W), r.Contained q S asked →
        (ws.foldl (fun r w => r.modify w.goal (fun p => { p with trie := (p.trie.cleanup g.literal).2 })) r).Contained
          q S asked ∧
        r.Retains (ws.foldl (fun r w => r.modify w.goal (fun p => { p with trie := (p.trie.cleanup g.literal).2 })) r) := by
      intro ws
      induction ws with
      | nil => exact fun r h => ⟨h, .refl r⟩
      | cons w ws ih =>
        intro r h
        have hr : r.Retains (r.modify w.goal (fun p => { p with trie := (p.trie.cleanup g.literal).2 })) :=
          retains_modify (fun _ _ => rfl)
        obtain ⟨h1, h2⟩ := ih _ (h.setTrie w.goal (fun p => (p.trie.cleanup g.literal).2))
        exact ⟨h1, hr.trans h2⟩
    have hcount : (r.count (fun s => { s with unprovable := s.unprovable + 1 })).Contained q S asked := h.of_goals_eq rfl rfl
    have hmark := hcount.modify (i := i) (f := fun g => { g with unprovable := true }) (fun g hi =>
      ⟨rfl, (hcount.goal i g hi).congr rfl rfl rfl⟩)
    have hr := retains_modify (r := r.count (fun s => { s with unprovable := s.unprovable + 1 })) (i := i)
      (f := fun g => { g with unprovable := true }) (fun _ _ => rfl)
    obtain ⟨h1, h2⟩ := key g.waiters.toList _ hmark
    exact ⟨h1, fun j b hj => (hr.trans h2) j b hj⟩

theorem Contained.addGoal (h : r.Contained q S asked) {l : Literal W} (hk : r.table.index[l.variant]? = none)
    (hl : l.Within S) (hp : l.isPrimitive = true → l ∈ asked) : (r.addGoal q l).Contained q S asked := by
  have hr := retains_addGoal (q := q) hk
  constructor
  · intro j b hj
    rw [addGoal_goal? hk] at hj
    split at hj
    · injection hj with hj
      subst hj
      refine ⟨hl, hp, ⟨fun k => ?_, ?_⟩, fun f hf => ?_, fun w hw => ?_⟩
      · simp [newGoal, Subgoal.new, Store.empty, Store.toList]
      · simp [newGoal, Subgoal.new, Store.empty, Store.toList]
      · cases hf
      · simp [newGoal, Subgoal.new] at hw
    · exact (h.goal j b hj).mono hr
  · intro j b hj
    rw [addGoal_goal? hk] at hj
    rw [addGoal_index hk, Std.HashMap.getElem?_insert]
    split at hj
    · rename_i e
      injection hj with hj
      subst hj
      rw [if_pos (by simp [newGoal, Subgoal.new]), e]
    · rw [if_neg]
      · exact h.indexed j b hj
      · intro e
        have := h.indexed j b hj
        rw [← eq_of_beq e, hk] at this
        cases this

omit [Weight W] in
theorem addGoal_facts {l : Literal W} (hk : r.table.index[l.variant]? = none) (j : Nat) :
    (r.addGoal q l).table.facts j = r.table.facts j := by
  rw [Table.facts, Table.facts, addGoal_goal? hk]
  split
  · rename_i e
    rw [e, Table.goal?, Array.getElem?_eq_none (Nat.le_refl _)]
    rfl
  · rfl

/-! ## What a step keeps -/

/-- A negation is decided once, so that it holds no more than one fact: tasks that lead to its decision have a stake in
it, and a fact has as much as a task about to accept one. -/
structure Stays (q : Query W) (S asked : List (Literal W)) (r : Run W) (t : Task W) (ts : List (Task W)) (r' : Run W) :
    Prop where
  table   : r'.Contained q S asked
  retains : r.Retains r'
  tasks   : ∀ u ∈ ts, u.Confined q S r'
  old     : ∀ i g, r.table.goal? i = some g → g.literal.isNegated = true →
    (ts.map (Task.stake i)).sum + 2 * (r'.table.facts i).length ≤ t.stake i + 2 * (r.table.facts i).length
  new     : ∀ i g, r.table.goal? i = none → r'.table.goal? i = some g →
    (ts.map (Task.stake i)).sum + 2 * (r'.table.facts i).length ≤ 3

variable {t : Task W} {ts : List (Task W)}

omit [Weight W] in
/-- As many goals as before are the same places. -/
theorem goal?_none_of_size (h : r'.table.goals.size = r.table.goals.size) (hi : r.table.goal? i = none) :
    r'.table.goal? i = none := by
  rw [Table.goal?, Array.getElem?_eq_none_iff] at hi ⊢
  omega

/-- A step without new goals and facts. -/
theorem Stays.of_sameFacts (h : r'.Contained q S asked) (hr : r.Retains r') (hs : r.SameFacts r')
    (htasks : ∀ u ∈ ts, u.Confined q S r)
    (hstake : ∀ i g, r.table.goal? i = some g → g.literal.isNegated = true → (ts.map (Task.stake i)).sum ≤ t.stake i) :
    r.Stays q S asked t ts r' := by
  refine ⟨h, hr, fun u hu => (htasks u hu).mono hr, fun i g hi hn => ?_, fun i g hi hi' => ?_⟩
  · have := hstake i g hi hn
    rw [hs.2 i]
    omega
  · rw [goal?_none_of_size hs.1 hi] at hi'
    cases hi'

/-- A step that makes a goal and has it searched.  What it does besides changes no facts. -/
theorem Stays.of_addGoal {l : Literal W} (hk : r.table.index[l.variant]? = none) (h : r'.Contained q S asked)
    (hr : (r.addGoal q l).Retains r') (hs : (r.addGoal q l).SameFacts r')
    (htasks : ∀ u ∈ ts, u.Confined q S (r.addGoal q l))
    (hold : ∀ i, i < r.table.goals.size → (ts.map (Task.stake i)).sum ≤ t.stake i)
    (hnew : (ts.map (Task.stake r.table.goals.size)).sum ≤ 3) : r.Stays q S asked t ts r' := by
  refine ⟨h, (retains_addGoal hk).trans hr, fun u hu => (htasks u hu).mono hr, fun i g hi _ => ?_, fun i g hi hi' => ?_⟩
  · have := hold i (Table.goal?_lt hi)
    rw [hs.2 i, addGoal_facts hk]
    omega
  · have hlt := Table.goal?_lt hi'
    rw [hs.1, size_addGoal hk] at hlt
    have hge : r.table.goals.size ≤ i := by
      by_contra hc
      rw [Table.goal?, Array.getElem?_eq_getElem (by omega)] at hi
      cases hi
    obtain rfl : i = r.table.goals.size := by omega
    rw [hs.2, addGoal_facts hk, Table.facts, hi]
    simpa using hnew

/-- A step that only hands on tasks. -/
theorem Stays.of_tasks (h : r.Contained q S asked) (hg : r'.table.goals = r.table.goals)
    (hx : r'.table.index = r.table.index) (htasks : ∀ u ∈ ts, u.Confined q S r)
    (hstake : ∀ i g, r.table.goal? i = some g → g.literal.isNegated = true → (ts.map (Task.stake i)).sum ≤ t.stake i) :
    r.Stays q S asked t ts r' := by
  refine .of_sameFacts (h.of_goals_eq hg hx) (retains_of_goals_eq hg) ⟨by rw [hg], fun i => ?_⟩ htasks hstake
  rw [Table.facts, Table.facts, Table.goal?, hg]
  rfl

/-- A step of a positive goal that only hands on tasks: stakes in the goal itself do not count. -/
theorem Stays.of_positive (h : r.Contained q S asked) (hi : r.table.goal? i = some g) (hn : g.literal.isNegated = false)
    (ht : r'.table = r.table) (htasks : ∀ u ∈ ts, u.Confined q S r)
    (hstake : ∀ k, i ≠ k → (ts.map (Task.stake k)).sum = 0) : r.Stays q S asked t ts r' := by
  refine .of_tasks h (by rw [ht]) (by rw [ht]) htasks (fun k b hk hb => ?_)
  have hne : i ≠ k := by
    rintro rfl
    rw [goal_eq hk hi, hn] at hb
    cases hb
  rw [hstake k hne]
  exact Nat.zero_le _

theorem stays_search (h : r.Contained q S asked) (hq : q.Confined S asked) (ht : (Task.search i).Confined q S r)
    (hs : r.step q (.search i) = (.ok ts, r')) : r.Stays q S asked (.search i) ts r' := by
  obtain ⟨g, hi⟩ := ht
  have hg := h.goal i g hi
  simp only [step, search, hi] at hs
  split at hs
  · rename_i hn
    unfold searchNegation at hs
    split at hs
    · cases hs
    · split at hs
      · cases hs
      · rename_i base hbase
        rcases goalFor_cases q base r with ⟨j, hk, e⟩ | ⟨hk, e⟩
        · rw [e] at hs
          cases hs
          refine .of_tasks h rfl rfl (fun u hu => ?_) (fun k b _ _ => ?_)
          · rw [List.mem_singleton.1 hu]
            exact ⟨g, hi, hn⟩
          · simp [Task.stake]
        · rw [e] at hs
          cases hs
          have hprim : base.isPrimitive = true → base ∈ asked := fun hp =>
            hq.base _ (hg.primitive ((Literal.negate_isPrimitive hbase hn).1 hp)) _ hn hbase hp
          have hlt := Table.goal?_lt hi
          refine .of_addGoal hk (h.addGoal hk (hg.literal.negate hn hbase) hprim) (.refl _) (.refl _) (fun u hu => ?_)
            (fun k hk' => ?_) ?_
          · rcases List.mem_cons.1 hu with rfl | hu
            · exact ⟨_, addGoal_new hk⟩
            · rw [List.mem_singleton.1 hu]
              exact Task.Confined.mono (t := .decideNegation i r.table.goals.size base) ⟨g, hi, hn⟩ (retains_addGoal hk)
          · simp [Task.stake, show r.table.goals.size ≠ k by omega]
          · simp [Task.stake, show i ≠ r.table.goals.size by omega]
  · rename_i hn
    split at hs
    · rename_i hp
      obtain ⟨hanswers, htable⟩ := runPrimitive_spec q g.literal r
      cases hs
      rw [hanswers]
      refine .of_positive h hi (by simpa using hn) htable (fun u hu => ?_) (fun k hne => ?_)
      · obtain ⟨a, ha, rfl⟩ := List.mem_map.1 hu
        have hmem := hq.answer _ (hg.primitive hp) a ha
        exact ⟨g, hi, Literal.within_of_mem hmem, fun _ => .given hmem⟩
      · simp [Task.stake, hne, Function.comp_def]
    · cases hs
      refine .of_tasks h rfl rfl (fun u hu => ?_) (fun k b _ _ => by simp [Task.stake])
      rw [List.mem_singleton.1 hu]
      exact ⟨⟨g, hi, by simpa using hn⟩, fun c hc =>
        (q.kb.facts.get_sublist g.literal.predicate).mem (List.mem_of_mem_filter hc)⟩

theorem stays_tryFacts (h : r.Contained q S asked) (hq : q.Confined S asked) {left : List (Clause W)} {matched : Bool}
    (ht : (Task.tryFacts i left matched).Confined q S r) (hs : r.step q (.tryFacts i left matched) = (.ok ts, r')) :
    r.Stays q S asked (.tryFacts i left matched) ts r' := by
  obtain ⟨⟨g, hi, hn⟩, hleft⟩ := ht
  cases left with
  | nil =>
    simp only [step, tryFacts, hi] at hs
    cases hs
    refine .of_positive h hi hn rfl (List.forall_mem_singleton.2 ⟨⟨g, hi, hn⟩, fun c hc => ?_⟩) (by simp [Task.stake])
    exact (q.kb.rules.get_sublist _).mem (List.mem_of_mem_filter hc)
  | cons fact left =>
    obtain ⟨hfact, hleft⟩ := List.forall_mem_cons.1 hleft
    simp only [step, tryFacts, hi] at hs
    split at hs
    · cases hs
      exact .of_positive h hi hn rfl (by simp) (by simp)
    · split at hs
      · cases hs
        refine .of_positive h hi hn rfl (List.forall_mem_cons.2 ⟨?_, List.forall_mem_singleton.2 ⟨⟨g, hi, hn⟩, hleft⟩⟩) ?_
        · exact ⟨g, hi, Literal.within_of_mem (hq.fact fact hfact), fun _ => .stated hfact⟩
        · simp +contextual [Task.stake]
      · cases hs
        exact .of_positive h hi hn rfl (List.forall_mem_singleton.2 ⟨⟨g, hi, hn⟩, hleft⟩) (by simp [Task.stake])

/-- The rule of a goal, renamed and unified with it. -/
theorem Follows.start (hq : q.Confined S asked) (hi : r.table.goal? i = some g) (hn : g.literal.isNegated = false)
    (hg : g.literal.Within S) {c : Clause W} (hc : c ∈ q.kb.rules.clauses) {pool : VarPool} {s : Subst}
    (hs : (c.rename pool).1.head.unify g.literal = some s) :
    r.Follows S i (.start ((c.rename pool).1.subst s)) := by
  obtain ⟨f, -, hhead, hbody⟩ := Clause.rename_spec c pool
  obtain ⟨hc1, hc2⟩ := hq.rule c hc
  have hw := (Literal.within_of_mem hc1).copy hhead
  refine ⟨⟨g, hi, hn⟩, hw.subst hw hg hs, ⟨c.head, hc1, ?_⟩, fun l hl => ?_⟩
  · exact (Literal.subst_weight _ _).trans hhead.weight
  · obtain ⟨m, hm, rfl⟩ := List.mem_map.1 hl
    obtain ⟨n, hn, hcopy⟩ := forall₂_exists_left hbody hm
    obtain ⟨h1, h2⟩ := hc2 n hn
    refine ⟨((Literal.within_of_mem h1).copy hcopy).subst hw hg hs, ?_⟩
    rw [Literal.isPrimitive, Literal.subst_predicate, hcopy.predicate]
    exact h2

theorem stays_tryRules (h : r.Contained q S asked) (hq : q.Confined S asked) {left : List (Clause W)} {matched : Bool}
    (ht : (Task.tryRules i left matched).Confined q S r) (hs : r.step q (.tryRules i left matched) = (.ok ts, r')) :
    r.Stays q S asked (.tryRules i left matched) ts r' := by
  obtain ⟨⟨g, hi, hn⟩, hleft⟩ := ht
  cases left with
  | nil =>
    simp only [step, tryRules, hi] at hs
    cases hs
    obtain ⟨h1, h2⟩ := h.markUnprovable i
    split
    · exact .of_positive h hi hn rfl (by simp) (by simp)
    · exact .of_sameFacts h1 h2 (sameFacts_markUnprovable r i) (by simp) (by simp)
  | cons rule left =>
    obtain ⟨hrule, hleft⟩ := List.forall_mem_cons.1 hleft
    simp only [step, tryRules, hi] at hs
    split at hs
    · cases hs
      exact .of_positive h hi hn rfl (by simp) (by simp)
    · split at hs
      · rename_i s hunify
        cases hs
        refine .of_positive h hi hn rfl (List.forall_mem_cons.2 ⟨?_, List.forall_mem_singleton.2 ⟨⟨g, hi, hn⟩, hleft⟩⟩)
          (by simp [Task.stake])
        exact Follows.start hq hi hn (h.goal i g hi).literal hrule hunify
      · cases hs
        exact .of_positive h hi hn rfl (List.forall_mem_singleton.2 ⟨⟨g, hi, hn⟩, hleft⟩) (by simp [Task.stake])

theorem stays_decideNegation (h : r.Contained q S asked) {j : Nat} {base : Literal W}
    (ht : (Task.decideNegation i j base).Confined q S r) (hs : r.step q (.decideNegation i j base) = (.ok ts, r')) :
    r.Stays q S asked (.decideNegation i j base) ts r' := by
  obtain ⟨g, hi, hn⟩ := ht
  have hstake : ∀ {f : Clause W} (k : Nat) (b : Subgoal W), r.table.goal? k = some b → b.literal.isNegated = true →
      ([Task.accept i f .asserted].map (Task.stake k)).sum ≤ (Task.decideNegation i j base).stake k := by
    intro f k b _ _
    simp only [List.map_cons, List.map_nil, List.sum_cons, List.sum_nil, Task.stake]
    split <;> omega
  have haccept : ∀ w : W, (Task.accept i (.fact { g.literal with weight := w }) .asserted).Confined q S r := fun w =>
    ⟨g, hi, (h.goal i g hi).literal.congr rfl rfl, fun hp => by rw [hn] at hp; cases hp⟩
  simp only [step, decideNegation] at hs
  split at hs
  · rename_i g' b hi' hj
    cases goal_eq hi hi'
    split at hs
    · cases hs
      exact .of_tasks h rfl rfl (List.forall_mem_singleton.2 (haccept g.literal.weight)) hstake
    · split at hs
      · cases hs
        obtain ⟨h1, h2⟩ := h.markUnprovable i
        exact .of_sameFacts h1 h2 (sameFacts_markUnprovable r i) (by simp) (by simp)
      · cases hs
        -- the entry of a weighted negation changes no goal
        exact .of_tasks h rfl rfl (List.forall_mem_singleton.2 (haccept _)) hstake
  · cases hs
    exact .of_tasks h rfl rfl (by simp) (by simp)

theorem stays_notify (h : r.Contained q S asked) {ws : List (Waiter W)} {f : Clause W}
    (ht : (Task.notify ws f).Confined q S r) (hs : r.step q (.notify ws f) = (.ok ts, r')) :
    r.Stays q S asked (.notify ws f) ts r' := by
  obtain ⟨hws, hf⟩ := ht
  cases ws with
  | nil =>
    simp only [step, notify] at hs
    cases hs
    exact .of_tasks h rfl rfl (by simp) (by simp)
  | cons w ws =>
    obtain ⟨hw, hws⟩ := List.forall_mem_cons.1 hws
    simp only [step, notify] at hs
    cases hs
    split
    · exact .of_tasks h rfl rfl (by simp) (by simp)
    · exact .of_tasks h rfl rfl (List.forall_mem_cons.2 ⟨⟨hw, hf⟩, List.forall_mem_singleton.2 ⟨hws, hf⟩⟩) (by simp [Task.stake])

theorem stays_feed (h : r.Contained q S asked) {d : Derivation W} {left : List (Clause W)}
    (ht : (Task.feed i d left).Confined q S r) (hs : r.step q (.feed i d left) = (.ok ts, r')) :
    r.Stays q S asked (.feed i d left) ts r' := by
  obtain ⟨hd, hleft⟩ := ht
  cases left with
  | nil =>
    simp only [step, feed] at hs
    cases hs
    exact .of_tasks h rfl rfl (by simp) (by simp)
  | cons f left =>
    obtain ⟨hf, hleft⟩ := List.forall_mem_cons.1 hleft
    simp only [step, feed] at hs
    cases hs
    split
    · exact .of_tasks h rfl rfl (by simp) (by simp)
    · exact .of_tasks h rfl rfl (List.forall_mem_cons.2 ⟨⟨hd, hf⟩, List.forall_mem_singleton.2 ⟨hd, hleft⟩⟩)
        (by simp [Task.stake])

/-- A goal with one more fact, whether or not it takes another one. -/
theorem Contained.addFact (h : r.Contained q S asked) (hi : r.table.goal? i = some g) {f : Clause W} {origin : Origin}
    {fast : Bool} {g' : Subgoal W} (hadd : g.addFact f origin = some (fast, g')) (hw : f.head.Within S)
    (hf : g.literal.isNegated = false → q.Offers S f) (full : Bool) :
    (if full = true then { g' with capped := true } else g').literal = g.literal ∧
      (if full = true then { g' with capped := true } else g').Confined q S asked r := by
  have hg := h.goal i g hi
  obtain ⟨hlit, hwaiters, -⟩ := Subgoal.addFact_rest hadd
  have hconf : g'.Confined q S asked r := by
    refine ⟨hlit ▸ hg.literal, fun hp => ?_, Subgoal.addFact_keyed hg.keyed hadd, fun c hc => ?_, fun w hw => ?_⟩
    · rw [hlit] at hp ⊢
      exact hg.primitive hp
    · rw [Subgoal.addFact_facts hadd, List.mem_append, List.mem_singleton] at hc
      rw [hlit]
      rcases hc with hc | rfl
      · exact hg.fact c hc
      · exact ⟨hw, hf⟩
    · rw [hwaiters] at hw
      exact hg.waiter w hw
  split
  · exact ⟨hlit, hconf.congr rfl rfl rfl⟩
  · exact ⟨hlit, hconf⟩

theorem stays_accept (h : r.Contained q S asked) {f : Clause W} {origin : Origin}
    (ht : (Task.accept i f origin).Confined q S r) (hs : r.step q (.accept i f origin) = (.ok ts, r')) :
    r.Stays q S asked (.accept i f origin) ts r' := by
  obtain ⟨g, hi, hw, hf⟩ := ht
  simp only [step, accept, hi] at hs
  split at hs
  · cases hs
    exact .of_tasks h rfl rfl (by simp) (by simp)
  · split at hs
    · cases hs
      exact .of_tasks h rfl rfl (by simp) (by simp)
    · rename_i fast g' hadd
      cases hs
      generalize (i == 0 && q.maxSamples.any (fun n => n ≤ g'.factCount)) = full
      obtain ⟨h1, h2⟩ := h.addFact hi hadd hw hf full
      obtain ⟨-, hwaiters, -⟩ := Subgoal.addFact_rest hadd
      have hat := facts_modify (f := fun _ => if full = true then { g' with capped := true } else g') hi
      rw [facts_accept hadd full] at hat
      have hr : r.Retains (r.modify i (fun _ => if full = true then { g' with capped := true } else g')) :=
        retains_modify (fun b hb => by rw [goal_eq hb hi]; exact h1)
      have hcont : (r.modify i (fun _ => if full = true then { g' with capped := true } else g')).Contained q S asked :=
        h.modify (fun b hb => by rw [goal_eq hb hi]; exact ⟨h1, h2⟩)
      refine ⟨hcont.of_goals_eq rfl rfl, hr, ?_, fun k b hk hb => ?_, fun k b hk hk' => ?_⟩
      · refine List.forall_mem_singleton.2 ⟨fun w hw => ((h.goal i g hi).waiter w ?_).mono hr, hw⟩
        rw [← hwaiters]
        exact Array.mem_toList_iff.1 hw
      · show _ + 2 * ((r.modify i _).table.facts k).length ≤ _
        rw [hat]
        simp only [List.map_cons, List.map_nil, List.sum_cons, List.sum_nil, Task.stake]
        split
        · rename_i e
          rw [← e, Table.facts, hi]
          simp
          omega
        · omega
      · change (r.modify i _).table.goal? k = some b at hk'
        rw [goal?_none_of_size (r := r) (size_modify r i _) hk] at hk'
        cases hk'

theorem Contained.wait (h : r.Contained q S asked) (j : Nat) {w : Waiter W} (hw : r.Follows S w.goal w.derivation) :
    (r.modify j (fun c => c.wait w)).Contained q S asked := by
  refine h.modify (fun g hj => ?_)
  have hg := h.goal j g hj
  refine ⟨rfl, hg.literal, hg.primitive, hg.keyed, hg.fact, fun w' hw' => ?_⟩
  rcases Array.mem_push.1 hw' with hw' | rfl
  · exact hg.waiter w' hw'
  · exact hw

theorem stays_advance (h : r.Contained q S asked) {d : Derivation W} (ht : (Task.advance i d).Confined q S r)
    (hs : r.step q (.advance i d) = (.ok ts, r')) : r.Stays q S asked (.advance i d) ts r' := by
  have hd : r.Follows S i d := ht
  cases hbody : d.rule.body with
  | nil =>
    simp only [step, advance, hbody] at hs
    cases hs
  | cons first rest =>
    obtain ⟨hfirst, hprim⟩ := hd.body first (by rw [hbody]; exact List.mem_cons_self)
    simp only [step, advance, hbody, hprim, Bool.false_eq_true, if_false] at hs
    split at hs
    · cases hs
    · -- the derivation waits at the goal of its first literal, in the run `r₀` that has this goal
      have hwait : ∀ {r₀ : Run W} (j : Nat) (trie : Trie W), r₀.Contained q S asked → r₀.Follows S i d →
          ((r₀.modify i (fun g => { g with trie := trie })).modify j (fun c => c.wait ⟨i, d⟩)).Contained q S asked ∧
          r₀.Retains ((r₀.modify i (fun g => { g with trie := trie })).modify j (fun c => c.wait ⟨i, d⟩)) ∧
          r₀.SameFacts ((r₀.modify i (fun g => { g with trie := trie })).modify j (fun c => c.wait ⟨i, d⟩)) := by
        intro r₀ j trie h₀ hd₀
        have hr : r₀.Retains (r₀.modify i (fun g => { g with trie := trie })) := retains_modify (fun _ _ => rfl)
        have hs : r₀.SameFacts (r₀.modify i (fun g => { g with trie := trie })) := sameFacts_modify r₀ i (fun _ => rfl)
        refine ⟨(h₀.setTrie i (fun _ => trie)).wait j (hd₀.mono hr), hr.trans (retains_modify (fun _ _ => rfl)), ?_⟩
        exact hs.trans (sameFacts_modify (f := fun c => c.wait ⟨i, d⟩) _ j (fun _ => rfl))
      simp only [awaitGoal] at hs
      rcases goalFor_cases q first r with ⟨j, hk, e⟩ | ⟨hk, e⟩
      · rw [e] at hs
        dsimp only at hs
        split at hs
        · rename_i c g hj hi
          split at hs
          · cases hs
            exact .of_tasks h rfl rfl (by simp) (by simp)
          · split at hs
            · cases hs
            · rename_i trie _
              cases hs
              obtain ⟨h1, h2, h3⟩ := hwait j trie h hd
              refine .of_sameFacts h1 h2 h3 (List.forall_mem_singleton.2 ⟨hd, fun f hf => ?_⟩) (by simp [Task.stake])
              exact ((h.goal j c hj).fact f hf).1
        · cases hs
          exact .of_tasks h rfl rfl (by simp) (by simp)
      · rw [e] at hs
        have h₀ : (r.addGoal q first).Contained q S asked :=
          h.addGoal hk hfirst (fun hp => by rw [hprim] at hp; cases hp)
        dsimp only at hs
        split at hs
        · rename_i c g hj hi
          split at hs
          · cases hs
            exact .of_addGoal hk h₀ (.refl _) (.refl _) (by simp) (by simp) (by simp)
          · split at hs
            · cases hs
            · rename_i trie _
              cases hs
              obtain ⟨h1, h2, h3⟩ := hwait r.table.goals.size trie h₀ (hd.mono (retains_addGoal hk))
              refine .of_addGoal hk h1 h2 h3 (List.forall_mem_singleton.2 ⟨_, addGoal_new hk⟩) (fun k hk' => ?_) ?_
              · simp [Task.stake, show r.table.goals.size ≠ k by omega]
              · simp [Task.stake]
        · cases hs
          exact .of_addGoal hk h₀ (.refl _) (.refl _) (by simp) (by simp) (by simp)

omit [Weight W] in
/-- What is left of a rule once its first literal has met a fact. -/
theorem Follows.resolve {d : Derivation W} (h : r.Follows S i d) {f : Literal W} (hf : f.Within S) {rest : Clause W}
    (hs : d.rule.resolve f = some rest) (node : Nat) : r.Follows S i ⟨rest, node⟩ := by
  unfold Clause.resolve at hs
  split at hs
  · cases hs
  · rename_i first tail hbody
    obtain ⟨s, hunify, rfl⟩ := Option.map_eq_some_iff.1 hs
    have hfirst := (h.body first (by rw [hbody]; exact List.mem_cons_self)).1
    refine ⟨h.goal, h.head.subst hfirst hf hunify, ?_, fun l hl => ?_⟩
    · obtain ⟨m, hm, e⟩ := h.weight
      exact ⟨m, hm, (Literal.subst_weight _ _).trans e⟩
    · obtain ⟨m, hm, rfl⟩ := List.mem_map.1 hl
      obtain ⟨h1, h2⟩ := h.body m (by rw [hbody]; exact List.mem_cons_of_mem _ hm)
      refine ⟨h1.subst hfirst hf hunify, ?_⟩
      rw [Literal.isPrimitive, Literal.subst_predicate]
      exact h2

/-- A completed rule in the books of its goal. -/
theorem Contained.record (h : r.Contained q S asked) (hi : r.table.goal? i = some g) (c : Clause W) :
    (r.modify i (fun _ => (g.record c).2)).Contained q S asked ∧ r.Retains (r.modify i (fun _ => (g.record c).2)) ∧
      r.SameFacts (r.modify i (fun _ => (g.record c).2)) := by
  have hrest : (g.record c).2.literal = g.literal ∧ (g.record c).2.store = g.store ∧ (g.record c).2.waiters = g.waiters := by
    simp only [Subgoal.record]
    split <;> exact ⟨rfl, rfl, rfl⟩
  obtain ⟨h1, h2, h3⟩ := hrest
  refine ⟨h.modify (fun b hb => ?_), retains_modify (fun b hb => ?_), sameFacts_of_goal hi (record_facts g c)⟩
  · rw [goal_eq hb hi]
    exact ⟨h1, (h.goal i g hi).congr h1 h2 h3⟩
  · rw [goal_eq hb hi]
    exact h1

theorem stays_resolve (h : r.Contained q S asked) {d : Derivation W} {f : Clause W}
    (ht : (Task.resolve i d f).Confined q S r) (hs : r.step q (.resolve i d f) = (.ok ts, r')) :
    r.Stays q S asked (.resolve i d f) ts r' := by
  obtain ⟨hd, hf⟩ := ht
  simp only [step, resolve] at hs
  split at hs
  · rename_i rest g hrest hi
    split at hs
    · cases hs
    · rename_i node trie _
      have hd' := hd.resolve hf hrest node
      have h1 : (r.modify i (fun g => { g with trie := trie })).Contained q S asked := h.setTrie i (fun _ => trie)
      have hr : r.Retains (r.modify i (fun g => { g with trie := trie })) := retains_modify (fun _ _ => rfl)
      have hsame : r.SameFacts (r.modify i (fun g => { g with trie := trie })) := sameFacts_modify r i (fun _ => rfl)
      have hi' := goal?_modify_self (f := fun g => { g with trie := trie }) hi
      split at hs
      · unfold completeRule at hs
        split at hs
        · cases hs
          exact .of_sameFacts h1 hr hsame (by simp) (by simp)
        · rename_i hclosed
          rw [hi'] at hs
          dsimp only at hs
          split at hs
          · cases hs
          · rename_i c _
            obtain ⟨h2, hr2, hsame2⟩ := h1.record hi' c
            obtain ⟨b, hb, hn⟩ := hd.goal
            have hderived : rest.head.Derived S := ⟨hd'.head, hd'.weight, by simpa using hclosed⟩
            have haccept : (Task.accept i (.fact rest.head) .derived).Confined q S r :=
              ⟨g, hi, hd'.head, fun _ => .derived hderived⟩
            have hstake : ∀ (k : Nat) (b : Subgoal W), r.table.goal? k = some b → b.literal.isNegated = true →
                ([Task.accept i (.fact rest.head) .derived].map (Task.stake k)).sum ≤ (Task.resolve i d f).stake k := by
              intro k b' hk hb'
              have hne : i ≠ k := by
                rintro rfl
                rw [goal_eq hk hb, hn] at hb'
                cases hb'
              simp [Task.stake, hne]
            cases hs
            split
            · exact .of_sameFacts (h2.of_goals_eq rfl rfl) (hr.trans hr2) (hsame.trans hsame2)
                (List.forall_mem_singleton.2 haccept) hstake
            · exact .of_sameFacts h2 (hr.trans hr2) (hsame.trans hsame2) (List.forall_mem_singleton.2 haccept) hstake
      · cases hs
        exact .of_sameFacts h1 hr hsame (List.forall_mem_singleton.2 hd') (by simp [Task.stake])
  · cases hs
    exact .of_tasks h rfl rfl (by simp) (by simp)

/-- **Every step stays within the bounds.** -/
theorem step_stays (hq : q.Confined S asked) (h : r.Contained q S asked) (ht : t.Confined q S r)
    (hs : r.step q t = (.ok ts, r')) : r.Stays q S asked t ts r' := by
  cases t with
  | search i => exact stays_search h hq ht hs
  | tryFacts i left matched => exact stays_tryFacts h hq ht hs
  | tryRules i left matched => exact stays_tryRules h hq ht hs
  | decideNegation i j base => exact stays_decideNegation h ht hs
  | accept i f origin => exact stays_accept h ht hs
  | notify ws f => exact stays_notify h ht hs
  | feed i d left => exact stays_feed h ht hs
  | advance i d => exact stays_advance h ht hs
  | resolve i d f => exact stays_resolve h ht hs

end Run
end Credence
