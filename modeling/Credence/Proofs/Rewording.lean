import Credence.Proofs.Keeping
/-!
# Predicates by other names

A rewording gives predicates other names.  Names that were apart stay apart, a name goes on saying whether it negates,
and the names of primitives and of rule weights stay as they are.  Keys, running orders and checks do not see the
difference, so a program in other words is told like the program, and what is kept of it is what is kept of the program
in other words (`Rewords.tellAll`).
-/
namespace Credence

variable {W : Type}

/-- **Other names for predicates.** -/
structure Rewording where
  name      : String → String
  injective : Function.Injective name
  plain     : ∀ p : Predicate, p.isPlain = true → Predicate.isPlain ⟨name p.name, p.arity⟩ = true
  negated   : ∀ s, Text.startsWith Predicate.negationMark (name s) = Text.startsWith Predicate.negationMark s
  primitive : ∀ p : Predicate, p.isPrimitive = true → name p.name = p.name
  mark      : ∀ s, Text.startsWith KnowledgeBase.weightMark s = true → name s = s

namespace Rewording

/-! ## Exchanging two names -/

/-- A name of the language, but of no primitive and no rule weight. -/
structure IsFree (s : String) : Prop where
  name      : Predicate.isName s = true
  primitive : Text.startsWith Predicate.primitiveMark s = false
  mark      : Text.startsWith KnowledgeBase.weightMark s = false

theorem IsFree.not_negated {s : String} (h : IsFree s) : Text.startsWith Predicate.negationMark s = false :=
  Predicate.isName.not_negated h.name

theorem IsFree.base {p : Predicate} (h : IsFree p.name) : p.base = p.name :=
  Predicate.base_of_not_isNegated (p := p) h.not_negated

theorem swap_cases {a b : String} (ha : IsFree a) (hb : IsFree b) (s : String) :
    Equiv.swap a b s = s ∨ IsFree s ∧ IsFree (Equiv.swap a b s) := by
  rw [Equiv.swap_apply_def]
  split
  · rename_i h
    exact .inr ⟨h ▸ ha, hb⟩
  · split
    · rename_i h
      exact .inr ⟨h ▸ hb, ha⟩
    · exact .inl rfl

/-- Any two such names may be exchanged. -/
def exchange {a b : String} (ha : IsFree a) (hb : IsFree b) : Rewording where
  name := Equiv.swap a b
  injective := (Equiv.swap a b).injective
  plain p hp := by
    rcases swap_cases ha hb p.name with h | ⟨-, h⟩
    · rw [h]
      exact hp
    · rw [Predicate.isPlain, IsFree.base (p := ⟨_, p.arity⟩) h]
      exact h.name
  negated s := by
    rcases swap_cases ha hb s with h | ⟨hs, h⟩
    · rw [h]
    · rw [hs.not_negated, h.not_negated]
  primitive p hp := by
    rcases swap_cases ha hb p.name with h | ⟨hs, -⟩
    · exact h
    · rw [Predicate.isPrimitive, hs.base, hs.primitive] at hp
      cases hp
  mark s hm := by
    rcases swap_cases ha hb s with h | ⟨hs, -⟩
    · exact h
    · rw [hs.mark] at hm
      cases hm

/-! ## In other words -/

variable (ρ : Rewording)

def predicate (p : Predicate) : Predicate := ⟨ρ.name p.name, p.arity⟩

def atom (a : Atom) : Atom := ⟨ρ.predicate a.predicate, a.args⟩

def literal (l : Literal W) : Literal W := { l with predicate := ρ.predicate l.predicate }

def clause (c : Clause W) : Clause W := ⟨ρ.literal c.head, c.body.map ρ.literal⟩

/-! ## Names apart stay apart -/

theorem predicate_injective : Function.Injective ρ.predicate := by
  rintro ⟨n, k⟩ ⟨n', k'⟩ h
  simp only [predicate, Predicate.mk.injEq] at h
  rw [ρ.injective h.1, h.2]

theorem atom_injective : Function.Injective ρ.atom := by
  rintro ⟨p, as⟩ ⟨q, bs⟩ h
  simp only [atom, Atom.mk.injEq] at h
  rw [ρ.predicate_injective h.1, h.2]

theorem literal_injective : Function.Injective (ρ.literal (W := W)) := by
  rintro ⟨w, p, ts⟩ ⟨v, q, us⟩ h
  simp only [literal, Literal.mk.injEq] at h
  rw [h.1, ρ.predicate_injective h.2.1, h.2.2]

theorem clause_injective : Function.Injective (ρ.clause (W := W)) := by
  rintro ⟨l, ls⟩ ⟨m, ms⟩ h
  simp only [clause, Clause.mk.injEq] at h
  rw [ρ.literal_injective h.1, ρ.literal_injective.list_map h.2]

/-! ## What a name says -/

@[simp] theorem isNegated_literal (l : Literal W) : (ρ.literal l).isNegated = l.isNegated := ρ.negated l.predicate.name

theorem predicate_primitive {p : Predicate} (h : p.isPrimitive = true) : ρ.predicate p = p := by
  rw [predicate, ρ.primitive p h]

/-- What is no primitive does not become one: the names of primitives are taken. -/
@[simp] theorem isPrimitive_literal (l : Literal W) : (ρ.literal l).isPrimitive = l.isPrimitive := by
  cases h : l.isPrimitive with
  | true => rw [Literal.isPrimitive, literal, ρ.predicate_primitive h, ← h, Literal.isPrimitive]
  | false =>
    refine Bool.eq_false_iff.2 (fun hp => ?_)
    have hsame : ρ.predicate l.predicate = l.predicate := ρ.predicate_injective (ρ.predicate_primitive hp)
    rw [Literal.isPrimitive, literal, hsame, ← Literal.isPrimitive, h] at hp
    cases hp

theorem isPlain_literal {l : Literal W} (h : l.isPlain = true) : (ρ.literal l).isPlain = true := by
  simp only [Literal.isPlain, Bool.and_eq_true] at h ⊢
  exact ⟨⟨ρ.plain _ h.1.1, h.1.2⟩, h.2⟩

theorem unify_literal (l m : Literal W) : (ρ.literal l).unify (ρ.literal m) = l.unify m := by
  simp only [Literal.unify, Literal.unifyInto, literal, ρ.predicate_injective.eq_iff]

theorem isPlain_clause {c : Clause W} (h : c.isPlain = true) : (ρ.clause c).isPlain = true := by
  simp only [Clause.isPlain, Bool.and_eq_true, List.all_eq_true] at h ⊢
  exact ⟨ρ.isPlain_literal h.1, List.forall_mem_map.2 (fun l hl => ρ.isPlain_literal (h.2 l hl))⟩

/-! ## Shelves -/

def shelf (s : Shelf W) : Shelf W := ⟨s.entries.map (fun e => (ρ.predicate e.1, e.2.map ρ.clause))⟩

theorem clauses_shelf (s : Shelf W) : (ρ.shelf s).clauses = s.clauses.map ρ.clause := by
  simp only [Shelf.clauses, shelf, List.flatMap_map, List.map_flatMap]

theorem push_shelf (s : Shelf W) (c : Clause W) : (ρ.shelf s).push (ρ.clause c) = ρ.shelf (s.push c) := by
  have key : ∀ es : List (Predicate × List (Clause W)),
      Shelf.pushEntry (ρ.clause c) (es.map (fun e => (ρ.predicate e.1, e.2.map ρ.clause))) =
        (Shelf.pushEntry c es).map (fun e => (ρ.predicate e.1, e.2.map ρ.clause)) := by
    intro es
    induction es with
    | nil => rfl
    | cons e es ih =>
      have hp : ρ.predicate e.1 = (ρ.clause c).head.predicate ↔ e.1 = c.head.predicate := ρ.predicate_injective.eq_iff
      rw [List.map_cons, Shelf.pushEntry, Shelf.pushEntry]
      by_cases h : e.1 = c.head.predicate
      · rw [if_pos h, if_pos (hp.2 h), List.map_cons, List.map_append]
        rfl
      · rw [if_neg h, if_neg (fun e => h (hp.1 e)), List.map_cons, ih]
  exact congrArg Shelf.mk (key s.entries)

/-! ## Keys -/

variable [Weight W]

theorem forms_literal : ∀ (seen : List Var) (ls : List (Literal W)), Clause.forms seen (ls.map ρ.literal) =
    (Clause.forms seen ls).map (fun f => (f.1, ρ.name f.2.1, f.2.2))
  | _,    []      => rfl
  | seen, l :: ls => by
    rw [List.map_cons, Clause.forms, Clause.forms, List.map_cons]
    exact congrArg _ (forms_literal _ ls)

/-- **Clauses share a key in other words exactly when they share one.** -/
theorem key_clause [LawfulWeight W] {c d : Clause W} (hc : c.isPlain = true) (hd : d.isPlain = true) :
    (ρ.clause c).key = (ρ.clause d).key ↔ c.key = d.key := by
  have hforms : ∀ c : Clause W, Clause.forms [] ((ρ.clause c).head :: (ρ.clause c).body) =
      (Clause.forms [] (c.head :: c.body)).map (fun f => (f.1, ρ.name f.2.1, f.2.2)) :=
    fun c => ρ.forms_literal [] (c.head :: c.body)
  have hinj : Function.Injective (fun f : String × String × List String => (f.1, ρ.name f.2.1, f.2.2)) := by
    rintro ⟨w, n, as⟩ ⟨w', n', as'⟩ h
    simp only [Prod.mk.injEq] at h
    rw [h.1, ρ.injective h.2.1, h.2.2]
  rw [Clause.key_eq_iff_forms (ρ.isPlain_clause hc) (ρ.isPlain_clause hd), Clause.key_eq_iff_forms hc hd, hforms, hforms,
    hinj.list_map.eq_iff]

/-! ## Running order -/

omit [Weight W] in
theorem flow_literal (r : Registry) (l : Literal W) : Flow.of r (ρ.literal l) = Flow.of r l := by
  cases h : l.isPrimitive with
  | true =>
    have hsame : ρ.literal l = l := by rw [literal, ρ.predicate_primitive h]
    rw [hsame]
  | false =>
    rw [Flow.of_ordinary r h, Flow.of_ordinary r ((ρ.isPrimitive_literal l).trans h), isNegated_literal]
    rfl

def step (s : Step W) : Step W := { s with literal := ρ.literal s.literal }

omit [Weight W] in
theorem number_literal (r : Registry) : ∀ (i : Nat) (ls : List (Literal W)),
    Step.number r i (ls.map ρ.literal) = (Step.number r i ls).map ρ.step
  | _, []      => rfl
  | i, l :: ls => by
    rw [List.map_cons, Step.number, Step.number, List.map_cons, number_literal, flow_literal]
    rfl

omit [Weight W] in
theorem least_step : ∀ ss : List (Step W), Step.least (ss.map ρ.step) = (Step.least ss).map ρ.step
  | []      => rfl
  | s :: ss => by
    rw [List.map_cons, Step.least, Step.least, least_step ss]
    cases Step.least ss with
    | none => rfl
    | some t =>
      show some (if t.goesBefore s then ρ.step t else ρ.step s) = some (ρ.step (if t.goesBefore s then t else s))
      split <;> rfl

omit [Weight W] in
theorem next?_step (ss : List (Step W)) : Step.next? (ss.map ρ.step) = (Step.next? ss).map ρ.step := by
  rw [Step.next?, Step.next?, List.filter_map, ← least_step]
  have hfree : Step.isFree (ss.map ρ.step) ∘ ρ.step = Step.isFree ss := by
    funext s
    simp only [Function.comp_apply, Step.isFree, List.all_map]
    rfl
  rw [hfree]

omit [Weight W] in
theorem schedule_step : ∀ (count : Nat) (ss : List (Step W)),
    Step.schedule count (ss.map ρ.step) = (Step.schedule count ss).map (List.map ρ.step)
  | 0,         []      => rfl
  | _ + 1,     []      => rfl
  | 0,         _ :: _  => rfl
  | count + 1, s :: ss => by
    rw [List.map_cons, Step.schedule, Step.schedule, ← List.map_cons, next?_step]
    cases Step.next? (s :: ss) with
    | none => rfl
    | some t =>
      have hfilter : ((s :: ss).map ρ.step).filter (fun u => u.position != (ρ.step t).position) =
          ((s :: ss).filter (fun u => u.position != t.position)).map ρ.step := by
        rw [List.filter_map]
        rfl
      show (Step.schedule count _).map _ = ((Step.schedule count _).map _).map _
      rw [hfilter, schedule_step, Option.map_map, Option.map_map]
      rfl

theorem reorder_clause {r : Registry} {c d : Clause W} (h : c.reorder r = .ok d) :
    (ρ.clause c).reorder r = .ok (ρ.clause d) := by
  unfold Clause.reorder at h ⊢
  split at h
  · rename_i steps hs
    injection h with h
    subst h
    have hbody : Step.schedule (ρ.clause c).body.length (Step.number r 0 (ρ.clause c).body) = some (steps.map ρ.step) := by
      rw [clause, List.length_map, number_literal, schedule_step, hs]
      rfl
    rw [hbody]
    simp only [clause, List.map_map]
    rfl
  · cases h

theorem checkRule_clause {r : Registry} {c : Clause W} (h : c.checkRule r = .ok ()) : (ρ.clause c).checkRule r = .ok () := by
  have hsafe : (ρ.clause c).isSafe = c.isSafe := by
    simp only [Clause.isSafe, Clause.bodyVars, clause, List.flatMap_map]
    rfl
  have hflows : (ρ.clause c).body.map (Flow.of r) = c.body.map (Flow.of r) := by
    simp only [clause, List.map_map]
    exact List.map_congr_left (fun l _ => ρ.flow_literal r l)
  have hfeeds : (ρ.clause c).feedsItself r = c.feedsItself r := by
    simp only [Clause.feedsItself, hflows]
  unfold Clause.checkRule at h ⊢
  rw [hsafe, hfeeds]
  split at h
  · rename_i hok
    rw [if_pos hok]
  · cases h

end Rewording

/-! ## Telling -/

/-- **A knowledge base in other words.** -/
structure Rewords [Weight W] (ρ : Rewording) (kb kb' : KnowledgeBase W) : Prop where
  registry : kb'.registry = kb.registry
  facts    : kb'.facts = ρ.shelf kb.facts
  rules    : kb'.rules = ρ.shelf kb.rules
  next     : kb'.nextWeight = kb.nextWeight
  seen     : ∀ c : Clause W, c.isPlain = true → kb'.seen.contains (ρ.clause c).key = kb.seen.contains c.key

namespace Rewords

open Rewording KnowledgeBase

variable [Weight W] {ρ : Rewording} {kb kb' : KnowledgeBase W}

theorem empty (ρ : Rewording) (registry : Registry) :
    Rewords ρ (.empty registry : KnowledgeBase W) (.empty registry) := by
  refine ⟨rfl, rfl, rfl, rfl, fun c _ => ?_⟩
  show (∅ : Std.HashSet (Nat × String)).contains _ = (∅ : Std.HashSet (Nat × String)).contains _
  rw [Std.HashSet.contains_empty, Std.HashSet.contains_empty]

theorem weightLiteral (h : Rewords ρ kb kb') (w : W) : kb'.weightLiteral w = ρ.literal (kb.weightLiteral w) := by
  have hmark : Text.startsWith KnowledgeBase.weightMark (KnowledgeBase.weightMark ++ toString kb.nextWeight) = true :=
    Text.startsWith_iff.2 ⟨_, rfl⟩
  simp only [KnowledgeBase.weightLiteral, literal, predicate, h.next, ρ.mark _ hmark]

variable [LawfulWeight W]

theorem seen_insert (h : Rewords ρ kb kb') {c : Clause W} (hc : c.isPlain = true) (d : Clause W) (hd : d.isPlain = true) :
    (kb'.seen.insert (ρ.clause c).key).contains (ρ.clause d).key = (kb.seen.insert c.key).contains d.key := by
  rw [Std.HashSet.contains_insert, Std.HashSet.contains_insert, h.seen d hd]
  congr 1
  rw [Bool.eq_iff_iff, beq_iff_eq, beq_iff_eq]
  exact ρ.key_clause hc hd

theorem storeFact (h : Rewords ρ kb kb') {c : Clause W} (hc : c.isPlain = true) :
    (kb'.storeFact (ρ.clause c)).1 = (kb.storeFact c).1 ∧ Rewords ρ (kb.storeFact c).2 (kb'.storeFact (ρ.clause c)).2 := by
  unfold KnowledgeBase.storeFact
  rw [h.seen c hc]
  split
  · exact ⟨rfl, h⟩
  · refine ⟨rfl, h.registry, ?_, h.rules, h.next, h.seen_insert hc⟩
    show kb'.facts.push (ρ.clause c) = ρ.shelf (kb.facts.push c)
    rw [h.facts, push_shelf]

theorem storeRule (h : Rewords ρ kb kb') {c : Clause W} (hc : c.isPlain = true) :
    Rewords ρ (kb.storeRule c) (kb'.storeRule (ρ.clause c)) := by
  refine ⟨h.registry, h.facts, ?_, h.next, h.seen_insert hc⟩
  show kb'.rules.push (ρ.clause c) = ρ.shelf (kb.rules.push c)
  rw [h.rules, push_shelf]

omit [LawfulWeight W] in
/-- What is kept of a new rule with a weight. -/
theorem keepRule_weighted {c : Clause W} (hnew : kb.seen.contains c.key = false) (hc : c.head.isCertain = false) :
    kb.keepRule c = (true,
      (({ kb with seen := kb.seen.insert c.key, nextWeight := kb.nextWeight + 1 } : KnowledgeBase W).storeFact
        (.fact (kb.weightLiteral c.head.weight))).2.storeRule
          ⟨{ c.head with weight := 1 }, c.body ++ [kb.weightLiteral 1]⟩) := by
  simp only [KnowledgeBase.keepRule, hnew, hc, Bool.false_eq_true, if_false]
  rfl

/-- The weight of a rule has the same name in all words. -/
theorem keepRule (h : Rewords ρ kb kb') {c : Clause W} (hc : c.isPlain = true) :
    (kb'.keepRule (ρ.clause c)).1 = (kb.keepRule c).1 ∧ Rewords ρ (kb.keepRule c).2 (kb'.keepRule (ρ.clause c)).2 := by
  have hseen := h.seen c hc
  cases hnew : kb.seen.contains c.key with
  | true =>
    simp only [KnowledgeBase.keepRule, hseen, hnew, if_true]
    exact ⟨trivial, h⟩
  | false =>
    cases hcert : c.head.isCertain with
    | true =>
      have hcert' : (ρ.clause c).head.isCertain = true := hcert
      simp only [KnowledgeBase.keepRule, hseen, hnew, hcert, hcert', if_true, Bool.false_eq_true, if_false]
      have hmark : Rewords ρ ({ kb with seen := kb.seen.insert c.key } : KnowledgeBase W)
          { kb' with seen := kb'.seen.insert (ρ.clause c).key } := ⟨h.registry, h.facts, h.rules, h.next, h.seen_insert hc⟩
      exact ⟨trivial, hmark.storeRule hc⟩
    | false =>
      have hnext : Rewords ρ ({ kb with seen := kb.seen.insert c.key, nextWeight := kb.nextWeight + 1 } : KnowledgeBase W)
          { kb' with seen := kb'.seen.insert (ρ.clause c).key, nextWeight := kb'.nextWeight + 1 } :=
        ⟨h.registry, h.facts, h.rules, by rw [h.next], h.seen_insert hc⟩
      have hfact : Clause.fact (kb'.weightLiteral (ρ.clause c).head.weight) =
          ρ.clause (.fact (kb.weightLiteral c.head.weight)) := by
        rw [h.weightLiteral]
        rfl
      have hrule : (⟨{ (ρ.clause c).head with weight := 1 }, (ρ.clause c).body ++ [kb'.weightLiteral 1]⟩ : Clause W) =
          ρ.clause ⟨{ c.head with weight := (1 : W) }, c.body ++ [kb.weightLiteral 1]⟩ := by
        rw [h.weightLiteral, clause, clause, List.map_append]
        rfl
      have hw := (isPlain_weightLiteral kb (1 : W)).1
      have hplain : (⟨{ c.head with weight := 1 }, c.body ++ [kb.weightLiteral 1]⟩ : Clause W).isPlain = true := by
        simp only [Clause.isPlain, Bool.and_eq_true, List.all_append, List.all_cons, List.all_nil, Bool.and_true] at hc ⊢
        exact ⟨hc.1, hc.2, hw⟩
      rw [keepRule_weighted hnew hcert, keepRule_weighted (hseen.trans hnew) hcert, hfact, hrule]
      refine ⟨rfl, (hnext.storeFact ?_).2.storeRule hplain⟩
      simp only [Clause.isPlain, Clause.fact, List.all_nil, Bool.and_true]
      exact (isPlain_weightLiteral kb c.head.weight).1

/-- **What is told in other words is kept in other words.** -/
theorem tell (h : Rewords ρ kb kb') {c : Clause W} (hc : c.isPlain = true) {isNew : Bool} {kb₁ : KnowledgeBase W}
    (ht : kb.tell c = .ok (isNew, kb₁)) : ∃ kb₁', kb'.tell (ρ.clause c) = .ok (isNew, kb₁') ∧ Rewords ρ kb₁ kb₁' := by
  simp only [tell_eq_ok_iff] at ht ⊢
  have hprim : (ρ.clause c).head.isPrimitive = c.head.isPrimitive := ρ.isPrimitive_literal c.head
  rcases ht with ⟨hp, e⟩ | ⟨hp, hadm, hkeep⟩
  · obtain ⟨rfl, rfl⟩ := Prod.mk.inj e
    exact ⟨kb', .inl ⟨hprim.trans hp, rfl⟩, h⟩
  · have hadm' : Admissible (ρ.clause c) :=
      ⟨(ρ.isNegated_literal c.head).trans hadm.positive, hadm.proper, List.forall_mem_map.2 hadm.certain⟩
    rcases hkeep with ⟨hbody, hground, e⟩ | ⟨hne, hcheck, d, hord, e⟩
    · obtain ⟨hnew, hstore⟩ := h.storeFact hc
      rw [← e] at hnew hstore
      refine ⟨_, .inr ⟨hprim.trans hp, hadm', .inl ⟨by rw [clause, hbody]; rfl, hground, ?_⟩⟩, hstore⟩
      exact Prod.ext hnew.symm rfl
    · obtain ⟨hnew, hkeep⟩ := h.keepRule (Building.isPlain_reorder hord hc)
      rw [← e] at hnew hkeep
      refine ⟨_, .inr ⟨hprim.trans hp, hadm', .inr ⟨by simpa [clause] using hne, ?_, ρ.clause d, ?_, ?_⟩⟩, hkeep⟩
      · rw [h.registry]
        exact ρ.checkRule_clause hcheck
      · rw [h.registry]
        exact ρ.reorder_clause hord
      · exact Prod.ext hnew.symm rfl

theorem tellAll : ∀ (cs : List (Clause W)) {kb kb' kb₁ : KnowledgeBase W}, Rewords ρ kb kb' →
    (∀ c ∈ cs, c.isPlain = true) → ∀ {n : Nat}, kb.tellAll cs = (.ok n, kb₁) →
    ∃ kb₁', kb'.tellAll (cs.map ρ.clause) = (.ok n, kb₁') ∧ Rewords ρ kb₁ kb₁'
  | [],      kb, kb', _,   h, _,   n, ht => by
    obtain ⟨e, rfl⟩ := Prod.mk.inj ht
    exact ⟨kb', by rw [← e]; rfl, h⟩
  | c :: cs, kb, kb', kb₁, h, hcs, n, ht => by
    obtain ⟨hc, hcs⟩ := List.forall_mem_cons.1 hcs
    obtain ⟨isNew, kb₂, m, htell, hrest, hn⟩ := tellAll_cons_eq_ok_iff.1 ht
    obtain ⟨kb₂', htell', h₂⟩ := h.tell hc htell
    obtain ⟨kb₁', hrest', h₁⟩ := tellAll cs h₂ hcs hrest
    exact ⟨kb₁', tellAll_cons_eq_ok_iff.2 ⟨isNew, kb₂', m, htell', hrest', hn⟩, h₁⟩

end Rewords
end Credence
