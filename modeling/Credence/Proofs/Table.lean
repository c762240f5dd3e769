import Credence.Proofs.Derivation
import Credence.Proofs.Trie
import Credence.Solver.Run
/-!
# What a table has established

A run only adds to its table: goals, facts, waiting derivations, completed rules and decided negations stay
(`Run.Grows`).  Everything in the table is accounted for (`Run.Valid`): facts are stated in the program, given by a
completed rule, or decided negations; a completed rule is an instance of a rule of the program whose body was found in
the table; a waiting derivation traces a rule.  Both are said of one run at a time, and what is valid stays valid as the
run grows.
-/
namespace Credence

variable {W : Type}

/-! ## Goals of a table -/

namespace Table

theorem goal?_modify (t : Table W) (i j : Nat) (f : Subgoal W → Subgoal W) :
    (t.modify i f).goal? j = if i = j then (t.goal? j).map f else t.goal? j := by
  rw [goal?, modify, Array.getElem?_modify]
  rfl

@[simp] theorem modify_index (t : Table W) (i : Nat) (f : Subgoal W → Subgoal W) : (t.modify i f).index = t.index := rfl

@[simp] theorem modify_negations (t : Table W) (i : Nat) (f : Subgoal W → Subgoal W) :
    (t.modify i f).negations = t.negations := rfl

theorem modify_of_none {t : Table W} {i : Nat} (h : t.goal? i = none) (f : Subgoal W → Subgoal W) : t.modify i f = t := by
  have hgoals : t.goals.modify i f = t.goals := by
    refine Array.ext_getElem? (fun j => ?_)
    rw [Array.getElem?_modify]
    split
    · rename_i e
      rw [← e, show t.goals[i]? = none from h]
      rfl
    · rfl
  rw [modify, hgoals]

theorem goal?_lt {t : Table W} {i : Nat} {g : Subgoal W} (h : t.goal? i = some g) : i < t.goals.size :=
  (Array.getElem?_eq_some_iff.1 h).1

end Table

namespace Run

theorem goal?_modify (r : Run W) (i j : Nat) (f : Subgoal W → Subgoal W) :
    (r.modify i f).table.goal? j = if i = j then (r.table.goal? j).map f else r.table.goal? j :=
  Table.goal?_modify r.table i j f

variable {r : Run W} {q : Query W} {l : Literal W}

theorem goal_eq {i : Nat} {g g' : Subgoal W} (h : r.table.goal? i = some g) (h' : r.table.goal? i = some g') : g = g' := by
  rw [h] at h'
  injection h'

theorem goal?_modify_self {i : Nat} {g : Subgoal W} {f : Subgoal W → Subgoal W} (hi : r.table.goal? i = some g) : (r.modify i f).table.goal? i = some (f g) := by
  rw [goal?_modify, if_pos rfl, hi]
  rfl

/-- The run with one more goal. -/
def addGoal (q : Query W) (l : Literal W) (r : Run W) : Run W := (r.goalFor q l).2.2

theorem goalFor_known {i : Nat} (h : r.table.index[l.variant]? = some i) :
    r.goalFor q l = (i, false, r) := by
  simp [goalFor, h]

theorem goalFor_new (h : r.table.index[l.variant]? = none) :
    r.goalFor q l = (r.table.goals.size, true, r.addGoal q l) := by
  simp [addGoal, goalFor, h]

def newGoal (q : Query W) (l : Literal W) : Subgoal W :=
  Subgoal.new l (.empty q.storeCapacity) (.sized q.settings.bloomItems q.settings.bloomRate)

theorem addGoal_pool (h : r.table.index[l.variant]? = none) : (r.addGoal q l).pool = r.pool := by
  simp [addGoal, goalFor, h, count]

theorem addGoal_negations (h : r.table.index[l.variant]? = none) : (r.addGoal q l).table.negations = r.table.negations := by
  simp [addGoal, goalFor, h, count]

theorem addGoal_index (h : r.table.index[l.variant]? = none) :
    (r.addGoal q l).table.index = r.table.index.insert l.variant r.table.goals.size := by
  simp [addGoal, goalFor, h, count]

theorem addGoal_goals (h : r.table.index[l.variant]? = none) :
    (r.addGoal q l).table.goals = r.table.goals.push (newGoal q l) := by
  simp [addGoal, goalFor, h, count, newGoal]

theorem addGoal_goal? (h : r.table.index[l.variant]? = none) (j : Nat) :
    (r.addGoal q l).table.goal? j = if j = r.table.goals.size then some (newGoal q l) else r.table.goal? j := by
  rw [Table.goal?, addGoal_goals h, Array.getElem?_push]
  rfl

theorem addGoal_new (h : r.table.index[l.variant]? = none) :
    (r.addGoal q l).table.goal? r.table.goals.size = some (newGoal q l) := by rw [addGoal_goal? h, if_pos rfl]

variable {r' : Run W}

/-- Two runs that differ in the tries of their goals only. -/
structure Trims (r r' : Run W) : Prop where
  pool      : r'.pool = r.pool
  index     : r'.table.index = r.table.index
  negations : r'.table.negations = r.table.negations
  goal      : ∀ i, (r'.table.goal? i).map (fun g => { g with trie := .empty }) =
    (r.table.goal? i).map (fun g => { g with trie := .empty })

theorem Trims.refl (r : Run W) : r.Trims r := ⟨rfl, rfl, rfl, fun _ => rfl⟩

theorem Trims.trans {r'' : Run W} (h : r.Trims r') (h' : r'.Trims r'') : r.Trims r'' :=
  ⟨h'.pool.trans h.pool, h'.index.trans h.index, h'.negations.trans h.negations, fun i => (h'.goal i).trans (h.goal i)⟩

theorem Trims.exists_goal (h : r.Trims r') {i : Nat} {g' : Subgoal W} (hi : r'.table.goal? i = some g') :
    ∃ g, r.table.goal? i = some g ∧ { g' with trie := .empty } = { g with trie := (.empty : Trie W) } := by
  have := h.goal i
  rw [hi] at this
  obtain ⟨g, hg, e⟩ := Option.map_eq_some_iff.1 this.symm
  exact ⟨g, hg, e.symm⟩

theorem trims_modify (r : Run W) (i : Nat) (trie : Subgoal W → Trie W) :
    r.Trims (r.modify i (fun g => { g with trie := trie g })) := by
  refine ⟨rfl, rfl, rfl, fun j => ?_⟩
  rw [goal?_modify]
  split
  · rw [Option.map_map]
    rfl
  · rfl

/-- Goals keep their literals, facts and waiters, and nothing is decided. -/
structure Still (r r' : Run W) : Prop where
  negations : r'.table.negations = r.table.negations
  goal      : ∀ k b', r'.table.goal? k = some b' → ∃ b, r.table.goal? k = some b ∧ b'.literal = b.literal ∧
    b'.facts = b.facts ∧ b'.waiters = b.waiters ∧ b'.unprovable = b.unprovable

theorem Still.trans {r'' : Run W} (h : r.Still r') (h' : r'.Still r'') : r.Still r'' := by
  refine ⟨h'.negations.trans h.negations, fun k b'' hk => ?_⟩
  obtain ⟨b', hk', e1, e2, e3, e4⟩ := h'.goal k b'' hk
  obtain ⟨b, hb, e5, e6, e7, e8⟩ := h.goal k b' hk'
  exact ⟨b, hb, e1.trans e5, e2.trans e6, e3.trans e7, e4.trans e8⟩

theorem still_modify {i : Nat} {g : Subgoal W} {f : Subgoal W → Subgoal W} (hi : r.table.goal? i = some g)
    (h1 : (f g).literal = g.literal) (h2 : (f g).facts = g.facts) (h3 : (f g).waiters = g.waiters)
    (h4 : (f g).unprovable = g.unprovable) : r.Still (r.modify i f) := by
  refine ⟨rfl, fun k b' hk => ?_⟩
  rw [goal?_modify] at hk
  split at hk
  · rename_i e
    rw [← e, hi] at hk
    injection hk with hk
    subst hk
    exact ⟨g, by rw [← e, hi], h1, h2, h3, h4⟩
  · exact ⟨b', hk, rfl, rfl, rfl, rfl⟩

end Run

/-! ## Ground programs

Completed rules and what they rest on, known by ids. -/

/-- The ids that are reached from leaves by completed rules. -/
inductive Supported [Weight W] (rule : Clause W → Prop) (leaf : String → Prop) : String → Prop
  | leaf {i : String} : leaf i → Supported rule leaf i
  | rule {c : Clause W} : rule c → (∀ l ∈ c.body, Supported rule leaf l.id) → Supported rule leaf c.head.id

theorem Supported.mono [Weight W] {rule rule' : Clause W → Prop} {leaf leaf' : String → Prop}
    (hr : ∀ c, rule c → rule' c) (hl : ∀ i, leaf i → leaf' i) {i : String} (h : Supported rule leaf i) :
    Supported rule' leaf' i := by
  induction h with
  | leaf h => exact .leaf (hl _ h)
  | rule h _ ih => exact .rule (hr _ h) ih

namespace Table

variable (t : Table W)

def Knows (f : Clause W) : Prop := ∃ i g, t.goal? i = some g ∧ f ∈ g.facts

def Completed (c : Clause W) : Prop := ∃ i g, t.goal? i = some g ∧ c ∈ g.grounded

def Asserts (id : String) : Prop := ∃ i g, t.goal? i = some g ∧ g.asserted.contains id = true

/-- The completed rules lead from what was asserted to the id. -/
def Founded [Weight W] (id : String) : Prop := Supported t.Completed t.Asserts id

end Table

/-! ## Growth -/

structure Subgoal.Grows [Weight W] (g g' : Subgoal W) : Prop where
  literal    : g'.literal = g.literal
  facts      : ∀ f ∈ g.facts, f ∈ g'.facts
  waiters    : ∀ w ∈ g.waiters, w ∈ g'.waiters
  asserted   : ∀ id, g.asserted.contains id = true → g'.asserted.contains id = true
  trie       : g.trie.Keeps g'.trie
  grounded   : ∀ c ∈ g.grounded, c ∈ g'.grounded
  unprovable : g.unprovable = true → g'.unprovable = true

/-- **What a run never takes back.** -/
structure Run.Grows [Weight W] (r r' : Run W) : Prop where
  pool      : r.pool.issued ≤ r'.pool.issued
  goal      : ∀ i g, r.table.goal? i = some g → ∃ g', r'.table.goal? i = some g' ∧ g.Grows g'
  index     : ∀ (k : String) (i : Nat), r.table.index[k]? = some i → r'.table.index[k]? = some i
  negations : ∀ (k : String) (v : Literal W × List (Literal W)), r.table.negations[k]? = some v →
    r'.table.negations[k]? = some v

variable [Weight W]

theorem Subgoal.Grows.refl (g : Subgoal W) : g.Grows g :=
  ⟨rfl, fun _ h => h, fun _ h => h, fun _ h => h, .refl _, fun _ h => h, fun h => h⟩

theorem Subgoal.Grows.trans {g g' g'' : Subgoal W} (h : g.Grows g') (h' : g'.Grows g'') : g.Grows g'' :=
  ⟨h'.literal.trans h.literal, fun f hf => h'.facts f (h.facts f hf), fun w hw => h'.waiters w (h.waiters w hw),
    fun i hi => h'.asserted i (h.asserted i hi), h.trie.trans h'.trie, fun c hc => h'.grounded c (h.grounded c hc),
    fun hu => h'.unprovable (h.unprovable hu)⟩

namespace Run

variable {r r' r'' : Run W}

theorem Grows.refl (r : Run W) : r.Grows r :=
  ⟨Nat.le_refl _, fun _ g h => ⟨g, h, .refl g⟩, fun _ _ h => h, fun _ _ h => h⟩

theorem Grows.trans (h : r.Grows r') (h' : r'.Grows r'') : r.Grows r'' := by
  refine ⟨Nat.le_trans h.pool h'.pool, fun i g hg => ?_, fun k i hk => h'.index k i (h.index k i hk),
    fun k v hv => h'.negations k v (h.negations k v hv)⟩
  obtain ⟨g', hg', hgg⟩ := h.goal i g hg
  obtain ⟨g'', hg'', hgg'⟩ := h'.goal i g' hg'
  exact ⟨g'', hg'', hgg.trans hgg'⟩

theorem Grows.completed (h : r.Grows r') {c : Clause W} (hc : r.table.Completed c) : r'.table.Completed c := by
  obtain ⟨i, g, hg, hc⟩ := hc
  obtain ⟨g', hg', hgg⟩ := h.goal i g hg
  exact ⟨i, g', hg', hgg.grounded c hc⟩

theorem Grows.knows (h : r.Grows r') {f : Clause W} (hf : r.table.Knows f) : r'.table.Knows f := by
  obtain ⟨i, g, hg, hf⟩ := hf
  obtain ⟨g', hg', hgg⟩ := h.goal i g hg
  exact ⟨i, g', hg', hgg.facts f hf⟩

theorem Grows.founded (h : r.Grows r') {id : String} (hf : r.table.Founded id) : r'.table.Founded id := by
  refine hf.mono (fun c hc => h.completed hc) (fun i hi => ?_)
  obtain ⟨j, g, hg, hi⟩ := hi
  obtain ⟨g', hg', hgg⟩ := h.goal j g hg
  exact ⟨j, g', hg', hgg.asserted i hi⟩

end Run

/-! ## Validity -/

variable (V : Vocabulary W) (kb : KnowledgeBase W)

/-- A resolved literal stands for a fact of the table. -/
structure Table.Resolved (t : Table W) (l : Literal W) : Prop where
  literal  : V.HasLiteral 0 l
  atom     : l.isNegated = false → ∃ (a : Atom) (w : W), l = a.literal w ∧ w ∈ V.weights
  negation : l.isNegated = true → l.isSemiGrounded = true
  known    : ∃ f, t.Knows f ∧ f.head.id = l.id

/-- What a goal may hold as a fact. -/
structure Subgoal.Accepts (g : Subgoal W) (f : Clause W) : Prop where
  body     : f.body = []
  literal  : V.HasLiteral 0 f.head
  positive : g.literal.isNegated = false → ∃ (a : Atom) (w : W), f.head = a.literal w ∧ w ∈ V.weights ∧
    g.literal.Covers a ∧ (kb.States a w ∨ w = 1 ∧ ∃ c ∈ g.grounded, c.head = f.head)
  negative : g.literal.isNegated = true → f.head.predicate = g.literal.predicate ∧ f.head.terms = g.literal.terms

/-- The goal has every fact of the program that fits it. -/
def Subgoal.Ready (g : Subgoal W) : Prop :=
  ∀ c ∈ kb.factsFor g.literal, (g.literal.unify c.head).isSome = true → c ∈ g.facts

/-- No fact and no rule of the program fits. -/
def Literal.Hopeless (l : Literal W) : Prop :=
  (∀ a w, kb.States a w → ¬ l.Covers a) ∧ ∀ c ∈ kb.rules.clauses, ∀ μ a, c.head.Admits μ a → ¬ l.Covers a

/-- A completed rule is an instance of a rule of the program, with facts of the table for its body. -/
structure Table.Instantiates (t : Table W) (g : Subgoal W) (c : Clause W) : Prop where
  literal : V.HasLiteral 0 c.head
  trace   : ∃ a : Atom, c.head = a.literal 1 ∧ g.literal.Covers a ∧
    ∃ rule ∈ kb.rules.clauses, ∃ μ, rule.head.Admits μ a ∧ List.Forall₂ (Literal.Meets μ) c.body rule.body
  body    : ∀ l ∈ c.body, t.Resolved V l

/-- A derivation of a goal that has its facts, with the path to its node in the trie. -/
def Run.Derives (r : Run W) (i : Nat) (d : Derivation W) : Prop :=
  ∃ g, r.table.goal? i = some g ∧ g.literal.isNegated = false ∧ g.Ready kb ∧
    ∃ π, g.trie.Path d.node π ∧ Residual V kb g.literal r.pool.issued π d.rule

/-- A store without a capacity that knows its clauses by their keys. -/
structure Store.Sound (s : Store W) : Prop where
  capacity : s.capacity = none
  keys     : ∀ k, s.keys.contains k = true ↔ ∃ c ∈ s.toList, c.key = k
  nodup    : (s.toList.map Clause.key).Nodup

/-- A store, with or without a capacity, that knows its clauses by their keys. -/
structure Store.Keyed (s : Store W) : Prop where
  keys  : ∀ k, s.keys.contains k = true ↔ ∃ c ∈ s.toList, c.key = k
  nodup : (s.toList.map Clause.key).Nodup

/-- **What holds of every goal of a run.** -/
structure Subgoal.Valid (r : Run W) (g : Subgoal W) : Prop where
  literal  : V.HasLiteral r.pool.issued g.literal
  negation : g.literal.isNegated = true → g.literal.isSemiGrounded = true
  uncapped : g.capped = false
  store    : g.store.Sound
  fact     : ∀ f ∈ g.facts, g.Accepts V kb f
  founded  : ∀ f ∈ g.facts, r.table.Founded f.head.id
  stated   : ∀ f ∈ g.facts, f ∈ kb.facts.clauses → g.asserted.contains f.head.id = true
  asserted : ∀ id, g.asserted.contains id = true → ∃ f ∈ g.facts, f.head.id = id ∧
    (g.literal.isNegated = false → f ∈ kb.facts.clauses)
  trie     : g.trie.Sound (r.table.Resolved V)
  grounded : ∀ c ∈ g.grounded, r.table.Instantiates V kb g c
  recorded : ∀ k, g.groundedKeys.contains k = true ↔ ∃ c ∈ g.grounded, c.key = k
  waiter   : ∀ w ∈ g.waiters, r.Derives V kb w.goal w.derivation ∧
    ∃ first rest, w.derivation.rule.body = first :: rest ∧ first.variant = g.literal.variant
  hopeless : g.unprovable = true → g.literal.isNegated = false → g.literal.Hopeless kb

/-- **What holds of the table of a run.** -/
structure Run.Valid (r : Run W) : Prop where
  goal      : ∀ i g, r.table.goal? i = some g → g.Valid V kb r
  index     : ∀ (k : String) (i : Nat), r.table.index[k]? = some i → ∃ g, r.table.goal? i = some g ∧ g.literal.variant = k
  indexed   : ∀ i g, r.table.goal? i = some g → r.table.index[g.literal.variant]? = some i
  negations : ∀ (k : String) (v : Literal W × List (Literal W)), r.table.negations[k]? = some v → v.1.id = k ∧
    ∃ i g, r.table.goal? i = some g ∧ g.literal.isNegated = true ∧ v.1.predicate = g.literal.predicate ∧
      v.1.terms = g.literal.terms

variable {V kb} {r r' : Run W}

theorem Table.Resolved.mono {l : Literal W} (h : r.table.Resolved V l) (hg : r.Grows r') : r'.table.Resolved V l := by
  obtain ⟨f, hf, e⟩ := h.known
  exact ⟨h.literal, h.atom, h.negation, f, hg.knows hf, e⟩

theorem Subgoal.Accepts.mono {g g' : Subgoal W} {f : Clause W} (h : g.Accepts V kb f) (hg : g.Grows g') :
    g'.Accepts V kb f := by
  refine ⟨h.body, h.literal, fun hn => ?_, fun hn => ?_⟩
  · rw [hg.literal] at hn ⊢
    obtain ⟨a, w, h1, h2, h3, h4⟩ := h.positive hn
    refine ⟨a, w, h1, h2, h3, h4.imp_right ?_⟩
    rintro ⟨h5, c, hc, e⟩
    exact ⟨h5, c, hg.grounded c hc, e⟩
  · rw [hg.literal] at hn ⊢
    exact h.negative hn

theorem Subgoal.Accepts.eq_fact {g : Subgoal W} {f : Clause W} (h : g.Accepts V kb f) : f = .fact f.head := by
  have hb := h.body
  cases f
  simp only at hb
  rw [hb]
  rfl

theorem Subgoal.Ready.mono {g g' : Subgoal W} (h : g.Ready kb) (hg : g.Grows g') : g'.Ready kb := by
  intro c hc hu
  rw [hg.literal] at hc hu
  exact hg.facts c (h c hc hu)

theorem Table.Instantiates.mono {g g' : Subgoal W} {c : Clause W} (h : r.table.Instantiates V kb g c) (hg : r.Grows r')
    (hgg : g'.literal = g.literal) : r'.table.Instantiates V kb g' c :=
  ⟨h.literal, hgg ▸ h.trace, fun l hl => (h.body l hl).mono hg⟩

theorem Run.Derives.mono {i : Nat} {d : Derivation W} (h : r.Derives V kb i d) (hg : r.Grows r') : r'.Derives V kb i d := by
  obtain ⟨g, hgi, hn, hr, π, hp, hres⟩ := h
  obtain ⟨g', hgi', hgg⟩ := hg.goal i g hgi
  refine ⟨g', hgi', hgg.literal ▸ hn, hr.mono hgg, π, hgg.trie.path hp, ?_⟩
  rw [hgg.literal]
  exact hres.mono hg.pool

/-- A goal that is left as it is stays valid. -/
theorem Subgoal.Valid.mono {g : Subgoal W} (h : g.Valid V kb r) (hg : r.Grows r') : g.Valid V kb r' where
  literal := h.literal.mono hg.pool
  negation := h.negation
  uncapped := h.uncapped
  store := h.store
  fact := h.fact
  founded f hf := hg.founded (h.founded f hf)
  stated := h.stated
  asserted := h.asserted
  trie := h.trie.mono (fun _ hl => hl.mono hg)
  grounded c hc := (h.grounded c hc).mono hg rfl
  recorded := h.recorded
  waiter w hw := ⟨(h.waiter w hw).1.mono hg, (h.waiter w hw).2⟩
  hopeless := h.hopeless

namespace Run

theorem grows_of_table_eq (ht : r'.table = r.table) (hp : r.pool.issued ≤ r'.pool.issued) : r.Grows r' :=
  ⟨hp, fun i g h => ⟨g, by rw [ht]; exact h, .refl g⟩, fun k i h => by rw [ht]; exact h, fun k v h => by rw [ht]; exact h⟩

theorem Valid.of_table_eq (h : r.Valid V kb) (ht : r'.table = r.table) (hp : r.pool.issued ≤ r'.pool.issued) :
    r'.Valid V kb := by
  have hg := grows_of_table_eq ht hp
  refine ⟨fun i g hi => ?_, ?_, ?_, ?_⟩
  · rw [ht] at hi
    exact (h.goal i g hi).mono hg
  · rw [ht]; exact h.index
  · rw [ht]; exact h.indexed
  · rw [ht]; exact h.negations

/-- A goal is known by its variant. -/
theorem Valid.goal_unique (h : r.Valid V kb) {i j : Nat} {g g' : Subgoal W} (hi : r.table.goal? i = some g)
    (hj : r.table.goal? j = some g') (e : g.literal.variant = g'.literal.variant) : i = j := by
  have h1 := h.indexed i g hi
  rw [e, h.indexed j g' hj] at h1
  injection h1 with h1
  exact h1.symm

/-! ## Changing one goal -/

variable {i : Nat} {g : Subgoal W} {f : Subgoal W → Subgoal W}

theorem grows_modify (hi : r.table.goal? i = some g) (hg : g.Grows (f g)) : r.Grows (r.modify i f) := by
  refine ⟨Nat.le_refl _, fun j b hj => ?_, fun _ _ h => h, fun _ _ h => h⟩
  rw [goal?_modify]
  split
  · rename_i e
    rw [← e, hi] at hj
    injection hj with hj
    exact ⟨f g, by rw [← e, hi]; rfl, hj ▸ hg⟩
  · exact ⟨b, hj, .refl b⟩

theorem Valid.modify (h : r.Valid V kb) (hi : r.table.goal? i = some g) (hg : g.Grows (f g))
    (hv : (f g).Valid V kb (r.modify i f)) : (r.modify i f).Valid V kb := by
  have hgrow := grows_modify hi hg
  have hback : ∀ j b, (r.modify i f).table.goal? j = some b → (i = j ∧ b = f g) ∨ (i ≠ j ∧ r.table.goal? j = some b) := by
    intro j b hj
    rw [goal?_modify] at hj
    split at hj
    · rename_i e
      rw [← e, hi] at hj
      injection hj with hj
      exact .inl ⟨e, hj.symm⟩
    · rename_i e
      exact .inr ⟨e, hj⟩
  refine ⟨fun j b hj => ?_, fun k j hk => ?_, fun j b hj => ?_, fun k v hk => ?_⟩
  · rcases hback j b hj with ⟨-, rfl⟩ | ⟨-, hj⟩
    · exact hv
    · exact (h.goal j b hj).mono hgrow
  · obtain ⟨b, hb, e⟩ := h.index k j hk
    obtain ⟨b', hb', hbb⟩ := hgrow.goal j b hb
    exact ⟨b', hb', by rw [hbb.literal, e]⟩
  · rcases hback j b hj with ⟨rfl, rfl⟩ | ⟨-, hj⟩
    · rw [hg.literal]
      exact h.indexed i g hi
    · exact h.indexed j b hj
  · obtain ⟨h1, j, b, hb, h2, h3, h4⟩ := h.negations k v hk
    obtain ⟨b', hb', hbb⟩ := hgrow.goal j b hb
    rw [← hbb.literal] at h2 h3 h4
    exact ⟨h1, j, b', hb', h2, h3, h4⟩

end Run

/-! ## Facts -/

namespace Subgoal

/-- What adding a fact changes. -/
structure Added (g : Subgoal W) (f : Clause W) (origin : Origin) (g' : Subgoal W) : Prop where
  facts    : g'.facts = g.facts ++ [f]
  store    : g'.store.Sound
  asserted : ∀ id, g'.asserted.contains id = true ↔ g.asserted.contains id = true ∨ origin = .asserted ∧ f.head.id = id
  rest     : g'.literal = g.literal ∧ g'.waiters = g.waiters ∧ g'.trie = g.trie ∧ g'.grounded = g.grounded ∧
    g'.groundedKeys = g.groundedKeys ∧ g'.unprovable = g.unprovable ∧ g'.capped = g.capped

variable {g g' : Subgoal W} {f : Clause W} {origin : Origin}

theorem store_contains (h : g.store.Sound) (f : Clause W) : g.store.contains f = true ↔ ∃ c ∈ g.facts, c.key = f.key :=
  h.keys f.key

/-- **A fact is turned away exactly when its key is known**: the filter never decides alone. -/
theorem addFact_eq_none (h : g.store.Sound) : g.addFact f origin = none ↔ ∃ c ∈ g.facts, c.key = f.key := by
  rw [← store_contains h]
  have hfull : g.store.isFull = false := by simp [Store.isFull, h.capacity]
  cases hc : g.store.contains f with
  | true => simp [addFact, Store.add, hfull, hc]
  | false => simp [addFact, Store.add, hfull, hc]

/-- What adding a fact does to the store, and that it does nothing else but mark the fact. -/
theorem addFact_store {fast : Bool} (hs : g.addFact f origin = some (fast, g')) :
    g.store.contains f = false ∧ g' =
      { g with
        store := { g.store with clauses := g.store.clauses.push f, keys := g.store.keys.insert f.key }
        bloom := g.bloom.insert f.fingerprint
        asserted := if origin = .asserted then g.asserted.insert f.head.id else g.asserted } := by
  simp only [addFact, Store.add] at hs
  split at hs
  · cases hs
  · split at hs
    · cases hs
    · rename_i store hadd
      split at hadd
      · cases hadd
      · rename_i hroom
        obtain ⟨-, rfl⟩ := Prod.mk.inj hadd
        obtain ⟨-, rfl⟩ := Prod.mk.inj (Option.some.inj hs)
        exact ⟨(Bool.or_eq_false_iff.1 (Bool.eq_false_of_not_eq_true hroom)).2, rfl⟩

theorem addFact_facts {fast : Bool} (hs : g.addFact f origin = some (fast, g')) : g'.facts = g.facts ++ [f] := by
  rw [(addFact_store hs).2]
  simp [facts, Store.toList]

theorem addFact_rest {fast : Bool} (hs : g.addFact f origin = some (fast, g')) :
    g'.literal = g.literal ∧ g'.waiters = g.waiters ∧ g'.trie = g.trie := by
  rw [(addFact_store hs).2]
  exact ⟨rfl, rfl, rfl⟩

theorem addFact_keyed (h : g.store.Keyed) {fast : Bool} (hs : g.addFact f origin = some (fast, g')) :
    g'.store.Keyed := by
  obtain ⟨hc, rfl⟩ := addFact_store hs
  constructor
  · intro k
    rw [Std.HashSet.contains_insert, Bool.or_eq_true, h.keys k, beq_iff_eq]
    simp only [Store.toList, Array.toList_push, List.mem_append, List.mem_singleton]
    constructor
    · rintro (e | ⟨c, hc, e⟩)
      · exact ⟨f, .inr rfl, e⟩
      · exact ⟨c, .inl hc, e⟩
    · rintro ⟨c, hc | rfl, e⟩
      · exact .inr ⟨c, hc, e⟩
      · exact .inl e
  · simp only [Store.toList, Array.toList_push, List.map_append, List.map_cons, List.map_nil]
    refine List.nodup_append.2 ⟨h.nodup, by simp, fun k hk k' hk' e => ?_⟩
    rw [List.mem_singleton] at hk'
    obtain ⟨c, hc', e'⟩ := List.mem_map.1 hk
    have : g.store.contains f = true := (h.keys f.key).2 ⟨c, hc', by rw [e', e, hk']⟩
    rw [hc] at this
    cases this

theorem addFact_eq_some (h : g.store.Sound) {fast : Bool} (hs : g.addFact f origin = some (fast, g')) :
    g.Added f origin g' := by
  have hkeyed := addFact_keyed ⟨h.keys, h.nodup⟩ hs
  have hfacts := addFact_facts hs
  obtain ⟨-, rfl⟩ := addFact_store hs
  refine ⟨hfacts, ⟨h.capacity, hkeyed.keys, hkeyed.nodup⟩, fun id => ?_, rfl, rfl, rfl, rfl, rfl, rfl, rfl⟩
  dsimp only
  split
  · rename_i ho
    rw [Std.HashSet.contains_insert, Bool.or_eq_true, beq_iff_eq, or_comm, ho]
    simp
  · rename_i ho
    simp [ho]

theorem Added.grows (h : g.Added f origin g') : g.Grows g' := by
  obtain ⟨h1, h2, h3, h4, -, h6, -⟩ := h.rest
  refine ⟨h1, fun c hc => ?_, fun w hw => by rw [h2]; exact hw, fun id hid => (h.asserted id).2 (.inl hid), ?_,
    fun c hc => by rw [h4]; exact hc, fun hu => by rw [h6]; exact hu⟩
  · rw [h.facts]
    exact List.mem_append_left _ hc
  · rw [h3]
    exact .refl _

/-! ## Completed rules -/

theorem record_spec (c : Clause W) (hk : ∀ k, g.groundedKeys.contains k = true ↔ ∃ c ∈ g.grounded, c.key = k) :
    ∃ grounded keys, (g.record c).2 = { g with grounded := grounded, groundedKeys := keys } ∧
      (∀ x ∈ g.grounded, x ∈ grounded) ∧ (∀ x ∈ grounded, x ∈ g.grounded ∨ x = c) ∧ (∃ x ∈ grounded, x.key = c.key) ∧
      ∀ k, keys.contains k = true ↔ ∃ x ∈ grounded, x.key = k := by
  cases hc : g.groundedKeys.contains c.key with
  | true =>
    refine ⟨g.grounded, g.groundedKeys, by simp [record, hc], fun x hx => hx, fun x hx => .inl hx, (hk _).1 hc, hk⟩
  | false =>
    refine ⟨g.grounded.push c, g.groundedKeys.insert c.key, by simp [record, hc], fun x hx => Array.mem_push_of_mem c hx,
      fun x hx => Array.mem_push.1 hx, ⟨c, Array.mem_push_self, rfl⟩, fun k => ?_⟩
    rw [Std.HashSet.contains_insert, Bool.or_eq_true, hk k, beq_iff_eq]
    constructor
    · rintro (e | ⟨x, hx, e⟩)
      · exact ⟨c, Array.mem_push_self, e⟩
      · exact ⟨x, Array.mem_push_of_mem c hx, e⟩
    · rintro ⟨x, hx, e⟩
      rcases Array.mem_push.1 hx with hx | rfl
      · exact .inr ⟨x, hx, e⟩
      · exact .inl e

end Subgoal

/-! ## Changes that keep a table in order -/

namespace Run

variable {i : Nat} {g : Subgoal W}

theorem Valid.setTrie (h : r.Valid V kb) (trie : Subgoal W → Trie W) (hi : r.table.goal? i = some g)
    (hs : (trie g).Sound (r.table.Resolved V)) (hk : g.trie.Keeps (trie g)) :
    r.Grows (r.modify i (fun g => { g with trie := trie g })) ∧
      (r.modify i (fun g => { g with trie := trie g })).Valid V kb := by
  have hg : g.Grows { g with trie := trie g } :=
    ⟨rfl, fun _ h => h, fun _ h => h, fun _ h => h, hk, fun _ h => h, fun h => h⟩
  have hgrow : r.Grows (r.modify i (fun g => { g with trie := trie g })) := grows_modify hi hg
  have hv := (h.goal i g hi).mono hgrow
  refine ⟨hgrow, h.modify hi hg ?_⟩
  exact ⟨hv.literal, hv.negation, hv.uncapped, hv.store, fun f hf => (hv.fact f hf).mono hg, hv.founded, hv.stated,
    hv.asserted, hs.mono (fun _ hl => hl.mono hgrow), fun c hc => (hv.grounded c hc).mono (.refl _) rfl, hv.recorded,
    hv.waiter, hv.hopeless⟩

theorem Valid.addWaiter (h : r.Valid V kb) (hi : r.table.goal? i = some g) {w : Waiter W}
    (hw : r.Derives V kb w.goal w.derivation)
    (hf : ∃ first rest, w.derivation.rule.body = first :: rest ∧ first.variant = g.literal.variant) :
    r.Grows (r.modify i (fun g => g.wait w)) ∧ (r.modify i (fun g => g.wait w)).Valid V kb := by
  have hg : g.Grows (g.wait w) :=
    ⟨rfl, fun _ h => h, fun _ h => Array.mem_push_of_mem _ h, fun _ h => h, .refl _, fun _ h => h, fun h => h⟩
  have hgrow : r.Grows (r.modify i (fun g => g.wait w)) := grows_modify hi hg
  have hv := (h.goal i g hi).mono hgrow
  refine ⟨hgrow, h.modify hi hg ?_⟩
  refine ⟨hv.literal, hv.negation, hv.uncapped, hv.store, fun f hf => (hv.fact f hf).mono hg, hv.founded, hv.stated,
    hv.asserted, hv.trie, fun c hc => (hv.grounded c hc).mono (.refl _) rfl, hv.recorded, fun w' hw' => ?_, hv.hopeless⟩
  rcases Array.mem_push.1 hw' with hw' | rfl
  · exact hv.waiter w' hw'
  · exact ⟨hw.mono hgrow, hf⟩

theorem Valid.setUnprovable (h : r.Valid V kb) (hi : r.table.goal? i = some g)
    (hh : g.literal.isNegated = false → g.literal.Hopeless kb) :
    r.Grows (r.modify i (fun g => { g with unprovable := true })) ∧
      (r.modify i (fun g => { g with unprovable := true })).Valid V kb := by
  have hg : g.Grows { g with unprovable := true } :=
    ⟨rfl, fun _ h => h, fun _ h => h, fun _ h => h, .refl _, fun _ h => h, fun _ => rfl⟩
  have hgrow : r.Grows (r.modify i (fun g => { g with unprovable := true })) := grows_modify hi hg
  have hv := (h.goal i g hi).mono hgrow
  refine ⟨hgrow, h.modify hi hg ?_⟩
  exact ⟨hv.literal, hv.negation, hv.uncapped, hv.store, fun f hf => (hv.fact f hf).mono hg, hv.founded, hv.stated,
    hv.asserted, hv.trie, fun c hc => (hv.grounded c hc).mono (.refl _) rfl, hv.recorded, hv.waiter, fun _ => hh⟩

/-- A fact that a goal may hold is added to it.  It is founded because it is asserted, or because its rule is. -/
theorem Valid.addFact (h : r.Valid V kb) (hi : r.table.goal? i = some g) {f : Clause W} {origin : Origin} {g' : Subgoal W}
    (ha : g.Added f origin g') (hf : g.Accepts V kb f)
    (h1 : origin = .asserted → g.literal.isNegated = false → f ∈ kb.facts.clauses)
    (h2 : origin = .derived → f ∉ kb.facts.clauses ∧ ∃ c ∈ g.grounded, c.head = f.head) :
    r.Grows (r.modify i (fun _ => g')) ∧ (r.modify i (fun _ => g')).Valid V kb := by
  have hg := ha.grows
  have hgrow : r.Grows (r.modify i (fun _ => g')) := grows_modify (f := fun _ => g') hi hg
  have hv := (h.goal i g hi).mono hgrow
  have hi' : (r.modify i (fun _ => g')).table.goal? i = some g' := goal?_modify_self (f := fun _ => g') hi
  obtain ⟨e1, e2, e3, e4, e5, e6, e7⟩ := ha.rest
  refine ⟨hgrow, h.modify (f := fun _ => g') hi hg ?_⟩
  have hmem : ∀ {c}, c ∈ g'.facts → c ∈ g.facts ∨ c = f := by
    intro c hc
    rw [ha.facts] at hc
    simpa using hc
  refine ⟨e1 ▸ hv.literal, e1 ▸ hv.negation, e7.trans hv.uncapped, ha.store, fun c hc => ?_, fun c hc => ?_,
    fun c hc hs => ?_, fun id hid => ?_, e3 ▸ hv.trie, fun c hc => ?_, by rw [e4, e5]; exact hv.recorded,
    by rw [e1, e2]; exact hv.waiter, by rw [e1, e6]; exact hv.hopeless⟩
  · rcases hmem hc with hc | rfl
    · exact (hv.fact c hc).mono hg
    · exact hf.mono hg
  · rcases hmem hc with hc | rfl
    · exact hv.founded c hc
    · cases ho : origin with
      | asserted => exact .leaf ⟨i, g', hi', (ha.asserted _).2 (.inr ⟨ho, rfl⟩)⟩
      | derived =>
        obtain ⟨-, c', hc', e⟩ := h2 ho
        rw [← e]
        refine .rule ⟨i, g', hi', e4 ▸ hc'⟩ (fun l hl => ?_)
        obtain ⟨f', ⟨j, b, hj, hf'⟩, e'⟩ := ((h.goal i g hi).grounded c' hc').body l hl |>.known
        rw [← e']
        exact hgrow.founded ((h.goal j b hj).founded f' hf')
  · rw [ha.asserted]
    rcases hmem hc with hc | rfl
    · exact .inl (hv.stated c hc hs)
    · cases ho : origin with
      | asserted => exact .inr ⟨rfl, rfl⟩
      | derived => exact absurd hs (h2 ho).1
  · rcases (ha.asserted id).1 hid with hid | ⟨ho, e⟩
    · obtain ⟨c, hc, h3⟩ := hv.asserted id hid
      exact ⟨c, hg.facts c hc, e1 ▸ h3⟩
    · exact ⟨f, by rw [ha.facts]; simp, e, fun hn => h1 ho (e1 ▸ hn)⟩
  · rw [e4] at hc
    exact (hv.grounded c hc).mono (.refl _) e1

/-- A completed rule is recorded. -/
theorem Valid.record (h : r.Valid V kb) (hi : r.table.goal? i = some g) {c : Clause W} (hc : r.table.Instantiates V kb g c) :
    r.Grows (r.modify i (fun _ => (g.record c).2)) ∧ (r.modify i (fun _ => (g.record c).2)).Valid V kb := by
  obtain ⟨grounded, keys, e, h1, h2, -, h4⟩ := Subgoal.record_spec c (h.goal i g hi).recorded
  rw [e]
  have hg : g.Grows { g with grounded := grounded, groundedKeys := keys } :=
    ⟨rfl, fun _ h => h, fun _ h => h, fun _ h => h, .refl _, h1, fun h => h⟩
  have hgrow := grows_modify (f := fun _ => { g with grounded := grounded, groundedKeys := keys }) hi hg
  have hv := (h.goal i g hi).mono hgrow
  refine ⟨hgrow, h.modify hi hg ?_⟩
  refine ⟨hv.literal, hv.negation, hv.uncapped, hv.store, fun f hf => (hv.fact f hf).mono hg, hv.founded, hv.stated,
    hv.asserted, hv.trie, fun x hx => ?_, h4, hv.waiter, hv.hopeless⟩
  rcases h2 x hx with hx | rfl
  · exact (hv.grounded x hx).mono (.refl _) rfl
  · exact hc.mono hgrow rfl

end Run

/-! ## New goals -/

namespace Run

variable {q : Query W} {l : Literal W}

theorem grows_addGoal (h : r.table.index[l.variant]? = none) : r.Grows (r.addGoal q l) := by
  refine ⟨by rw [addGoal_pool h], fun i g hi => ⟨g, ?_, .refl g⟩, fun k i hk => ?_, fun k v hk => ?_⟩
  · have := Table.goal?_lt hi
    rw [addGoal_goal? h, if_neg (by omega)]
    exact hi
  · rw [addGoal_index h, Std.HashMap.getElem?_insert, if_neg]
    · exact hk
    · intro e
      rw [← eq_of_beq e, h] at hk
      cases hk
  · rw [addGoal_negations h]
    exact hk

theorem Valid.addGoal (hr : r.Valid V kb) (h : r.table.index[l.variant]? = none) (hcap : q.storeCapacity = none)
    (hl : V.HasLiteral r.pool.issued l) (hn : l.isNegated = true → l.isSemiGrounded = true) :
    (r.addGoal q l).Valid V kb := by
  have hgrow := grows_addGoal (q := q) h
  have hnew : (newGoal q l).Valid V kb (r.addGoal q l) := by
    have hf : (newGoal q l).facts = [] := rfl
    refine ⟨hl.mono hgrow.pool, hn, rfl, ⟨hcap, fun k => ?_, by simp [newGoal, Subgoal.new, Store.empty, Store.toList]⟩,
      ?_, ?_, ?_, fun id hid => ?_, Trie.sound_empty, ?_, fun k => ?_, ?_, fun hu => ?_⟩
    · simp [newGoal, Subgoal.new, Store.empty, Store.toList]
    · rw [hf]; intro f hf; cases hf
    · rw [hf]; intro f hf; cases hf
    · rw [hf]; intro f hf; cases hf
    · simp [newGoal, Subgoal.new] at hid
    · intro c hc
      simp [newGoal, Subgoal.new] at hc
    · simp [newGoal, Subgoal.new]
    · intro w hw
      simp [newGoal, Subgoal.new] at hw
    · cases hu
  refine ⟨fun i g hi => ?_, fun k i hk => ?_, fun i g hi => ?_, fun k v hk => ?_⟩
  · rw [addGoal_goal? h] at hi
    split at hi
    · injection hi with hi
      exact hi ▸ hnew
    · exact (hr.goal i g hi).mono hgrow
  · rw [addGoal_index h, Std.HashMap.getElem?_insert] at hk
    split at hk
    · rename_i e
      injection hk with hk
      exact ⟨newGoal q l, by rw [addGoal_goal? h, if_pos hk.symm], eq_of_beq e⟩
    · obtain ⟨g, hg, e⟩ := hr.index k i hk
      obtain ⟨g', hg', hgg⟩ := hgrow.goal i g hg
      exact ⟨g', hg', by rw [hgg.literal, e]⟩
  · rw [addGoal_goal? h] at hi
    split at hi
    · rename_i e
      injection hi with hi
      rw [addGoal_index h, ← hi, Std.HashMap.getElem?_insert, if_pos (by simp [newGoal, Subgoal.new]), e]
    · exact hgrow.index _ _ (hr.indexed i g hi)
  · rw [addGoal_negations h] at hk
    obtain ⟨h1, i, g, hg, h2⟩ := hr.negations k v hk
    obtain ⟨g', hg', hgg⟩ := hgrow.goal i g hg
    rw [← hgg.literal] at h2
    exact ⟨h1, i, g', hg', h2⟩

end Run
end Credence
