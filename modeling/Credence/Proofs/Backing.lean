import Credence.Proofs.Binding
import Credence.Proofs.Growth
/-!
# What a run can stand up for

A standard says what the names and constants of a program are like, what its rules may conclude, whether literals have as
many terms as their predicates say, and whether only negations leave variables (`Standard`).  A run of a program that meets
it is backed (`Run.Backed`): every fact of the table and every literal of a completed rule is admitted, and where keys tell
clauses apart, completed rules lead from asserted facts and from answers of primitives to every fact (`Run.Rests`).  Only a
negation with variables, where the standard leaves room for one, or a name that cannot be negated can stop such a run
(`Standard.Refuses`).
-/
namespace Credence

variable {W : Type}

/-- What literals are made of. -/
structure Standard where
  name     : Predicate → Prop
  constant : Constant → Prop
  /-- What rules may conclude. -/
  head     : Predicate → Prop
  /-- Literals have as many terms as their predicates say. -/
  fitted   : Prop
  /-- Only negations leave variables. -/
  ground   : Prop
  /-- Clauses with the same key have heads with the same id. -/
  legible  : Prop

namespace Standard

/-- A literal to be resolved. -/
structure Allows (S : Standard) (l : Literal W) : Prop where
  name       : S.name l.predicate
  wellFormed : S.fitted → l.isWellFormed = true
  constant   : ∀ c, Term.const c ∈ l.terms → S.constant c

/-- A literal that was found.  A function without arguments has its result for a term more. -/
structure Admits (S : Standard) (l : Literal W) : Prop where
  name     : S.name l.predicate
  arity    : S.fitted → l.predicate.arity ≤ l.terms.length
  constant : ∀ c, Term.const c ∈ l.terms → S.constant c
  closed   : l.isSemiGrounded = true
  ground   : S.ground → l.Binds → l.isGrounded = true

/-- What may stop a run. -/
inductive Refuses (S : Standard) : Error → Prop
  | openNegation {text : String} : ¬ S.ground → Refuses S (.openNegation text)
  | negate {p : Predicate} {e : Error} : S.name p → p.isNegated = true → p.negate = .error e → Refuses S e

variable {S : Standard} {l m : Literal W}

theorem Allows.copy {f : Var → Var} (h : S.Allows l) (hc : Literal.Copy f l m) : S.Allows m := by
  refine ⟨hc.predicate ▸ h.name, fun hS => ?_, fun c hm => ?_⟩
  · rw [Literal.isWellFormed_iff, hc.predicate, ← hc.terms.length_eq]
    exact Literal.isWellFormed_iff.1 (h.wellFormed hS)
  · rcases hc.mem_terms hm with ⟨d, e, hd⟩ | ⟨v, -, e⟩ | hw
    · exact h.constant c hd
    · cases e
    · cases hw

/-- Unification brings no constants in. -/
theorem Allows.subst {a b : Literal W} {s : Subst} (h : S.Allows l) (hs : a.unify b = some s)
    (ha : ∀ c, Term.const c ∈ a.terms → S.constant c) (hb : ∀ c, Term.const c ∈ b.terms → S.constant c) :
    S.Allows (l.subst s) := by
  have key : ∀ {ts : List Term}, (∀ c, Term.const c ∈ ts → S.constant c) →
      ∀ t ∈ ts, ∀ c, t = .const c → S.constant c := fun h t ht c e => h c (e ▸ ht)
  refine ⟨by rw [Literal.subst_predicate]; exact h.name, fun hS => ?_, fun c hc => ?_⟩
  · rw [Literal.isWellFormed_iff, Literal.subst_predicate, Literal.subst_terms, List.length_map]
    exact Literal.isWellFormed_iff.1 (h.wellFormed hS)
  · have ht := (Literal.unify_eq_some hs).2.1
    exact Literal.subst_closed ht (Literal.unify_closed hs (key ha) (key hb)) (key h.constant) _ hc c rfl

theorem Allows.admits (h : S.Allows l) (hc : l.isSemiGrounded = true) (hg : S.ground → l.Binds → l.isGrounded = true) :
    S.Admits l := ⟨h.name, fun hS => (Literal.isWellFormed_iff.1 (h.wellFormed hS)).ge, h.constant, hc, hg⟩

/-- The weight does not matter. -/
theorem Admits.congr (h : S.Admits l) (hp : m.predicate = l.predicate) (ht : m.terms = l.terms) : S.Admits m := by
  refine ⟨hp ▸ h.name, by rw [hp, ht]; exact h.arity, by rw [ht]; exact h.constant, ?_, fun hS hb => ?_⟩
  · rw [Literal.isSemiGrounded, ht]
    exact h.closed
  · rw [Literal.isGrounded, ht]
    exact h.ground hS (hb.congr hp.symm)

end Standard

/-! ## Answers of primitives -/

theorem eq_map_of_mapM : ∀ {ts : List Term} {cs : List Constant}, ts.mapM Term.const? = some cs → ts = cs.map .const
  | [],      cs, h => by
    injection h with h
    rw [← h]
    rfl
  | t :: ts, cs, h => by
    rw [List.mapM_cons] at h
    cases t with
    | var v => cases h
    | const c =>
      cases hts : ts.mapM Term.const? with
      | none =>
        rw [hts] at h
        cases h
      | some ds =>
        rw [hts] at h
        injection h with h
        rw [← h, eq_map_of_mapM hts]
        rfl

/-- A primitive that gives a result was called with constants. -/
theorem Run.of_callPrimitive {registry : Registry} {name : String} {ins : List Term} {out : Output}
    (h : callPrimitive registry name ins = .ok out) : ∃ args, ins = args.map .const ∧ registry.call name args = .ok out := by
  unfold callPrimitive at h
  split at h
  · rename_i args hargs
    exact ⟨args, eq_map_of_mapM hargs, h⟩
  · cases h

theorem Run.isConst_of_callPrimitive {registry : Registry} {name : String} {ins : List Term} {out : Output}
    (h : callPrimitive registry name ins = .ok out) : ∀ t ∈ ins, t.isConst = true := by
  obtain ⟨args, rfl, -⟩ := of_callPrimitive h
  exact List.forall_mem_map.2 (fun c _ => rfl)

variable [Weight W]

/-- An answer is the literal that was asked with constants for all its terms. -/
theorem Query.answers_spec {q : Query W} {l m : Literal W} (h : m ∈ q.answers l) :
    m.predicate = l.predicate ∧ m.isGrounded = true ∧ l.terms.length ≤ m.terms.length := by
  unfold Query.answers at h
  split at h
  · cases h
  · split at h
    · rename_i name _ _ out hcall
      have hins := Run.isConst_of_callPrimitive hcall
      unfold Run.instances at h
      split at h
      · rename_i hkind
        split at h
        · obtain rfl := List.mem_singleton.1 h
          rw [hkind] at hins
          exact ⟨rfl, List.all_eq_true.2 hins, Nat.le_refl _⟩
        · cases h
      · rename_i hkind
        obtain ⟨c, -, h⟩ := List.mem_filterMap.1 h
        dsimp only at h
        split at h
        · injection h with h
          subst h
          rw [hkind] at hins ⊢
          refine ⟨rfl, List.all_eq_true.2 (List.forall_mem_cons.2 ⟨rfl, hins⟩), ?_⟩
          simp only [Run.inputs, List.length_cons, List.length_drop]
          omega
        · cases h
    · cases h

/-- A primitive gives a literal with the id, if it is asked for the right one. -/
def Query.Answered (q : Query W) (id : String) : Prop := ∃ k m, m ∈ q.answers k ∧ m.id = id

/-- **A program that meets a standard.** -/
structure Query.Meets (q : Query W) (S : Standard) : Prop where
  fitted  : S.ground → S.fitted
  base    : ∀ p, S.name p → p.isNegated = true → S.name ⟨p.base, p.arity⟩
  fact    : ∀ c ∈ q.kb.facts.clauses, c.body = [] ∧ c.head.isGrounded = true ∧ S.Allows c.head
  rule    : ∀ c ∈ q.kb.rules.clauses, c.body ≠ [] ∧ S.Allows c.head ∧ S.head c.head.predicate ∧ (∀ l ∈ c.body, S.Allows l) ∧
    (S.ground → c.Timely)
  answer  : ∀ l : Literal W, S.Allows l → ∀ m ∈ q.answers l, ∀ c, Term.const c ∈ m.terms → S.constant c
  legible : S.legible → ∀ c d : Clause W, (S.Admits c.head ∧ ∀ l ∈ c.body, S.Admits l) →
    (S.Admits d.head ∧ ∀ l ∈ d.body, S.Admits l) → c.key = d.key → c.head.id = d.head.id

variable {q : Query W} {S : Standard}

theorem Query.Meets.admits_fact (hq : q.Meets S) {c : Clause W} (hc : c ∈ q.kb.facts.clauses) :
    c.body = [] ∧ S.Admits c.head := by
  obtain ⟨h1, h2, h3⟩ := hq.fact c hc
  exact ⟨h1, h3.admits (Literal.IsGrounded.isSemiGrounded h2) (fun _ _ => h2)⟩

theorem Query.Meets.admits_answer (hq : q.Meets S) {l m : Literal W} (hl : S.Allows l) (hm : m ∈ q.answers l) :
    S.Admits m := by
  obtain ⟨hp, hg, hlen⟩ := Query.answers_spec hm
  refine ⟨hp ▸ hl.name, fun hS => ?_, hq.answer l hl m hm, Literal.IsGrounded.isSemiGrounded hg, fun _ _ => hg⟩
  rw [hp, ← Literal.isWellFormed_iff.1 (hl.wellFormed hS)]
  exact hlen

/-- What a negation negates is allowed; nothing is a negated primitive. -/
theorem Query.Meets.allows_negate (hq : q.Meets S) {l base : Literal W} (hl : S.Allows l) (hn : l.isNegated = true)
    (h : l.negate = .ok base) : S.Allows base ∧ base.terms = l.terms ∧ (base.isNegated = true → base.isPrimitive = false) := by
  have hsingle := (Literal.negate_isPrimitive h hn).2
  have hneg : l.predicate.isNegated = true := hn
  simp only [Literal.negate, Predicate.negate, hneg, if_true, Predicate.check] at h
  split at h
  · cases h
  · injection h with h
    subst h
    refine ⟨⟨hq.base _ hl.name hneg, hl.wellFormed, hl.constant⟩, rfl, fun hb => ?_⟩
    exact Bool.eq_false_of_not_eq_true (fun hp => hsingle ⟨hb, hp⟩)

/-! ## What holds of a run -/

namespace Run

variable (q S) (r : Run W)

/-- Completed rules lead from asserted facts and answers of primitives to the id. -/
def Rests (id : String) : Prop := Supported r.table.Completed (fun i => r.table.Asserts i ∨ q.Answered i) id

/-- An admitted literal with the id of a known fact or of an answer. -/
structure Vouches (l : Literal W) : Prop where
  admits : S.Admits l
  source : (∃ f, r.table.Knows f ∧ f.head.id = l.id) ∨ q.Answered l.id

omit [Weight W] in
/-- A rule part way through its body, with a place in the trie of its goal. -/
structure Pursues (i : Nat) (d : Derivation W) : Prop where
  node   : ∃ g π, r.table.goal? i = some g ∧ g.trie.Path d.node π
  head   : S.Allows d.rule.head ∧ S.head d.rule.head.predicate
  body   : d.rule.body ≠ [] ∧ ∀ l ∈ d.rule.body, S.Allows l
  timely : S.ground → d.rule.Timely

end Run

/-- What holds of every goal. -/
structure Subgoal.Backed (q : Query W) (S : Standard) (r : Run W) (g : Subgoal W) : Prop where
  literal  : S.Allows g.literal
  closed   : g.literal.isNegated = true → g.literal.isSemiGrounded = true ∧ g.literal.isPrimitive = false
  keyed    : g.store.Keyed
  fact     : ∀ f ∈ g.facts, f.body = [] ∧ S.Admits f.head ∧ (S.legible → r.Rests q f.head.id)
  asserted : ∀ id, g.asserted.contains id = true → ∃ f ∈ g.facts, f.head.id = id
  trie     : g.trie.Sound (r.Vouches q S)
  grounded : ∀ c ∈ g.grounded, S.head c.head.predicate ∧ S.Admits c.head ∧ ∀ l ∈ c.body, r.Vouches q S l
  recorded : ∀ k, g.groundedKeys.contains k = true → ∃ c ∈ g.grounded, c.key = k
  waiter   : ∀ w ∈ g.waiters, r.Pursues S w.goal w.derivation

/-- **What holds of the table of a run.** -/
def Run.Backed (q : Query W) (S : Standard) (r : Run W) : Prop := ∀ i g, r.table.goal? i = some g → g.Backed q S r

/-- What holds of a task on the agenda. -/
def Task.Backed (q : Query W) (S : Standard) (r : Run W) : Task W → Prop
  | .search i             => ∃ g, r.table.goal? i = some g
  | .tryFacts i left _    => (∃ g, r.table.goal? i = some g) ∧ ∀ c ∈ left, c ∈ q.kb.facts.clauses
  | .tryRules i left _    => (∃ g, r.table.goal? i = some g) ∧ ∀ c ∈ left, c ∈ q.kb.rules.clauses
  | .decideNegation i _ _ => ∃ g, r.table.goal? i = some g ∧ g.literal.isNegated = true
  | .accept _ f origin    => f.body = [] ∧ S.Admits f.head ∧ (S.legible → origin = .derived → r.Rests q f.head.id)
  | .notify ws f          => (∀ w ∈ ws, r.Pursues S w.goal w.derivation) ∧ r.Vouches q S f.head
  | .feed i d left        => r.Pursues S i d ∧ ∀ f ∈ left, r.Vouches q S f.head
  | .advance i d          => r.Pursues S i d
  | .resolve i d f        => r.Pursues S i d ∧ r.Vouches q S f.head

/-! ## It lasts -/

section Extends

variable {r r' : Run W} {i : Nat} {g g' : Subgoal W}

theorem Run.Rests.mono {id : String} (h : r.Rests q id) (hr : r.Extends r') : r'.Rests q id := by
  refine Supported.mono (fun c hc => ?_) (fun i hi => ?_) h
  · obtain ⟨j, g, hj, hc⟩ := hc
    obtain ⟨g', hj', hg⟩ := hr j g hj
    exact ⟨j, g', hj', hg.grounded c hc⟩
  · rcases hi with ⟨j, g, hj, hi⟩ | hi
    · obtain ⟨g', hj', hg⟩ := hr j g hj
      exact .inl ⟨j, g', hj', hg.asserted i hi⟩
    · exact .inr hi

theorem Run.Vouches.mono {l : Literal W} (h : r.Vouches q S l) (hr : r.Extends r') : r'.Vouches q S l := by
  refine ⟨h.admits, h.source.imp_left ?_⟩
  rintro ⟨f, ⟨i, g, hi, hf⟩, e⟩
  obtain ⟨g', hi', hg⟩ := hr i g hi
  exact ⟨f, ⟨i, g', hi', hg.facts.subset hf⟩, e⟩

omit [Weight W] in
theorem Run.Pursues.mono {d : Derivation W} (h : r.Pursues S i d) (hr : r.Extends r') : r'.Pursues S i d := by
  obtain ⟨g, π, hi, hπ⟩ := h.node
  obtain ⟨g', hi', hg⟩ := hr i g hi
  exact ⟨⟨g', π, hi', hg.trie.path hπ⟩, h.head, h.body, h.timely⟩

theorem Subgoal.Backed.mono (h : g.Backed q S r) (hr : r.Extends r') : g.Backed q S r' where
  literal := h.literal
  closed := h.closed
  keyed := h.keyed
  fact f hf := ⟨(h.fact f hf).1, (h.fact f hf).2.1, fun hS => ((h.fact f hf).2.2 hS).mono hr⟩
  asserted := h.asserted
  trie := h.trie.mono (fun _ hl => hl.mono hr)
  grounded c hc := ⟨(h.grounded c hc).1, (h.grounded c hc).2.1, fun l hl => ((h.grounded c hc).2.2 l hl).mono hr⟩
  recorded := h.recorded
  waiter w hw := (h.waiter w hw).mono hr

theorem Task.Backed.mono {t : Task W} (h : t.Backed q S r) (hr : r.Extends r') : t.Backed q S r' := by
  have hgoal : ∀ {i : Nat} {P : Literal W → Prop}, (∃ g, r.table.goal? i = some g ∧ P g.literal) →
      ∃ g, r'.table.goal? i = some g ∧ P g.literal := by
    rintro i P ⟨g, hi, hP⟩
    obtain ⟨g', hi', hg⟩ := hr i g hi
    exact ⟨g', hi', hg.literal ▸ hP⟩
  have hthere : ∀ {i : Nat}, (∃ g, r.table.goal? i = some g) → ∃ g, r'.table.goal? i = some g := by
    rintro i ⟨g, hi⟩
    obtain ⟨g', hi', -⟩ := hr i g hi
    exact ⟨g', hi'⟩
  cases t with
  | search i => exact hthere h
  | tryFacts i left matched => exact ⟨hthere h.1, h.2⟩
  | tryRules i left matched => exact ⟨hthere h.1, h.2⟩
  | decideNegation i j base => exact hgoal (P := fun l => l.isNegated = true) h
  | accept i f origin => exact ⟨h.1, h.2.1, fun hS ho => (h.2.2 hS ho).mono hr⟩
  | notify ws f => exact ⟨fun w hw => (h.1 w hw).mono hr, h.2.mono hr⟩
  | feed i d left => exact ⟨h.1.mono hr, fun f hf => (h.2 f hf).mono hr⟩
  | advance i d => exact Run.Pursues.mono h hr
  | resolve i d f => exact ⟨h.1.mono hr, h.2.mono hr⟩

/-- What holds of a goal when its trie, its waiters and its marks change. -/
theorem Subgoal.Backed.congr (h : g.Backed q S r) (hl : g'.literal = g.literal) (hs : g'.store = g.store)
    (ha : g'.asserted = g.asserted) (hc : g'.grounded = g.grounded) (hk : g'.groundedKeys = g.groundedKeys)
    (ht : g'.trie.Sound (r.Vouches q S)) (hw : ∀ w ∈ g'.waiters, r.Pursues S w.goal w.derivation) : g'.Backed q S r := by
  have hf : g'.facts = g.facts := congrArg Store.toList hs
  exact ⟨hl ▸ h.literal, by rw [hl]; exact h.closed, hs ▸ h.keyed, by rw [hf]; exact h.fact,
    by rw [ha, hf]; exact h.asserted, ht, by rw [hc]; exact h.grounded, by rw [hc, hk]; exact h.recorded, hw⟩

namespace Run

theorem Backed.soundTries (h : r.Backed q S) : r.SoundTries := fun i g hi => (h i g hi).trie.mono (fun _ _ => trivial)

theorem Backed.of_goals_eq (h : r.Backed q S) (hg : r'.table.goals = r.table.goals) : r'.Backed q S := fun i g hi =>
  (h i g (by rw [Table.goal?, ← hg]; exact hi)).mono (develops_of_goals_eq hg).extends

/-- What changes one goal: it is enough to look at that one. -/
theorem Backed.modify {f : Subgoal W → Subgoal W} (h : r.Backed q S)
    (hext : ∀ g, r.table.goal? i = some g → g.Extends (f g))
    (hf : ∀ g, r.table.goal? i = some g → g.Backed q S (r.modify i f) → (f g).Backed q S (r.modify i f)) :
    (r.modify i f).Backed q S := by
  have hr : r.Extends (r.modify i f) := extends_modify hext
  intro j b hj
  rw [goal?_modify] at hj
  split at hj
  · rename_i e
    subst e
    obtain ⟨g, hi, rfl⟩ := Option.map_eq_some_iff.1 hj
    exact hf g hi ((h i g hi).mono hr)
  · exact (h j b hj).mono hr

theorem Backed.setTrie (h : r.Backed q S) {t : Subgoal W → Trie W}
    (ht : ∀ g, r.table.goal? i = some g → (t g).Sound (r.Vouches q S) ∧ g.trie.Keeps (t g)) :
    (r.modify i (fun g => { g with trie := t g })).Backed q S := by
  have hr : r.Develops (r.modify i (fun g => { g with trie := t g })) := develops_setTrie (fun g hi => (ht g hi).2)
  refine h.modify (fun g hi => ⟨rfl, List.prefix_refl _, fun hc => ⟨hc, rfl⟩, fun _ h => h, fun _ h => h, (ht g hi).2⟩)
    (fun g hi hg => hg.congr rfl rfl rfl rfl rfl ?_ hg.waiter)
  exact (ht g hi).1.mono (fun _ hl => hl.mono hr.extends)

theorem Backed.wait (h : r.Backed q S) {w : Waiter W} (hw : r.Pursues S w.goal w.derivation) :
    (r.modify i (fun g => g.wait w)).Backed q S := by
  have hd : ∀ g : Subgoal W, g.Develops (g.wait w) := fun g => ⟨rfl, rfl, rfl, fun _ h => h, fun _ h => h, .refl _⟩
  refine h.modify (fun g _ => (hd g).extends) (fun g _ hg => hg.congr rfl rfl rfl rfl rfl hg.trie (fun w' hw' => ?_))
  rcases Array.mem_push.1 hw' with hw' | rfl
  · exact hg.waiter w' hw'
  · exact hw.mono (develops_modify (fun g _ => hd g)).extends

theorem Backed.markUnprovable (h : r.Backed q S) (i : Nat) : (r.markUnprovable i).Backed q S := by
  unfold Run.markUnprovable
  split
  · exact h
  · rename_i g hi
    rw [← Array.foldl_toList]
    have key : ∀ (ws : List (Waiter W)) (r : Run W), r.Backed q S →
        (ws.foldl (fun r w => r.modify w.goal (fun p => { p with trie := (p.trie.cleanup g.literal).2 })) r).Backed
          q S := by
      intro ws
      induction ws with
      | nil => exact fun r h => h
      | cons w ws ih =>
        exact fun r h => ih _ (h.setTrie (fun b hb => Trie.cleanup_spec (h w.goal b hb).trie g.literal))
    have hcount : (r.count (fun s => { s with unprovable := s.unprovable + 1 })).Backed q S := h.of_goals_eq rfl
    exact key g.waiters.toList _ (hcount.modify (i := i) (f := fun g => { g with unprovable := true })
      (fun b _ => ⟨rfl, List.prefix_refl _, fun hc => ⟨hc, rfl⟩, fun _ h => h, fun _ h => h, .refl _⟩)
      (fun b _ hb => hb.congr rfl rfl rfl rfl rfl hb.trie hb.waiter))

theorem Backed.goalFor (h : r.Backed q S) {l : Literal W} (hl : S.Allows l)
    (hn : l.isNegated = true → l.isSemiGrounded = true ∧ l.isPrimitive = false) : (r.goalFor q l).2.2.Backed q S := by
  have hr : r.Extends (r.goalFor q l).2.2 := (develops_goalFor q l r).extends
  rcases goalFor_cases q l r with ⟨j, -, e⟩ | ⟨hk, e⟩
  · rw [e]
    exact h
  · rw [e] at hr ⊢
    intro j b hj
    dsimp only at hj
    rw [addGoal_goal? hk] at hj
    split at hj
    · injection hj with hj
      subst hj
      refine ⟨hl, hn, ⟨fun k => ?_, ?_⟩, fun f hf => (nomatch hf), fun id hid => ?_, Trie.sound_empty, fun c hc => ?_,
        fun k hk => ?_, fun w hw => ?_⟩
      · simp [newGoal, Subgoal.new, Store.empty, Store.toList]
      · simp [newGoal, Subgoal.new, Store.empty, Store.toList]
      · simp [newGoal, Subgoal.new] at hid
      · simp [newGoal, Subgoal.new] at hc
      · simp [newGoal, Subgoal.new] at hk
      · simp [newGoal, Subgoal.new] at hw
    · exact (h j b hj).mono hr

/-- What a run stands up for is reached by its completed rules. -/
theorem Vouches.rests (h : r.Backed q S) {l : Literal W} (hl : r.Vouches q S l) (hS : S.legible) : r.Rests q l.id := by
  rcases hl.source with ⟨f, ⟨i, g, hi, hf⟩, e⟩ | ha
  · exact e ▸ ((h i g hi).fact f hf).2.2 hS
  · exact .leaf (.inr ha)

end Run

end Extends

end Credence
