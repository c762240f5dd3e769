import Credence.Proofs.Table
/-!
# What a run still owes

The table obliges a run: every fact and every rule of the program that may fit a goal is to be tried, every waiting
derivation is to meet every fact of the goal it waits for, and every negation is to be decided.  Each such duty is done,
or some task on the agenda serves it.  A duty that is done stays done, and a task that serves it goes on serving it while
the table grows.
-/
namespace Credence

variable {W : Type}

inductive Duty (W : Type) where
  /-- Try a fact of the program for a goal. -/
  | fact (goal : Nat) (c : Clause W)
  /-- Try a rule of the program for a goal. -/
  | rule (goal : Nat) (c : Clause W)
  /-- Let a waiting derivation meet a fact. -/
  | meet (w : Waiter W) (f : Clause W)
  /-- Decide a negation. -/
  | deny (goal : Nat)

/-- Of the facts looked up for the literal, this is the only one that meets it. -/
structure KnowledgeBase.Sole (kb : KnowledgeBase W) (l : Literal W) (c : Clause W) : Prop where
  looked : c ∈ kb.factsFor l
  meets  : (l.unify c.head).isSome = true
  only   : ∀ d ∈ kb.factsFor l, (l.unify d.head).isSome = true → d = c

namespace Run

variable [Weight W]

/-- The table asks for it. -/
def Owes (q : Query W) (r : Run W) : Duty W → Prop
  | .fact i c => ∃ g, r.table.goal? i = some g ∧ g.literal.isNegated = false ∧ c ∈ q.kb.factsFor g.literal
  | .rule i c => ∃ g, r.table.goal? i = some g ∧ g.literal.isNegated = false ∧ c ∈ q.kb.rulesFor g.literal
  | .meet w f => ∃ j b, r.table.goal? j = some b ∧ w ∈ b.waiters ∧ f ∈ b.facts
  | .deny i   => ∃ g, r.table.goal? i = some g ∧ g.literal.isNegated = true

/-! ## How far a derivation got -/

/-- The derivation is a fresh copy of the rule whose head has met the goal. -/
def Started (V : Vocabulary W) (r : Run W) (i : Nat) (c : Clause W) (d : Derivation W) : Prop :=
  ∃ g pool s, r.table.goal? i = some g ∧ V.HasLiteral pool.issued g.literal ∧
    (c.rename pool).1.head.unify g.literal = some s ∧ d = .start ((c.rename pool).1.subst s)

/-- The derivation waits for the goal of its first literal, or that goal is known to have no facts. -/
def Taken (r : Run W) (i : Nat) (d : Derivation W) : Prop :=
  ∃ first rest j b, d.rule.body = first :: rest ∧ r.table.goal? j = some b ∧ b.literal.variant = first.variant ∧
    (⟨i, d⟩ ∈ b.waiters ∨ b.unprovable = true)

/-- The derivation is what a waiting one becomes by meeting a fact. -/
def Continues (r : Run W) (w : Waiter W) (f : Clause W) (d : Derivation W) : Prop :=
  w.derivation.rule.resolve f.head = some d.rule ∧ d.rule.body ≠ [] ∧
    ∃ g π l, r.table.goal? w.goal = some g ∧ g.trie.Path w.derivation.node π ∧ l.id = f.head.id ∧
      g.trie.Path d.node (π ++ [l])

/-- Meeting the fact completes the waiting derivation, and its rule has been recorded. -/
def Completes (r : Run W) (w : Waiter W) (f : Clause W) (head : Literal W) : Prop :=
  w.derivation.rule.resolve f.head = some ⟨head, []⟩ ∧
    ∃ g π l node, r.table.goal? w.goal = some g ∧ g.trie.Path w.derivation.node π ∧ l.id = f.head.id ∧
      g.trie.Path node (π ++ [l]) ∧ ∃ c ∈ g.grounded, c.key = (⟨head, π ++ [l]⟩ : Clause W).key

/-- What the facts of a base leave to its negation. -/
def complement (q : Query W) (r : Run W) (base : Literal W) (b : Subgoal W) : W :=
  1 - r.estimate q base (b.facts.map Clause.head)

/-- What leaves so little to a negation that it is given up. -/
def IsDropped (q : Query W) (w : W) : Prop := Weight.isZero (Weight.round q.settings.negationDigits w) = true

/-- **How a negation is decided** from the facts its base `b` has at the time `r₀`: as certain when there are none, as
impossible when what they leave to it rounds to zero, and else with the complementary weight. -/
inductive Outcome (q : Query W) (r₀ r : Run W) (g b : Subgoal W) (base : Literal W) : Option (Clause W) → Prop
  | certain : b.facts = [] → Outcome q r₀ r g b base (some (.fact g.literal))
  | dropped : b.facts ≠ [] → IsDropped q (r₀.complement q base b) → Outcome q r₀ r g b base none
  | weighted {leaf : Literal W} : b.facts ≠ [] → ¬ IsDropped q (r₀.complement q base b) →
    leaf = { g.literal with weight := r₀.complement q base b } →
    r.table.negations[leaf.id]? = some (leaf, b.facts.map Clause.head) → Outcome q r₀ r g b base (some (.fact leaf))

/-- Every goal that one stated fact meets has that fact. -/
def Provided (q : Query W) (r : Run W) : Prop :=
  ∀ j b c, r.table.goal? j = some b → b.literal.isNegated = false → q.kb.Sole b.literal c → c ∈ b.facts

/-- The negation of the goal was decided so at some time, when the goals had been provided for. -/
def Decides (q : Query W) (V : Vocabulary W) (r : Run W) (i : Nat) (outcome : Option (Clause W)) : Prop :=
  ∃ (r₀ : Run W) (j : Nat) (g b : Subgoal W) (base : Literal W), r₀.Valid V q.kb ∧ r₀.Provided q ∧ r₀.Grows r ∧
    r₀.table.goal? i = some g ∧ r₀.table.goal? j = some b ∧ g.literal.isNegated = true ∧
    g.literal.negate = .ok base ∧ b.literal.variant = base.variant ∧ Outcome q r₀ r g b base outcome

/-- A duty that has been seen to. -/
def Did (q : Query W) (V : Vocabulary W) (r : Run W) : Duty W → Prop
  | .fact i c => ∃ g, r.table.goal? i = some g ∧ ((g.literal.unify c.head).isSome = true → c ∈ g.facts)
  | .rule i c => (∃ g, r.table.goal? i = some g ∧ ∀ μ a, c.head.Admits μ a → ¬ g.literal.Covers a) ∨
      ∃ d, r.Started V i c d ∧ r.Taken i d
  | .meet w f => w.derivation.rule.resolve f.head = none ∨ (∃ d, r.Continues w f d ∧ r.Taken w.goal d) ∨
      ∃ head, r.Completes w f head ∧ ∃ g, r.table.goal? w.goal = some g ∧ .fact head ∈ g.facts
  | .deny i   => ∃ outcome, r.Decides q V i outcome ∧ ∃ g, r.table.goal? i = some g ∧
      (∀ f, outcome = some f → f ∈ g.facts) ∧ (outcome = none → g.unprovable = true)

/-- **The task will see to the duty.** -/
inductive Serves (q : Query W) (V : Vocabulary W) (r : Run W) : Task W → Duty W → Prop
  | searchFact {i c} : r.Owes q (.fact i c) → Serves q V r (.search i) (.fact i c)
  | searchRule {i c} : r.Owes q (.rule i c) → Serves q V r (.search i) (.rule i c)
  | searchDeny {i} : r.Owes q (.deny i) → Serves q V r (.search i) (.deny i)
  | tryFact {i c left matched} : c ∈ left → Serves q V r (.tryFacts i left matched) (.fact i c)
  | tryLater {i c left matched} : r.Owes q (.rule i c) → Serves q V r (.tryFacts i left matched) (.rule i c)
  | tryRule {i c left matched} : c ∈ left → Serves q V r (.tryRules i left matched) (.rule i c)
  | decide {i j l} : Serves q V r (.decideNegation i j l) (.deny i)
  | acceptFact {i c origin} : Serves q V r (.accept i c origin) (.fact i c)
  | acceptDenial {i f origin} : r.Decides q V i (some f) → Serves q V r (.accept i f origin) (.deny i)
  | acceptHead {w f head origin} : r.Completes w f head → Serves q V r (.accept w.goal (.fact head) origin) (.meet w f)
  | notify {w ws f} : w ∈ ws → Serves q V r (.notify ws f) (.meet w f)
  | feed {i d f left} : f ∈ left → Serves q V r (.feed i d left) (.meet ⟨i, d⟩ f)
  | advanceRule {i c d} : r.Started V i c d → Serves q V r (.advance i d) (.rule i c)
  | advanceMeet {w f d} : r.Continues w f d → Serves q V r (.advance w.goal d) (.meet w f)
  | resolve {i d f} : Serves q V r (.resolve i d f) (.meet ⟨i, d⟩ f)

/-! ## Growth -/

variable {q : Query W} {V : Vocabulary W} {r r' : Run W}

theorem Owes.mono (hg : r.Grows r') {duty : Duty W} (h : r.Owes q duty) : r'.Owes q duty := by
  cases duty with
  | fact i c =>
    obtain ⟨g, hi, hn, hc⟩ := h
    obtain ⟨g', hi', hgg⟩ := hg.goal i g hi
    exact ⟨g', hi', hgg.literal ▸ hn, hgg.literal ▸ hc⟩
  | rule i c =>
    obtain ⟨g, hi, hn, hc⟩ := h
    obtain ⟨g', hi', hgg⟩ := hg.goal i g hi
    exact ⟨g', hi', hgg.literal ▸ hn, hgg.literal ▸ hc⟩
  | meet w f =>
    obtain ⟨j, b, hj, hw, hf⟩ := h
    obtain ⟨b', hj', hbb⟩ := hg.goal j b hj
    exact ⟨j, b', hj', hbb.waiters w hw, hbb.facts f hf⟩
  | deny i =>
    obtain ⟨g, hi, hn⟩ := h
    obtain ⟨g', hi', hgg⟩ := hg.goal i g hi
    exact ⟨g', hi', hgg.literal ▸ hn⟩

omit [Weight W] in
/-- A table whose goals were there before, with the same literals, asks for nothing else but meetings. -/
theorem Owes.back (hgoal : ∀ k b', r'.table.goal? k = some b' → ∃ b, r.table.goal? k = some b ∧ b'.literal = b.literal)
    {duty : Duty W} (h : r'.Owes q duty) : r.Owes q duty ∨ ∃ w f, duty = .meet w f := by
  cases duty with
  | fact k c =>
    obtain ⟨b', hk, hn, hc⟩ := h
    obtain ⟨b, hb, e⟩ := hgoal k b' hk
    exact .inl ⟨b, hb, e ▸ hn, e ▸ hc⟩
  | rule k c =>
    obtain ⟨b', hk, hn, hc⟩ := h
    obtain ⟨b, hb, e⟩ := hgoal k b' hk
    exact .inl ⟨b, hb, e ▸ hn, e ▸ hc⟩
  | meet w f => exact .inr ⟨w, f, rfl⟩
  | deny k =>
    obtain ⟨b', hk, hn⟩ := h
    obtain ⟨b, hb, e⟩ := hgoal k b' hk
    exact .inl ⟨b, hb, e ▸ hn⟩

theorem Started.mono (hg : r.Grows r') {i : Nat} {c : Clause W} {d : Derivation W} (h : r.Started V i c d) :
    r'.Started V i c d := by
  obtain ⟨g, pool, s, hi, hl, hs, e⟩ := h
  obtain ⟨g', hi', hgg⟩ := hg.goal i g hi
  exact ⟨g', pool, s, hi', hgg.literal ▸ hl, hgg.literal ▸ hs, e⟩

theorem Taken.mono (hg : r.Grows r') {i : Nat} {d : Derivation W} (h : r.Taken i d) : r'.Taken i d := by
  obtain ⟨first, rest, j, b, hb, hj, hv, hw⟩ := h
  obtain ⟨b', hj', hbb⟩ := hg.goal j b hj
  exact ⟨first, rest, j, b', hb, hj', hbb.literal ▸ hv, hw.imp (hbb.waiters _) hbb.unprovable⟩

theorem Continues.mono (hg : r.Grows r') {w : Waiter W} {f : Clause W} {d : Derivation W} (h : r.Continues w f d) :
    r'.Continues w f d := by
  obtain ⟨h1, h2, g, π, l, hi, hp, hl, hp'⟩ := h
  obtain ⟨g', hi', hgg⟩ := hg.goal _ g hi
  exact ⟨h1, h2, g', π, l, hi', hgg.trie.path hp, hl, hgg.trie.path hp'⟩

theorem Completes.mono (hg : r.Grows r') {w : Waiter W} {f : Clause W} {head : Literal W} (h : r.Completes w f head) :
    r'.Completes w f head := by
  obtain ⟨h1, g, π, l, node, hi, hp, hl, hp', c, hc, hk⟩ := h
  obtain ⟨g', hi', hgg⟩ := hg.goal _ g hi
  exact ⟨h1, g', π, l, node, hi', hgg.trie.path hp, hl, hgg.trie.path hp', c, hgg.grounded c hc, hk⟩

theorem Decides.mono (hg : r.Grows r') {i : Nat} {outcome : Option (Clause W)} (h : r.Decides q V i outcome) :
    r'.Decides q V i outcome := by
  obtain ⟨r₀, j, g, b, base, h1, hp, h2, h3, h4, h5, h6, h7, h8⟩ := h
  refine ⟨r₀, j, g, b, base, h1, hp, h2.trans hg, h3, h4, h5, h6, h7, ?_⟩
  cases h8 with
  | certain hb => exact .certain hb
  | dropped hb hd => exact .dropped hb hd
  | weighted hb hd hl hn => exact .weighted hb hd hl (hg.negations _ _ hn)

theorem Did.mono (hg : r.Grows r') {duty : Duty W} (h : r.Did q V duty) : r'.Did q V duty := by
  cases duty with
  | fact i c =>
    obtain ⟨g, hi, hc⟩ := h
    obtain ⟨g', hi', hgg⟩ := hg.goal i g hi
    exact ⟨g', hi', fun hu => hgg.facts c (hc (hgg.literal ▸ hu))⟩
  | rule i c =>
    rcases h with ⟨g, hi, hc⟩ | ⟨d, hs, ht⟩
    · obtain ⟨g', hi', hgg⟩ := hg.goal i g hi
      exact .inl ⟨g', hi', fun μ a ha => hgg.literal ▸ hc μ a ha⟩
    · exact .inr ⟨d, hs.mono hg, ht.mono hg⟩
  | meet w f =>
    rcases h with h | ⟨d, hc, ht⟩ | ⟨head, hc, g, hi, hf⟩
    · exact .inl h
    · exact .inr (.inl ⟨d, hc.mono hg, ht.mono hg⟩)
    · obtain ⟨g', hi', hgg⟩ := hg.goal _ g hi
      exact .inr (.inr ⟨head, hc.mono hg, g', hi', hgg.facts _ hf⟩)
  | deny i =>
    obtain ⟨o, hd, g, hi, h1, h2⟩ := h
    obtain ⟨g', hi', hgg⟩ := hg.goal i g hi
    exact ⟨o, hd.mono hg, g', hi', fun f hf => hgg.facts f (h1 f hf), fun ho => hgg.unprovable (h2 ho)⟩

theorem Serves.mono (hg : r.Grows r') {t : Task W} {duty : Duty W} (h : r.Serves q V t duty) : r'.Serves q V t duty := by
  cases h with
  | searchFact h => exact .searchFact (h.mono hg)
  | searchRule h => exact .searchRule (h.mono hg)
  | searchDeny h => exact .searchDeny (h.mono hg)
  | tryFact h => exact .tryFact h
  | tryLater h => exact .tryLater (h.mono hg)
  | tryRule h => exact .tryRule h
  | decide => exact .decide
  | acceptFact => exact .acceptFact
  | acceptDenial h => exact .acceptDenial (h.mono hg)
  | acceptHead h => exact .acceptHead (h.mono hg)
  | notify h => exact .notify h
  | feed h => exact .feed h
  | advanceRule h => exact .advanceRule (h.mono hg)
  | advanceMeet h => exact .advanceMeet (h.mono hg)
  | resolve => exact .resolve

end Run

/-! ## Tasks -/

namespace Task

variable [Weight W]

/-- **What holds of a task on the agenda**, with `pre` in front of it.  Only a goal whose facts are still being tried
looks at what comes before: the fact just found is about to be accepted. -/
def Valid (q : Query W) (V : Vocabulary W) (r : Run W) (pre : List (Task W)) : Task W → Prop
  | .search i => ∃ g, r.table.goal? i = some g
  | .tryFacts i left matched => ∃ g, r.table.goal? i = some g ∧ g.literal.isNegated = false ∧
      (∀ c ∈ left, c ∈ q.kb.factsFor g.literal) ∧
      (∀ c ∈ q.kb.factsFor g.literal, (g.literal.unify c.head).isSome = true →
        c ∈ left ∨ c ∈ g.facts ∨ .accept i c .asserted ∈ pre) ∧
      (matched = false → ∀ c ∈ q.kb.factsFor g.literal, (g.literal.unify c.head).isSome = true → c ∈ left)
  | .tryRules i left matched => ∃ g, r.table.goal? i = some g ∧ g.literal.isNegated = false ∧ g.Ready q.kb ∧
      (∀ c ∈ left, c ∈ q.kb.rules.clauses) ∧
      (matched = false → (∀ a w, q.kb.States a w → ¬ g.literal.Covers a) ∧
        ∀ c ∈ q.kb.rules.clauses, ∀ μ a, c.head.Admits μ a → g.literal.Covers a → c ∈ left)
  | .decideNegation i j base => ∃ g b, r.table.goal? i = some g ∧ g.literal.isNegated = true ∧
      r.table.goal? j = some b ∧ g.literal.negate = .ok base ∧ b.literal.variant = base.variant
  | .accept i f origin => ∃ g, r.table.goal? i = some g ∧ g.Accepts V q.kb f ∧
      (origin = .asserted → g.literal.isNegated = false → f ∈ q.kb.facts.clauses) ∧
      (origin = .derived → g.literal.isNegated = false ∧ g.Ready q.kb ∧ ∃ c ∈ g.grounded, c.head = f.head)
  | .notify ws f => ∀ w ∈ ws, r.Owes q (.meet w f)
  | .feed i d left => ∀ f ∈ left, r.Owes q (.meet ⟨i, d⟩ f)
  | .advance i d => r.Derives V q.kb i d ∧ d.rule.body ≠ []
  | .resolve i d f => r.Owes q (.meet ⟨i, d⟩ f)

variable {q : Query W} {V : Vocabulary W} {r r' : Run W}

/-- A task stays in order while the table grows, if what was accepted before it has been accepted. -/
theorem Valid.mono (hg : r.Grows r') {pre pre' : List (Task W)} {t : Task W} (h : t.Valid q V r pre)
    (hpre : ∀ i c, .accept i c .asserted ∈ pre → .accept i c .asserted ∈ pre' ∨
      ∃ g, r'.table.goal? i = some g ∧ c ∈ g.facts) : t.Valid q V r' pre' := by
  cases t with
  | search i =>
    obtain ⟨g, hi⟩ := h
    obtain ⟨g', hi', -⟩ := hg.goal i g hi
    exact ⟨g', hi'⟩
  | tryFacts i left matched =>
    obtain ⟨g, hi, hn, h1, h2, h3⟩ := h
    obtain ⟨g', hi', hgg⟩ := hg.goal i g hi
    refine ⟨g', hi', hgg.literal ▸ hn, hgg.literal ▸ h1, fun c hc hu => ?_, hgg.literal ▸ h3⟩
    rw [hgg.literal] at hc hu
    rcases h2 c hc hu with h | h | h
    · exact .inl h
    · exact .inr (.inl (hgg.facts c h))
    · rcases hpre i c h with h | ⟨g'', hi'', h⟩
      · exact .inr (.inr h)
      · rw [hi'] at hi''
        injection hi'' with hi''
        exact .inr (.inl (hi'' ▸ h))
  | tryRules i left matched =>
    obtain ⟨g, hi, hn, hr, h1, h2⟩ := h
    obtain ⟨g', hi', hgg⟩ := hg.goal i g hi
    exact ⟨g', hi', hgg.literal ▸ hn, hr.mono hgg, h1, hgg.literal ▸ h2⟩
  | decideNegation i j base =>
    obtain ⟨g, b, hi, hn, hj, h1, h2⟩ := h
    obtain ⟨g', hi', hgg⟩ := hg.goal i g hi
    obtain ⟨b', hj', hbb⟩ := hg.goal j b hj
    exact ⟨g', b', hi', hgg.literal ▸ hn, hj', hgg.literal ▸ h1, hbb.literal ▸ h2⟩
  | accept i f origin =>
    obtain ⟨g, hi, ha, h1, h2⟩ := h
    obtain ⟨g', hi', hgg⟩ := hg.goal i g hi
    refine ⟨g', hi', ha.mono hgg, hgg.literal ▸ h1, fun ho => ?_⟩
    obtain ⟨hn, hr, c, hc, e⟩ := h2 ho
    exact ⟨hgg.literal ▸ hn, hr.mono hgg, c, hgg.grounded c hc, e⟩
  | notify ws f => exact fun w hw => (h w hw).mono hg
  | feed i d left => exact fun f hf => (h f hf).mono hg
  | advance i d => exact ⟨h.1.mono hg, h.2⟩
  | resolve i d f =>
    have h' : r.Owes q (.meet ⟨i, d⟩ f) := h
    exact h'.mono hg

/-- Every task of an agenda is in order, with `pre` in front of them. -/
def InOrder (q : Query W) (V : Vocabulary W) (r : Run W) : List (Task W) → List (Task W) → Prop
  | _,   []      => True
  | pre, t :: ts => t.Valid q V r pre ∧ InOrder q V r (t :: pre) ts

theorem InOrder.mono (hg : r.Grows r') : ∀ {ts pre pre' : List (Task W)}, InOrder q V r pre ts →
    (∀ i c, .accept i c .asserted ∈ pre → .accept i c .asserted ∈ pre' ∨
      ∃ g, r'.table.goal? i = some g ∧ c ∈ g.facts) → InOrder q V r' pre' ts
  | [], _, _, _, _ => trivial
  | t :: ts, pre, pre', h, hpre => by
    refine ⟨h.1.mono hg hpre, InOrder.mono hg h.2 (fun i c hm => ?_)⟩
    rcases List.mem_cons.1 hm with hm | hm
    · exact .inl (hm ▸ List.mem_cons_self)
    · exact (hpre i c hm).imp_left (List.mem_cons_of_mem _)

theorem InOrder.append : ∀ {ts us pre : List (Task W)}, InOrder q V r pre ts → InOrder q V r (ts.reverse ++ pre) us →
    InOrder q V r pre (ts ++ us)
  | [], _, _, _, h => h
  | t :: ts, us, pre, h, h' => by
    refine ⟨h.1, h.2.append ?_⟩
    simpa using h'

end Task

/-! ## Stakes

A negation is decided once.  Each task that leads to its decision holds a stake in it, and so do its fact, its being
given up, and the entry that a weighted one leaves; together they never hold more than three. -/

def Task.stake (i : Nat) : Task W → Nat
  | .search j             => if j = i then 3 else 0
  | .decideNegation j _ _ => if j = i then 3 else 0
  | .accept j _ _         => if j = i then 2 else 0
  | _                     => 0

/-- No task on an agenda in order has a stake in a goal that is not there. -/
theorem Task.InOrder.stake_eq_zero [Weight W] {q : Query W} {V : Vocabulary W} {r : Run W} {i : Nat}
    (hi : r.table.goal? i = none) : ∀ {ts pre : List (Task W)}, Task.InOrder q V r pre ts → (ts.map (Task.stake i)).sum = 0
  | [], _, _ => rfl
  | t :: ts, pre, h => by
    have hne : ∀ {j g}, r.table.goal? j = some g → j ≠ i := by
      rintro j g hj rfl
      rw [hi] at hj
      cases hj
    have ht : t.stake i = 0 := by
      cases t with
      | search j =>
        obtain ⟨g, hj⟩ := h.1
        simp [stake, hne hj]
      | decideNegation j k base =>
        obtain ⟨g, b, hj, -⟩ := h.1
        simp [stake, hne hj]
      | accept j f origin =>
        obtain ⟨g, hj, -⟩ := h.1
        simp [stake, hne hj]
      | tryFacts _ _ _ | tryRules _ _ _ | notify _ _ | feed _ _ _ | advance _ _ | resolve _ _ _ => rfl
    rw [List.map_cons, List.sum_cons, ht, stake_eq_zero hi h.2]

def Table.HasEntry (t : Table W) (l : Literal W) : Prop :=
  ∃ (k : String) (v : Literal W × List (Literal W)), t.negations[k]? = some v ∧ v.1.predicate = l.predicate ∧
    v.1.terms = l.terms

theorem Table.hasEntry_congr {t t' : Table W} (h : t'.negations = t.negations) : t'.HasEntry = t.HasEntry := by
  funext l
  rw [HasEntry, h, HasEntry]

open Classical in
noncomputable def Table.stake (t : Table W) (g : Subgoal W) : Nat :=
  2 * (g.facts.length + if g.unprovable = true then 1 else 0) + if t.HasEntry g.literal then 1 else 0

/-- Nothing of a negation is decided when a stake of three is still out. -/
theorem Table.stake_eq_zero {t : Table W} {g : Subgoal W} (h : 3 + t.stake g ≤ 3) :
    g.facts = [] ∧ g.unprovable = false ∧ ¬ t.HasEntry g.literal := by
  have h0 : t.stake g = 0 := by omega
  rw [stake] at h0
  refine ⟨?_, ?_, ?_⟩
  · exact List.length_eq_zero_iff.1 (by omega)
  · cases hu : g.unprovable with
    | false => rfl
    | true => rw [hu] at h0; simp at h0
  · intro he
    rw [if_pos he] at h0
    omega

theorem Table.stake_two {t : Table W} {g : Subgoal W} (h : 2 + t.stake g ≤ 3) : g.facts = [] := by
  rw [stake] at h
  exact List.length_eq_zero_iff.1 (by omega)

/-- The stakes in the negations of a run, before and after a step. -/
structure Run.Staked (r : Run W) (t : Task W) (ts : List (Task W)) (r' : Run W) : Prop where
  old : ∀ i g g', r.table.goal? i = some g → r'.table.goal? i = some g' → g.literal.isNegated = true →
    (ts.map (Task.stake i)).sum + r'.table.stake g' ≤ t.stake i + r.table.stake g
  new : ∀ i g', r.table.goal? i = none → r'.table.goal? i = some g' → g'.literal.isNegated = true →
    (ts.map (Task.stake i)).sum + r'.table.stake g' ≤ 3

/-- A step that changes no facts of negations and makes no entry: only its tasks count. -/
theorem Run.Staked.frame {r r' : Run W} {t : Task W} {ts : List (Task W)} (hneg : r'.table.negations = r.table.negations)
    (hold : ∀ i g, r.table.goal? i = some g → g.literal.isNegated = true → ∃ g', r'.table.goal? i = some g' ∧
      g'.literal = g.literal ∧ g'.facts = g.facts ∧ g'.unprovable = g.unprovable ∧
        (ts.map (Task.stake i)).sum ≤ t.stake i)
    (hnew : ∀ i g', r.table.goal? i = none → r'.table.goal? i = some g' → g'.literal.isNegated = true →
      g'.facts = [] ∧ g'.unprovable = false ∧ ¬ r.table.HasEntry g'.literal ∧ (ts.map (Task.stake i)).sum ≤ 3) :
    r.Staked t ts r' := by
  have hentry : r'.table.HasEntry = r.table.HasEntry := Table.hasEntry_congr hneg
  refine ⟨fun i g g' hi hi' hn => ?_, fun i g' hi hi' hn => ?_⟩
  · obtain ⟨g'', hi'', h1, h2, h3, h4⟩ := hold i g hi hn
    rw [Run.goal_eq hi' hi'', Table.stake, Table.stake, h1, h2, h3, hentry]
    omega
  · obtain ⟨h1, h2, h3, h4⟩ := hnew i g' hi hi' hn
    rw [Table.stake, h1, h2, hentry, if_neg h3]
    simpa using h4

end Credence
