import Credence.Proofs.Model
import Mathlib.Data.Finset.Card
/-!
# Programs in layers

A negation holds in a set of atoms that has no instance of what it negates.  A set is stable when it is what follows from
a theory where the negations hold that hold in the set itself.  Where no predicate rests on itself through a negation, the
predicates stand in layers: a rule has nothing above its head in its body, and what it negates is below.  A theory in
layers has one stable set, its perfect model, which is built up layer by layer (`Theory.Layered.exists_unique_stable`).
-/
namespace Credence

variable {W : Type} {layer : Predicate → Nat} {n : Nat} {M M' : Atom → Prop}

/-- A negation stands above what it negates. -/
def depth (layer : Predicate → Nat) (p : Predicate) : Nat := if p.isNegated then layer p.positive + 1 else layer p

theorem depth_of_negated {p : Predicate} (h : p.isNegated = true) : depth layer p = layer p.positive + 1 := if_pos h

theorem depth_of_positive (layer : Predicate → Nat) {p : Predicate} (h : p.isNegated = false) :
    depth layer p = layer p := by
  rw [depth, h, if_neg Bool.false_ne_true]

/-- The set has no instance of what is negated. -/
def Unless (M : Atom → Prop) (p : Predicate) (vs : List (Option Constant)) : Prop :=
  ∀ a, a.predicate = p.positive → List.Forall₂ Allows vs a.args → ¬ M a

/-- Whether a negation holds in a set is decided below its layer. -/
theorem Unless.of_agree {p : Predicate} {vs : List (Option Constant)} (hu : Unless M p vs) (hn : p.isNegated = true)
    (hp : depth layer p ≤ n) (h : ∀ a, layer a.predicate < n → M' a → M a) : Unless M' p vs := by
  intro a ha hargs hM
  rw [depth_of_negated hn] at hp
  refine hu a ha hargs (h a ?_ hM)
  rw [ha]
  omega

namespace Theory

/-! ## Stable sets -/

/-- The theory where the negations hold that hold in the set. -/
def against (T : Theory W) (M : Atom → Prop) : Theory W := { T with denied := Unless M }

/-- The same, with the negations up to a layer only. -/
def upTo (T : Theory W) (layer : Predicate → Nat) (n : Nat) (M : Atom → Prop) : Theory W :=
  { T with denied := fun p vs => p.isNegated = true ∧ depth layer p ≤ n ∧ Unless M p vs }

/-- The atoms of the set are those that follow where its own negations hold. -/
def IsStable (T : Theory W) (M : Atom → Prop) : Prop := ∀ a, M a ↔ (T.against M).Holds a

/-- Nothing in the body of a rule stands above the head. -/
def Layered (T : Theory W) (layer : Predicate → Nat) : Prop :=
  ∀ c, T.rule c → ∀ l ∈ c.body, depth layer l.predicate ≤ layer c.head.predicate

variable {T T' : Theory W} {a : Atom}

/-- **What holds in a layer rests on negations up to that layer only.** -/
theorem Holds.upTo (h : T.Holds a) (hT : T.Layered layer) (hf : ∀ a, T.fact a → T'.fact a)
    (hr : ∀ c, T.rule c → T'.rule c)
    (hd : ∀ p vs, p.isNegated = true → depth layer p ≤ n → T.denied p vs → T'.denied p vs)
    (ha : layer a.predicate ≤ n) : T'.Holds a := by
  induction h with
  | fact h => exact .fact (hf _ h)
  | @rule c ν pick a hi _ ih =>
    have hbody : ∀ l ∈ c.body, depth layer l.predicate ≤ n := fun l hl =>
      (hT c hi.rule l hl).trans (hi.head.1 ▸ ha)
    refine .rule ⟨hr _ hi.rule, hi.head, hi.body, fun l hl hn => hd _ _ hn (hbody l hl) (hi.denied l hl hn)⟩
      (fun l hl hn => ih l hl hn ?_)
    rw [← (hi.body l hl hn).1, ← depth_of_positive layer hn]
    exact hbody l hl

theorem Layered.holds_upTo (hT : T.Layered layer) (h : (T.against M).Holds a) (ha : layer a.predicate ≤ n) :
    (T.upTo layer n M).Holds a := by
  have hT' : (T.against M).Layered layer := hT
  exact h.upTo hT' (fun _ hf => hf) (fun _ hr => hr) (fun _ _ hn hp hu => ⟨hn, hp, hu⟩) ha

/-- Sets that agree below a layer have the same consequences up to it. -/
theorem Layered.holds_congr (hT : T.Layered layer) (h : ∀ a, layer a.predicate < n → (M a ↔ M' a))
    (ha : layer a.predicate ≤ n) : (T.against M).Holds a ↔ (T.against M').Holds a := by
  have key : ∀ {M M' : Atom → Prop}, (∀ a, layer a.predicate < n → (M a ↔ M' a)) → (T.against M).Holds a →
      (T.against M').Holds a := by
    intro M M' h hM
    have hT' : (T.against M).Layered layer := hT
    exact hM.upTo hT' (fun _ hf => hf) (fun _ hr => hr)
      (fun p vs hn hp hu => Unless.of_agree hu hn hp (fun a ha => (h a ha).2)) ha
  exact ⟨key h, key (fun a ha => (h a ha).symm)⟩

/-- A theory in layers has at most one stable set. -/
theorem IsStable.unique (h : T.IsStable M) (h' : T.IsStable M') (hT : T.Layered layer) (a : Atom) : M a ↔ M' a := by
  have key : ∀ n a, layer a.predicate < n → (M a ↔ M' a) := by
    intro n
    induction n with
    | zero => exact fun a ha => absurd ha (Nat.not_lt_zero _)
    | succ n ih =>
      intro a ha
      rw [h a, h' a]
      exact hT.holds_congr ih (Nat.lt_succ_iff.1 ha)
  exact key _ a (Nat.lt_succ_self _)

/-- What holds after some rounds, each of which takes the negations that hold after the round before. -/
def stage (T : Theory W) : Nat → Atom → Prop
  | 0     => fun _ => False
  | n + 1 => (T.against (T.stage n)).Holds

/-- **The perfect model**: each atom is decided once the layers below it are. -/
def perfect (T : Theory W) (layer : Predicate → Nat) (a : Atom) : Prop := T.stage (layer a.predicate + 1) a

theorem Layered.stage_succ (hT : T.Layered layer) : ∀ n a, layer a.predicate < n → (T.stage n a ↔ T.stage (n + 1) a)
  | 0,     _, ha => absurd ha (Nat.not_lt_zero _)
  | n + 1, _, ha => hT.holds_congr (hT.stage_succ n) (Nat.lt_succ_iff.1 ha)

/-- No round changes what is decided. -/
theorem Layered.stage_eq (hT : T.Layered layer) (ha : layer a.predicate < n) : T.stage n a ↔ T.perfect layer a := by
  induction n, ha using Nat.le_induction with
  | base => exact Iff.rfl
  | succ n hn ih => exact (hT.stage_succ n a hn).symm.trans ih

theorem Layered.isStable_perfect (hT : T.Layered layer) : T.IsStable (T.perfect layer) := fun _ =>
  hT.holds_congr (fun _ hx => hT.stage_eq hx) (Nat.le_refl _)

/-- **A theory in layers has exactly one stable set.** -/
theorem Layered.exists_unique_stable (hT : T.Layered layer) :
    ∃ M, T.IsStable M ∧ ∀ M', T.IsStable M' → ∀ a, M' a ↔ M a :=
  ⟨_, hT.isStable_perfect, fun _ h' => h'.unique hT.isStable_perfect hT⟩

end Theory

/-! ## What predicates rest on -/

/-- The predicate `p` rests on `q`; the flag says whether a negation is on the way. -/
inductive Rests (rules : List (Clause W)) : Predicate → Predicate → Bool → Prop
  | positive {c : Clause W} {l : Literal W} : c ∈ rules → l ∈ c.body → l.isNegated = false →
    Rests rules c.head.predicate l.predicate false
  | negation {c : Clause W} {l : Literal W} : c ∈ rules → l ∈ c.body → l.isNegated = true →
    Rests rules c.head.predicate l.predicate.positive true
  | trans {p q r : Predicate} {b b' : Bool} : Rests rules p q b → Rests rules q r b' → Rests rules p r (b || b')

/-- No predicate rests on itself through a negation. -/
def Stratified (rules : List (Clause W)) : Prop := ∀ p, ¬ Rests rules p p true

open Classical in
/-- What a predicate rests on through a negation. -/
noncomputable def lower (rules : List (Clause W)) (p : Predicate) : Finset Predicate :=
  ((rules.flatMap Clause.body).map (fun l => l.predicate) ++
    (rules.flatMap Clause.body).map (fun l => l.predicate.positive)).toFinset.filter (fun q => Rests rules p q true)

/-- **The layer of a predicate in a program**: it stands above all that it rests on through a negation. -/
noncomputable def height (rules : List (Clause W)) (p : Predicate) : Nat := (lower rules p).card

variable {rules : List (Clause W)} {p q : Predicate} {b : Bool}

/-- What is rested on stands in a body. -/
theorem Rests.mem (h : Rests rules p q b) : ∃ l ∈ rules.flatMap Clause.body, l.predicate = q ∨ l.predicate.positive = q := by
  induction h with
  | positive hc hl _ => exact ⟨_, List.mem_flatMap.2 ⟨_, hc, hl⟩, .inl rfl⟩
  | negation hc hl _ => exact ⟨_, List.mem_flatMap.2 ⟨_, hc, hl⟩, .inr rfl⟩
  | trans _ _ _ ih => exact ih

open Classical in
theorem mem_lower : q ∈ lower rules p ↔ Rests rules p q true := by
  rw [lower, Finset.mem_filter, List.mem_toFinset, List.mem_append, List.mem_map, List.mem_map]
  refine and_iff_right_of_imp (fun h => ?_)
  obtain ⟨l, hl, hq⟩ := h.mem
  exact hq.imp (fun e => ⟨l, hl, e⟩) (fun e => ⟨l, hl, e⟩)

theorem Rests.lower_subset (h : Rests rules p q b) : lower rules q ⊆ lower rules p := by
  intro x hx
  have := h.trans (mem_lower.1 hx)
  rw [Bool.or_true] at this
  exact mem_lower.2 this

theorem Stratified.height_lt (hs : Stratified rules) (h : Rests rules p q true) : height rules q < height rules p := by
  refine Finset.card_lt_card ((Finset.ssubset_iff_of_subset h.lower_subset).2 ⟨q, mem_lower.2 h, fun hq => ?_⟩)
  exact hs q (mem_lower.1 hq)

/-- What is rested on stands no higher, and lower when a negation is on the way. -/
theorem Rests.layer_le (h : Rests rules p q b)
    (hl : ∀ c ∈ rules, ∀ l ∈ c.body, depth layer l.predicate ≤ layer c.head.predicate) :
    layer q ≤ layer p ∧ (b = true → layer q < layer p) := by
  induction h with
  | positive hc hb hn =>
    have := hl _ hc _ hb
    rw [depth_of_positive layer hn] at this
    exact ⟨this, fun h => by cases h⟩
  | negation hc hb hn =>
    have := hl _ hc _ hb
    rw [depth_of_negated hn] at this
    exact ⟨by omega, fun _ => by omega⟩
  | @trans p q r b b' _ _ ih ih' =>
    refine ⟨ih'.1.trans ih.1, fun h => ?_⟩
    rcases Bool.or_eq_true_iff.1 h with h | h
    · exact ih'.1.trans_lt (ih.2 h)
    · exact (ih'.2 h).trans_le ih.1

/-- **The predicates of a program stand in layers exactly when none rests on itself through a negation.** -/
theorem stratified_iff : Stratified rules ↔
    ∃ layer : Predicate → Nat, ∀ c ∈ rules, ∀ l ∈ c.body, depth layer l.predicate ≤ layer c.head.predicate := by
  constructor
  · refine fun hs => ⟨height rules, fun c hc l hl => ?_⟩
    cases hn : l.isNegated with
    | true =>
      rw [depth_of_negated hn]
      exact hs.height_lt (.negation hc hl hn)
    | false =>
      rw [depth_of_positive _ hn]
      exact Finset.card_le_card (Rests.lower_subset (.positive hc hl hn))
  · rintro ⟨layer, hl⟩ p hp
    exact Nat.lt_irrefl _ ((hp.layer_le hl).2 rfl)

end Credence
