import Credence.Proofs.Backing
import Credence.Proofs.Reading
/-!
# What a body item says

An item is evaluated directly, from the inside out: a name has a value, a call has the results of its function for any
values of its arguments, and a comparison, an assignment or an atom looks at the values of its operands
(`Grammar.Item.Holds`).  A literal of a body is read by its values as well (`Literal.HoldsIn`).  A primitive literal holds
when the solver finds an answer to it (`Query.answers_ne_nil_iff`).  What the ordinary atoms say is left open; a wildcard
has no value.
-/
namespace Credence

variable {W : Type}

/-! ## Primitives -/

namespace Registry

/-- The results of a call.  It has none when it fails, or when a value is missing. -/
def results (r : Registry) (name : String) (args : List (Option Constant)) : List Constant :=
  match args.mapM (fun v => v) with
  | none    => []
  | some cs =>
    match r.call name cs with
    | .ok out  => Run.outputs out
    | .error _ => []

/-- A test holds when a result is true, and a function when its first argument is one of its results. -/
def Succeeds (r : Registry) (name : String) (args : List (Option Constant)) : Prop :=
  match r.kind name with
  | .test     => ∃ c ∈ r.results name args, c.bool? = some true
  | .function => ∃ c ∈ r.results name (args.drop 1), ∀ v ∈ args.head?, Allows v c

/-- What a name says of some values, where `atoms` tells it of the names that are no primitives. -/
def Says (r : Registry) (atoms : String → List (Option Constant) → Prop) (name : String) (args : List (Option Constant)) :
    Prop :=
  match Text.after? Predicate.primitiveMark name with
  | some primitive => r.Succeeds primitive args
  | none           => atoms name args

/-- The results of a call by the name it is written with. -/
def resultsOf (r : Registry) (name : String) (args : List (Option Constant)) : List Constant :=
  match Text.after? Predicate.primitiveMark name with
  | some primitive => r.results primitive args
  | none           => []

/-- A name that calls a function. -/
def IsFunction (r : Registry) (name : String) : Prop :=
  ∃ primitive, name = Predicate.primitiveMark ++ primitive ∧ r.kind primitive = .function

end Registry

/-- A negation holds when its base does not. -/
def Literal.HoldsIn (r : Registry) (atoms : String → List (Option Constant) → Prop) (ν : Valuation) (l : Literal W) : Prop :=
  if l.isNegated then ¬ atoms l.predicate.base (l.values ν) else r.Says atoms l.name (l.values ν)

theorem Literal.holdsIn_congr {r : Registry} {atoms : String → List (Option Constant) → Prop} {ν κ : Valuation} {l : Literal W}
    (h : l.values ν = l.values κ) : l.HoldsIn r atoms ν ↔ l.HoldsIn r atoms κ := by
  rw [HoldsIn, HoldsIn, h]

/-! ## Answers -/

theorem mapM_value? (ν : Valuation) : ∀ {ts : List Term}, (∀ t ∈ ts, t.isConst || t.isWildcard) →
    (ts.map (Term.value? ν)).mapM (fun v => v) = ts.mapM Term.const?
  | [],      _ => rfl
  | t :: ts, h => by
    have ht := h t List.mem_cons_self
    have ih := mapM_value? ν (fun u hu => h u (List.mem_cons_of_mem _ hu))
    have hv : t.value? ν = t.const? := by
      cases t with
      | const c => rfl
      | var v => simpa [Term.isConst, Term.isWildcard, Term.value?, Term.const?] using ht
    rw [List.map_cons, List.mapM_cons, List.mapM_cons, ih, hv]

/-- What a function answers, it answers to its first argument. -/
theorem unify_result_isSome_iff [Weight W] {l : Literal W} {t : Term} {ins : List Term} (ht : l.terms = t :: ins)
    (hl : l.isWellFormed = true) {ds : List Constant} (hins : ins = ds.map .const) {ν : Valuation}
    (hclosed : t.isConst || t.isWildcard) (c : Constant) :
    (l.unify (⟨1, l.predicate, .const c :: ins⟩ : Literal W)).isSome = true ↔ Allows (t.value? ν) c := by
  have hwf : (⟨l.predicate, c :: ds⟩ : Atom).WellFormed := by
    have := Literal.isWellFormed_iff.1 hl
    rw [ht, hins] at this
    simpa [Atom.WellFormed] using this
  have hground : (⟨1, l.predicate, .const c :: ins⟩ : Literal W) = (⟨l.predicate, c :: ds⟩ : Atom).literal 1 := by
    rw [Atom.literal, hins]
    rfl
  have hsame : ∀ μ : Valuation, t.value? μ = t.value? ν := by
    intro μ
    cases t with
    | const d => rfl
    | var v =>
      have hw : v.wildcard = true := by simpa [Term.isConst, Term.isWildcard] using hclosed
      simp [Term.value?, hw]
  have hrest : List.Forall₂ Allows ((ds.map Term.const).map (Term.value? ν)) ds := by
    rw [List.map_map, List.forall₂_map_left_iff, List.forall₂_same]
    exact fun d _ => .inr rfl
  rw [hground, Literal.unify_literal_isSome_iff hl hwf]
  constructor
  · rintro ⟨μ, -, h⟩
    rw [Literal.values, ht, List.map_cons, List.forall₂_cons] at h
    exact hsame μ ▸ h.1
  · intro h
    refine ⟨ν, rfl, ?_⟩
    rw [Literal.values, ht, hins, List.map_cons, List.forall₂_cons]
    exact ⟨h, hrest⟩

/-- A function answers with the results that its first argument allows; written without arguments, with all of them. -/
theorem instances_function_ne_nil_iff [Weight W] {l : Literal W} (hl : l.isWellFormed = true)
    (hclosed : ∀ t ∈ l.terms, t.isConst || t.isWildcard) {cs : List Constant} (hcs : l.terms.drop 1 = cs.map .const)
    (ν : Valuation) (results : List Constant) :
    Run.instances .function l results ≠ [] ↔ ∃ c ∈ results, ∀ v ∈ (l.values ν).head?, Allows v c := by
  have hins : Run.inputs .function l = l.terms.drop 1 := rfl
  simp only [Run.instances, hins, ne_eq, List.filterMap_eq_nil_iff, not_forall, ite_eq_right_iff, reduceCtorEq, imp_false,
    not_not]
  refine exists_congr (fun c => ?_)
  rw [exists_prop, and_congr_right_iff]
  intro _
  cases ht : l.terms with
  | nil => simp [Literal.unify, Literal.unifyInto, Literal.values, ht, Term.unifyAll]
  | cons t ins =>
    rw [ht, List.drop_one, List.tail_cons] at hcs
    simp [Literal.values, ht, ← unify_result_isSome_iff ht hl hcs (ν := ν) (hclosed t (by simp [ht])) c]

/-- **A primitive literal holds when the solver has an answer to it.** -/
theorem Query.answers_ne_nil_iff [Weight W] {q : Query W} {l : Literal W} {name : String} (hp : l.primitive? = some name)
    (hl : l.isWellFormed = true) (hclosed : l.isSemiGrounded = true) (ν : Valuation) :
    q.answers l ≠ [] ↔ q.kb.registry.Succeeds name (l.values ν) := by
  have hterms : ∀ t ∈ l.terms, t.isConst || t.isWildcard := fun t ht => List.all_eq_true.1 hclosed t ht
  unfold Query.answers
  simp only [hp, Registry.Succeeds, Run.callPrimitive, Registry.results]
  cases q.kb.registry.kind name with
  | test =>
    have hins : Run.inputs .test l = l.terms := rfl
    dsimp only
    rw [hins, Literal.values, mapM_value? ν hterms]
    cases l.terms.mapM Term.const? with
    | none => simp
    | some cs =>
      dsimp only
      cases q.kb.registry.call name cs with
      | error e => simp
      | ok out => simp [Run.instances]
  | function =>
    have hins : Run.inputs .function l = l.terms.drop 1 := rfl
    have hdrop : (l.values ν).drop 1 = (l.terms.drop 1).map (Term.value? ν) := by rw [Literal.values, List.map_drop]
    dsimp only
    rw [hins, hdrop, mapM_value? ν (fun t ht => hterms t (List.mem_of_mem_drop ht))]
    cases hcs : (l.terms.drop 1).mapM Term.const? with
    | none => simp
    | some cs =>
      dsimp only
      cases q.kb.registry.call name cs with
      | error e => simp
      | ok out => exact instances_function_ne_nil_iff hl hterms (eq_map_of_mapM hcs) ν _

/-! ## Direct evaluation -/

namespace Grammar

/-- The value of a term, where `σ` has the values of the names. -/
def Lexeme.value? (σ : String → Constant) : Lexeme → Option Constant
  | .quoted inner => some (.ofText (Text.unescape inner))
  | .number s     => some ⟨s⟩
  | .named name   => some (σ name)
  | .wildcard     => none
  | .word s       => some ⟨s⟩

mutual

/-- The values of an operand. -/
def Operand.values (r : Registry) (σ : String → Constant) : Operand → List (Option Constant)
  | .term t         => [t.value? σ]
  | .call name args => (Operand.valuesAll r σ args).flatMap (fun vs => (r.resultsOf name vs).map some)

/-- All ways to choose a value for each of some operands. -/
def Operand.valuesAll (r : Registry) (σ : String → Constant) : List Operand → List (List (Option Constant))
  | []      => [[]]
  | a :: as => (Operand.values r σ a).flatMap (fun v => (Operand.valuesAll r σ as).map (v :: ·))

end

def Comparison.admits : Comparison → Ordering → Bool
  | .equal     => (· == .eq)
  | .different => (· != .eq)
  | .less      => (· == .lt)
  | .atMost    => (· != .gt)
  | .greater   => (· == .gt)
  | .atLeast   => (· != .lt)

def Item.Holds (r : Registry) (atoms : String → List (Option Constant) → Prop) (σ : String → Constant) : Item → Prop
  | .assignment target value      => some (σ target) ∈ value.values r σ
  | .comparison left sign right   =>
    ∃ x y, some x ∈ left.values r σ ∧ some y ∈ right.values r σ ∧ sign.admits (Builtin.compare x y) = true
  | .atom negated name args       =>
    ∃ vs ∈ Operand.valuesAll r σ args, if negated then ¬ atoms name vs else r.Says atoms name vs

mutual

/-- Only functions are called. -/
def Operand.CallsFunctions (r : Registry) : Operand → Prop
  | .term _         => True
  | .call name args => r.IsFunction name ∧ Operand.AllCallFunctions r args

def Operand.AllCallFunctions (r : Registry) : List Operand → Prop
  | []      => True
  | a :: as => a.CallsFunctions r ∧ Operand.AllCallFunctions r as

end

/-- Only functions are called, and no primitive is negated. -/
def Item.IsLegal (r : Registry) : Item → Prop
  | .assignment _ value         => value.CallsFunctions r
  | .comparison left _ right    => left.CallsFunctions r ∧ right.CallsFunctions r
  | .atom negated name args     =>
    (negated = true → Text.startsWith Predicate.primitiveMark name = false) ∧ Operand.AllCallFunctions r args

variable {r : Registry} {σ : String → Constant}

theorem Operand.mem_values_call {name : String} {args : List Operand} {v : Option Constant} :
    v ∈ (Operand.call name args).values r σ ↔ ∃ vs ∈ Operand.valuesAll r σ args, ∃ c ∈ r.resultsOf name vs, some c = v := by
  simp only [Operand.values, List.mem_flatMap, List.mem_map]

theorem Operand.mem_valuesAll_cons {a : Operand} {as : List Operand} {vs : List (Option Constant)} :
    vs ∈ Operand.valuesAll r σ (a :: as) ↔ ∃ v ∈ a.values r σ, ∃ ws ∈ Operand.valuesAll r σ as, v :: ws = vs := by
  simp only [Operand.valuesAll, List.mem_flatMap, List.mem_map]

theorem Operand.mem_valuesAll_pair {a b : Operand} {v w : Option Constant} :
    [v, w] ∈ Operand.valuesAll r σ [a, b] ↔ v ∈ a.values r σ ∧ w ∈ b.values r σ := by
  simp [Operand.valuesAll]

end Grammar

/-! ## Literals that are put in the place of an item -/

namespace Registry

variable {r : Registry} {atoms : String → List (Option Constant) → Prop} {name : String} {args : List (Option Constant)}

theorem says_primitive_iff : r.Says atoms (Predicate.primitiveMark ++ name) args ↔ r.Succeeds name args := by
  rw [Says, Text.after?_append]

theorem resultsOf_primitive : r.resultsOf (Predicate.primitiveMark ++ name) args = r.results name args := by
  rw [resultsOf, Text.after?_append]

theorem succeeds_function_iff (h : r.kind name = .function) {v : Option Constant} :
    r.Succeeds name (v :: args) ↔ ∃ c ∈ r.results name args, Allows v c := by
  simp [Succeeds, h]

/-- A function that gives the truth of what it finds when it compares two values. -/
theorem succeeds_compare_iff (h : r.kind name = .function) {p : Ordering → Bool}
    (hres : ∀ a b, r.results name [some a, some b] = [.ofBool (p (Builtin.compare a b))]) {flag : Constant}
    {x y : Option Constant} :
    r.Succeeds name [some flag, x, y] ↔ ∃ a b, x = some a ∧ y = some b ∧ flag = .ofBool (p (Builtin.compare a b)) := by
  rw [succeeds_function_iff h]
  match x, y with
  | none, y           => simp [results]
  | some a, none      => simp [results]
  | some a, some b    => simp [hres, Allows]

theorem succeeds_isTrue_iff (b : Bool) : r.Succeeds "is_true" [some (.ofBool b)] ↔ b = true := by
  have hres : r.results "is_true" [some (.ofBool b)] = [.ofBool b] := by cases b <;> rfl
  show (∃ c ∈ r.results "is_true" [some (.ofBool b)], c.bool? = some true) ↔ _
  rw [hres]
  cases b <;> simp [Constant.ofBool, Constant.bool?]

theorem succeeds_isFalse_iff (b : Bool) : r.Succeeds "is_false" [some (.ofBool b)] ↔ b = false := by
  have hres : r.results "is_false" [some (.ofBool b)] = [.ofBool !b] := by cases b <;> rfl
  show (∃ c ∈ r.results "is_false" [some (.ofBool b)], c.bool? = some true) ↔ _
  rw [hres]
  cases b <;> simp [Constant.ofBool, Constant.bool?]

/-- **What a comparison is made of**: some flag is what the function finds and what the test asks for. -/
theorem says_comparison_iff (sign : Grammar.Comparison) {x y : Option Constant} :
    (∃ flag, r.Says atoms (Building.comparison sign).1 [some flag, x, y] ∧
      r.Says atoms (Building.comparison sign).2 [some flag]) ↔
      ∃ a b, x = some a ∧ y = some b ∧ sign.admits (Builtin.compare a b) = true := by
  have key : ∀ (function test : String) (p : Ordering → Bool) (wanted : Bool), r.kind function = .function →
      (∀ a b, r.results function [some a, some b] = [.ofBool (p (Builtin.compare a b))]) →
      (∀ b, r.Succeeds test [some (.ofBool b)] ↔ b = wanted) →
      ((∃ flag, r.Says atoms (Predicate.primitiveMark ++ function) [some flag, x, y] ∧
        r.Says atoms (Predicate.primitiveMark ++ test) [some flag]) ↔
        ∃ a b, x = some a ∧ y = some b ∧ p (Builtin.compare a b) = wanted) := by
    intro function test p wanted hk hres htest
    simp only [says_primitive_iff, succeeds_compare_iff hk hres]
    constructor
    · rintro ⟨_, ⟨a, b, hx, hy, rfl⟩, ht⟩
      exact ⟨a, b, hx, hy, (htest _).1 ht⟩
    · rintro ⟨a, b, hx, hy, hp⟩
      exact ⟨_, ⟨a, b, hx, hy, rfl⟩, (htest _).2 hp⟩
  cases sign with
  | equal => exact key "eq" "is_true" (· == .eq) true rfl (fun _ _ => rfl) succeeds_isTrue_iff
  | different =>
    refine (key "eq" "is_false" (· == .eq) false rfl (fun _ _ => rfl) succeeds_isFalse_iff).trans ?_
    simp only [Grammar.Comparison.admits, bne, Bool.not_eq_true']
  | less => exact key "lt" "is_true" (· == .lt) true rfl (fun _ _ => rfl) succeeds_isTrue_iff
  | atMost => exact key "lte" "is_true" (· != .gt) true rfl (fun _ _ => rfl) succeeds_isTrue_iff
  | greater => exact key "gt" "is_true" (· == .gt) true rfl (fun _ _ => rfl) succeeds_isTrue_iff
  | atLeast => exact key "gte" "is_true" (· != .lt) true rfl (fun _ _ => rfl) succeeds_isTrue_iff

/-- An assignment of a term compares with what the term is. -/
theorem succeeds_identity_iff {v x : Option Constant} :
    r.Succeeds "identity" [v, x] ↔ ∃ c, x = some c ∧ Allows v c := by
  rw [succeeds_function_iff rfl]
  cases x with
  | none => simp [results]
  | some c =>
    have hres : r.results "identity" [some c] = [c] := rfl
    simp [hres]

end Registry
end Credence
