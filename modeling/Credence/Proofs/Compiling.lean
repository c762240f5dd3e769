import Mathlib.Data.List.Perm.Basic
import Credence.Estimate
import Credence.Proofs.Building
import Credence.Proofs.Reordering
/-!
# What a proof set is compiled to

A proof set is a formula over the ids of its literals.  `ProofSet.holds` is its value, given which ids are true and which
recorded negations hold; a negation holds when none of the proofs behind it does (`ProofSet.Values`).  Where no negation
rests on itself there is exactly one way to say which negations hold.

The compiler numbers ids as it meets them, and memoizes negations.  Its invariant (`Compiler.Valid`) ties every variable
to one id and every finished negation to its value.  Functions are said to be right for all assignments that agree with
the ids numbered so far (`Compiler.Agrees`), so nothing has to be said again when more ids are numbered.
-/
namespace Credence

variable {W : Type} [Weight W]

/-! ## The formula of a proof set -/

namespace ProofSet

/-- The value of a literal, when `a` says which ids are true and `neg` which recorded negations hold. -/
def literalHolds (set : ProofSet W) (a neg : String → Bool) (l : Literal W) : Bool :=
  if l.isNegated && (set.negation? l).isSome then neg l.id else l.isCertain || a l.id

/-- Some proof holds with its whole body. -/
def holds (set : ProofSet W) (a neg : String → Bool) (proofs : List (Clause W)) : Bool :=
  proofs.any (fun p => p.body.all (set.literalHolds a neg))

/-- A recorded negation holds when none of its proofs does. -/
def Values (set : ProofSet W) (a neg : String → Bool) : Prop :=
  ∀ (id : String) (base : List (Clause W)), set.negations[id]? = some base → neg id = !set.holds a neg base

/-- A proof behind one negation has the other as a leaf. -/
def RestsOn (set : ProofSet W) (id id' : String) : Prop :=
  ∃ base : List (Clause W), set.negations[id]? = some base ∧ ∃ p ∈ base, ∃ l ∈ p.body, l.isNegated = true ∧ l.id = id'

/-- No negation rests on itself, however indirectly. -/
def Acyclic (set : ProofSet W) : Prop := ∀ id, ¬ Relation.TransGen set.RestsOn id id

/-- Ranks that fall from each negation to those it rests on. -/
theorem acyclic_of_rank {set : ProofSet W} (rank : String → Nat) (h : ∀ id id', set.RestsOn id id' → rank id' < rank id) :
    set.Acyclic := by
  have hfall : ∀ {id id'}, Relation.TransGen set.RestsOn id id' → rank id' < rank id := by
    intro id id' hr
    induction hr with
    | single hr => exact h _ _ hr
    | tail _ hr ih => exact Nat.lt_trans (h _ _ hr) ih
  exact fun id hr => Nat.lt_irrefl _ (hfall hr)

/-- A literal of some proof. -/
def Occurs (set : ProofSet W) (l : Literal W) : Prop :=
  (∃ p ∈ set.proofs, l ∈ p.body) ∨ ∃ (id : String) (base : List (Clause W)), set.negations[id]? = some base ∧ ∃ p ∈ base, l ∈ p.body

variable {set : ProofSet W} {a neg neg' : String → Bool} {pending : List String} {id id' : String}

/-- What a proof set says depends on the negations it has as leaves. -/
theorem holds_congr {proofs : List (Clause W)}
    (h : ∀ p ∈ proofs, ∀ l ∈ p.body, l.isNegated = true → (set.negation? l).isSome = true → neg l.id = neg' l.id) :
    set.holds a neg proofs = set.holds a neg' proofs := by
  have hliteral : ∀ p ∈ proofs, ∀ l ∈ p.body, set.literalHolds a neg l = set.literalHolds a neg' l := by
    intro p hp l hl
    unfold literalHolds
    split
    · rename_i hr
      rw [Bool.and_eq_true] at hr
      exact h p hp l hl hr.1 hr.2
    · rfl
  rw [Bool.eq_iff_iff]
  simp only [holds, List.any_eq_true, List.all_eq_true]
  constructor
  · rintro ⟨p, hp, hall⟩
    exact ⟨p, hp, fun l hl => by rw [← hliteral p hp l hl]; exact hall l hl⟩
  · rintro ⟨p, hp, hall⟩
    exact ⟨p, hp, fun l hl => by rw [hliteral p hp l hl]; exact hall l hl⟩

/-! ## Nested negations -/

/-- The negations in `pending` are recorded and different, and each of them rests on `id`. -/
structure Nested (set : ProofSet W) (pending : List String) (id : String) : Prop where
  recorded : ∀ q ∈ pending, q ∈ set.negations
  nodup    : pending.Nodup
  rests    : ∀ q ∈ pending, Relation.TransGen set.RestsOn q id

theorem nested_nil : set.Nested [] id := ⟨fun _ h => (nomatch h), .nil, fun _ h => nomatch h⟩

/-- There are no more of them than negations. -/
theorem Nested.length_le (h : set.Nested pending id) : pending.length ≤ set.negations.size := by
  rw [← Std.HashMap.length_keys]
  exact (List.subperm_of_subset h.nodup (fun q hq => Std.HashMap.mem_keys.2 (h.recorded q hq))).length_le

theorem Nested.not_mem (h : set.Nested pending id) (ha : set.Acyclic) : id ∉ pending := fun hm => ha id (h.rests id hm)

/-- One negation deeper. -/
theorem Nested.cons (h : set.Nested pending id) (ha : set.Acyclic) (hr : set.RestsOn id id') :
    set.Nested (id :: pending) id' := by
  refine ⟨fun q hq => ?_, List.nodup_cons.2 ⟨h.not_mem ha, h.nodup⟩, fun q hq => ?_⟩
  · rcases List.mem_cons.1 hq with rfl | hq
    · obtain ⟨base, hb, -⟩ := hr
      exact Std.HashMap.mem_iff_isSome_getElem?.2 (by rw [hb]; rfl)
    · exact h.recorded q hq
  · rcases List.mem_cons.1 hq with rfl | hq
    · exact .single hr
    · exact .tail (h.rests q hq) hr

/-! ## Which negations hold -/

/-- Which negations hold, as far as `depth` negations within each other tell. -/
def denial (set : ProofSet W) (a : String → Bool) : Nat → String → Bool
  | 0,         _  => true
  | depth + 1, id =>
    match set.negations[id]? with
    | none      => true
    | some base => !set.holds a (denial set a depth) base

theorem denial_stable (ha : set.Acyclic) : ∀ (depth : Nat) {pending : List String} {id : String},
    set.Nested pending id → pending.length + depth = set.negations.size + 1 →
    set.denial a (depth + 1) id = set.denial a depth id
  | 0,         pending, id, h, hlen => by
    have := h.length_le
    omega
  | depth + 1, pending, id, h, hlen => by
    rw [denial, denial]
    cases hb : set.negations[id]? with
    | none => rfl
    | some base =>
      simp only
      rw [holds_congr (fun p hp l hl hneg _ => denial_stable ha depth (h.cons ha ⟨base, hb, p, hp, l, hl, hneg, rfl⟩)
        (by rw [List.length_cons]; omega))]

/-- **There is a way to say which negations hold.** -/
theorem Acyclic.exists_values (ha : set.Acyclic) (a : String → Bool) : ∃ neg, set.Values a neg := by
  refine ⟨set.denial a (set.negations.size + 1), fun id base hb => ?_⟩
  rw [← denial_stable ha (set.negations.size + 1) nested_nil (Nat.zero_add _), denial, hb]

end ProofSet

/-! ## The compiler at work -/

namespace Compiler

variable {set : ProofSet W} {c c' c'' : Compiler W} {l : Literal W}

/-- An assignment of the variables is what `a` says of their ids. -/
def Agrees (c : Compiler W) (b : Nat → Bool) (a : String → Bool) : Prop :=
  ∀ (v : Nat) (id : String), c.labels[v]? = some id → b v = a id

/-- **The invariant of the compiler.** -/
structure Valid (set : ProofSet W) (c : Compiler W) : Prop where
  ready   : c.diagram.Ready
  count   : c.diagram.varCount = c.labels.size
  size    : c.weights.size = c.labels.size
  vars    : ∀ (id : String) (v : Nat), c.vars[id]? = some v ↔ c.labels[v]? = some id
  weights : ∀ (v : Nat) (id : String), c.labels[v]? = some id →
    ∃ l, set.Occurs l ∧ l.id = id ∧ c.weights[v]? = some l.weight
  denials : ∀ (id : String) (f : Handle), c.negations[id]? = some f → id ∈ set.negations ∧ c.diagram.Live f ∧
    ∀ a neg b, set.Values a neg → c.Agrees b a → c.diagram.eval f b = neg id

/-- More ids, and everything that was built. -/
structure Extends (c c' : Compiler W) : Prop where
  grows  : c.diagram.Grows c'.diagram
  labels : ∀ (v : Nat) (id : String), c.labels[v]? = some id → c'.labels[v]? = some id

theorem Valid.extends (h : c.Valid set) : c.Extends c := ⟨h.ready.grows, fun _ _ h => h⟩

omit [Weight W] in
theorem Extends.trans (h : c.Extends c') (h' : c'.Extends c'') : c.Extends c'' :=
  ⟨h.grows.trans h'.grows, fun v id hv => h'.labels v id (h.labels v id hv)⟩

omit [Weight W] in
theorem Extends.agrees (h : c.Extends c') {b : Nat → Bool} {a : String → Bool} (hb : c'.Agrees b a) : c.Agrees b a :=
  fun v id hv => hb v id (h.labels v id hv)

/-- What compiling something comes to: a live handle with the values it should have. -/
structure Compiles (set : ProofSet W) (c : Compiler W) (value : (String → Bool) → (String → Bool) → Bool)
    (built : Handle × Compiler W) : Prop where
  valid : built.2.Valid set
  keeps : c.Extends built.2
  live  : built.2.diagram.Live built.1
  eval  : ∀ a neg b, set.Values a neg → built.2.Agrees b a → built.2.diagram.eval built.1 b = value a neg

/-- Another diagram in which everything built so far is there. -/
theorem Valid.setDiagram (h : c.Valid set) {d : Diagram} (hd : c.diagram.Grows d) (hcount : d.varCount = c.diagram.varCount) :
    ({ c with diagram := d } : Compiler W).Valid set ∧ c.Extends { c with diagram := d } := by
  refine ⟨⟨hd.ready, hcount.trans h.count, h.size, h.vars, h.weights, fun id f hf => ?_⟩, hd, fun _ _ h => h⟩
  obtain ⟨h0, h1, h2⟩ := h.denials id f hf
  refine ⟨h0, hd.within.live h1, fun a neg b hv hb => ?_⟩
  rw [hd.eval h.ready h1]
  exact h2 a neg b hv hb

/-- The id of a literal as a variable. -/
theorem var_spec (h : c.Valid set) (hl : set.Occurs l) : Compiles set c (fun a _ => a l.id) (c.var l) := by
  unfold var
  simp only
  cases hv : c.vars[l.id]? with
  | some v =>
    have hlabel := (h.vars l.id v).1 hv
    have hlt : v < c.labels.size := (Array.getElem?_eq_some_iff.1 hlabel).1
    obtain ⟨h1, h2, h3, h4, h5, h6⟩ := Diagram.var_spec h.ready v
    have hcount := h.count
    obtain ⟨hvalid, hext⟩ := h.setDiagram ⟨h1, h2, h3⟩ (by rw [h4]; omega)
    exact ⟨hvalid, hext, h5, fun a neg b _ hb => (h6 b).trans (hb v l.id hlabel)⟩
  | none =>
    obtain ⟨h1, h2, h3, h4, h5, h6⟩ := Diagram.var_spec h.ready c.weights.size
    have hg : c.diagram.Grows (c.diagram.var c.weights.size).2 := ⟨h1, h2, h3⟩
    have hcount := h.count
    have hsize := h.size
    have hold : ∀ {v : Nat} {id : String}, c.labels[v]? = some id → (c.labels.push l.id)[v]? = some id := by
      intro v id hv
      rw [Array.getElem?_push, if_neg]
      · exact hv
      · have := (Array.getElem?_eq_some_iff.1 hv).1
        omega
    have hpush : ∀ {v : Nat} {id : String}, (c.labels.push l.id)[v]? = some id →
        v = c.weights.size ∧ id = l.id ∨ v ≠ c.weights.size ∧ c.labels[v]? = some id := by
      intro v id hv
      rw [Array.getElem?_push] at hv
      split at hv
      · injection hv with hv
        exact .inl ⟨by omega, hv.symm⟩
      · exact .inr ⟨by omega, hv⟩
    have hlast : (c.labels.push l.id)[c.weights.size]? = some l.id := by
      rw [Array.getElem?_push, if_pos hsize]
    refine ⟨⟨h1, by rw [h4, Array.size_push]; omega, by rw [Array.size_push, Array.size_push, hsize], fun id v => ?_,
      fun v id hv => ?_, fun id f hf => ?_⟩, ⟨hg, fun v id hv => hold hv⟩, h5, fun a neg b _ hb => (h6 b).trans (hb _ _ hlast)⟩
    · simp only [Std.HashMap.getElem?_insert, beq_iff_eq]
      split
      · rename_i e
        subst e
        refine ⟨fun e => ?_, fun e => ?_⟩
        · injection e with e
          exact e ▸ hlast
        · rcases hpush e with ⟨rfl, -⟩ | ⟨-, e⟩
          · rfl
          · rw [← h.vars, hv] at e
            cases e
      · rename_i e
        rw [h.vars]
        refine ⟨hold, fun hv => ?_⟩
        rcases hpush hv with ⟨-, rfl⟩ | ⟨-, hv⟩
        · exact absurd rfl e
        · exact hv
    · rcases hpush hv with ⟨rfl, rfl⟩ | ⟨hne, hv⟩
      · exact ⟨l, hl, rfl, by rw [Array.getElem?_push, if_pos rfl]⟩
      · obtain ⟨m, h7, h8, h9⟩ := h.weights v id hv
        exact ⟨m, h7, h8, by rw [Array.getElem?_push, if_neg hne]; exact h9⟩
    · obtain ⟨h0, h7, h8⟩ := h.denials id f hf
      refine ⟨h0, h2.live h7, fun a neg b hval hb => ?_⟩
      rw [hg.eval h.ready h7]
      exact h8 a neg b hval (fun v id hv => hb v id (hold hv))

/-! ## Bodies and proofs -/

/-- What compiling a list of things comes to; `join` puts their values together. -/
structure CompilesAll (set : ProofSet W) (c : Compiler W) (join : List Handle → (Handle → Bool) → Bool)
    (value : (String → Bool) → (String → Bool) → Bool) (built : List Handle × Compiler W) : Prop where
  valid : built.2.Valid set
  keeps : c.Extends built.2
  live  : ∀ f ∈ built.1, built.2.diagram.Live f
  eval  : ∀ a neg b, set.Values a neg → built.2.Agrees b a →
    join built.1 (fun f => built.2.diagram.eval f b) = value a neg

theorem Valid.compilesNil (h : c.Valid set) {join : List Handle → (Handle → Bool) → Bool} {x : Bool}
    (hx : ∀ p, join [] p = x) : CompilesAll set c join (fun _ _ => x) ([], c) :=
  ⟨h, h.extends, fun _ hf => (nomatch hf), fun _ _ _ _ _ => hx _⟩

/-- One thing more, in front. -/
theorem Compiles.cons {join : List Handle → (Handle → Bool) → Bool} {op : Bool → Bool → Bool}
    (hjoin : ∀ f fs p, join (f :: fs) p = op (p f) (join fs p)) {v w : (String → Bool) → (String → Bool) → Bool}
    {f : Handle} {fs : List Handle} (h : Compiles set c v (f, c')) (h' : CompilesAll set c' join w (fs, c'')) :
    CompilesAll set c join (fun a neg => op (v a neg) (w a neg)) (f :: fs, c'') := by
  refine ⟨h'.valid, h.keeps.trans h'.keeps, fun g hg => ?_, fun a neg b hv hb => ?_⟩
  · rcases List.mem_cons.1 hg with rfl | hg
    · exact h'.keeps.grows.within.live h.live
    · exact h'.live g hg
  · have hf : c''.diagram.eval f b = v a neg :=
      (h'.keeps.grows.eval h.valid.ready h.live).trans (h.eval a neg b hv (h'.keeps.agrees hb))
    rw [hjoin, hf, h'.eval a neg b hv hb]

/-- Things put together by a connective of the diagram. -/
theorem CompilesAll.join {join : List Handle → (Handle → Bool) → Bool} {v : (String → Bool) → (String → Bool) → Bool}
    {fs : List Handle} (h : CompilesAll set c join v (fs, c')) {built : Handle × Diagram}
    (hb : c'.diagram.Builds (fun b => join fs (fun f => c'.diagram.eval f b)) built) :
    Compiles set c v (built.1, { c' with diagram := built.2 }) := by
  obtain ⟨hvalid, hext⟩ := h.valid.setDiagram hb.grows hb.keeps.varCount
  exact ⟨hvalid, h.keeps.trans hext, hb.live, fun a neg b hv hag => (hb.eval b).trans (h.eval a neg b hv hag)⟩

/-- A way to compile the negations among some literals. -/
def Denies (set : ProofSet W) (negation : Literal W → Compiler W → Handle × Compiler W) (l : Literal W) : Prop :=
  l.isNegated = true → ∀ {c : Compiler W}, c.Valid set → Compiles set c (fun a neg => set.literalHolds a neg l) (negation l c)

variable {negation : Literal W → Compiler W → Handle × Compiler W}

theorem conjuncts_spec : ∀ (body : Body W) {c : Compiler W}, c.Valid set → (∀ l ∈ body, set.Occurs l) →
    (∀ l ∈ body, Denies set negation l) →
    CompilesAll set c List.all (fun a neg => body.all (set.literalHolds a neg)) (conjuncts negation body c)
  | [],      c, h, _,    _    => h.compilesNil (fun _ => rfl)
  | l :: ls, c, h, hocc, hneg => by
    obtain ⟨hl, hls⟩ := List.forall_mem_cons.1 hocc
    obtain ⟨hn, hns⟩ := List.forall_mem_cons.1 hneg
    unfold conjuncts
    split
    · rename_i hnegated
      have h1 := hn hnegated h
      exact h1.cons (fun _ _ _ => List.all_cons) (conjuncts_spec ls h1.valid hls hns)
    · rename_i hpositive
      have hvalue : ∀ a neg, set.literalHolds a neg l = (l.isCertain || a l.id) := fun a neg => by
        rw [ProofSet.literalHolds, if_neg (by simp [hpositive])]
      split
      · rename_i hcertain
        have h1 := conjuncts_spec ls h hls hns
        refine ⟨h1.valid, h1.keeps, h1.live, fun a neg b hv hb => (h1.eval a neg b hv hb).trans ?_⟩
        rw [List.all_cons, hvalue, hcertain, Bool.true_or, Bool.true_and]
      · rename_i huncertain
        have h1 := var_spec h hl
        have h2 := h1.cons (fun _ _ _ => List.all_cons) (conjuncts_spec ls h1.valid hls hns)
        refine ⟨h2.valid, h2.keeps, h2.live, fun a neg b hv hb => (h2.eval a neg b hv hb).trans ?_⟩
        rw [List.all_cons, hvalue, Bool.eq_false_iff.2 huncertain, Bool.false_or]

theorem disjuncts_spec : ∀ (proofs : List (Clause W)) {c : Compiler W}, c.Valid set →
    (∀ p ∈ proofs, ∀ l ∈ p.body, set.Occurs l) → (∀ p ∈ proofs, ∀ l ∈ p.body, Denies set negation l) →
    CompilesAll set c List.any (fun a neg => set.holds a neg proofs) (disjuncts negation proofs c)
  | [],      c, h, _,    _    => h.compilesNil (fun _ => rfl)
  | p :: ps, c, h, hocc, hneg => by
    obtain ⟨hp, hps⟩ := List.forall_mem_cons.1 hocc
    obtain ⟨hn, hns⟩ := List.forall_mem_cons.1 hneg
    have h1 := conjuncts_spec p.body h hp hn
    have h2 := h1.join (Diagram.andAll_spec h1.valid.ready h1.live)
    exact h2.cons (fun _ _ _ => List.any_cons) (disjuncts_spec ps h2.valid hps hns)

theorem disjunction_spec (h : c.Valid set) {proofs : List (Clause W)} (hocc : ∀ p ∈ proofs, ∀ l ∈ p.body, set.Occurs l)
    (hneg : ∀ p ∈ proofs, ∀ l ∈ p.body, Denies set negation l) :
    Compiles set c (fun a neg => set.holds a neg proofs) (disjunction negation proofs c) := by
  have h1 := disjuncts_spec proofs h hocc hneg
  exact h1.join (Diagram.orAll_spec h1.valid.ready h1.live)

/-! ## Negations -/

/-- A finished negation. -/
theorem Compiles.finish {id : String} {f : Handle} (hid : id ∈ set.negations) (h : Compiles set c (fun _ neg => neg id) (f, c')) :
    Compiles set c (fun _ neg => neg id) (f, { c' with negations := c'.negations.insert id f }) := by
  refine ⟨⟨h.valid.ready, h.valid.count, h.valid.size, h.valid.vars, h.valid.weights, fun id' g hg => ?_⟩,
    ⟨h.keeps.grows, h.keeps.labels⟩, h.live, h.eval⟩
  simp only [Std.HashMap.getElem?_insert, beq_iff_eq] at hg
  split at hg
  · rename_i e
    injection hg with hg
    subst e hg
    exact ⟨hid, h.live, h.eval⟩
  · exact h.valid.denials id' g hg

/-- **A negation** is the complement of its proofs.  By induction on the bound: each negation compiled inside another
has one more pending, they are all different, and no more are pending than are recorded. -/
theorem negation_spec (ha : set.Acyclic) : ∀ (fuel : Nat) {pending : List String} {leaf : Literal W} {c : Compiler W},
    set.Nested pending leaf.id → pending.length + fuel = set.negations.size + 1 → leaf.isNegated = true → set.Occurs leaf →
    c.Valid set → Compiles set c (fun a neg => set.literalHolds a neg leaf) (Compiler.negation set fuel pending leaf c)
  | 0,        pending, leaf, c, hnest, hlen, _,    _,    _ => by
    have := hnest.length_le
    omega
  | fuel + 1, pending, leaf, c, hnest, hlen, hneg, hocc, h => by
    unfold Compiler.negation
    simp only
    cases hbase : set.negation? leaf with
    | none =>
      have hvalue : ∀ a neg, set.literalHolds a neg leaf = (leaf.isCertain || a leaf.id) := fun a neg => by
        rw [ProofSet.literalHolds, if_neg (by simp [hbase])]
      cases hk : c.negations[leaf.id]? with
      | some f =>
        have hmem := Std.HashMap.mem_iff_isSome_getElem?.1 (h.denials leaf.id f hk).1
        rw [show set.negations[leaf.id]? = none from hbase] at hmem
        cases hmem
      | none =>
        simp only
        split
        · rename_i hcertain
          refine ⟨h, h.extends, Diagram.live_top, fun a neg b _ _ => ?_⟩
          simp only
          rw [h.ready.valid.eval_top, hvalue, hcertain, Bool.true_or]
        · rename_i huncertain
          have h1 := var_spec h hocc
          refine ⟨h1.valid, h1.keeps, h1.live, fun a neg b hv hb => (h1.eval a neg b hv hb).trans ?_⟩
          rw [hvalue, Bool.eq_false_iff.2 huncertain, Bool.false_or]
    | some base =>
      have hvalue : ∀ a neg, set.literalHolds a neg leaf = neg leaf.id := fun a neg => by
        rw [ProofSet.literalHolds, if_pos (by simp [hbase, hneg])]
      simp only [hvalue]
      cases hk : c.negations[leaf.id]? with
      | some f =>
        obtain ⟨-, h1, h2⟩ := h.denials leaf.id f hk
        exact ⟨h, h.extends, h1, h2⟩
      | none =>
        simp only
        have hpending : pending.contains leaf.id = false := by
          simpa using hnest.not_mem ha
        rw [hpending]
        simp only [Bool.false_eq_true, if_false]
        have hdenies : ∀ p ∈ base, ∀ l ∈ p.body, Denies set (Compiler.negation set fuel (leaf.id :: pending)) l := by
          intro p hp l hl hln _ hc
          exact negation_spec ha fuel (hnest.cons ha ⟨base, hbase, p, hp, l, hl, hln, rfl⟩)
            (by rw [List.length_cons]; omega) hln (.inr ⟨leaf.id, base, hbase, p, hp, hl⟩) hc
        have h1 := disjunction_spec h (fun p hp l hl => .inr ⟨leaf.id, base, hbase, p, hp, hl⟩) hdenies
        generalize disjunction (Compiler.negation set fuel (leaf.id :: pending)) base c = built at h1
        obtain ⟨f, c₁⟩ := built
        have hb := Diagram.not_spec h1.valid.ready h1.live
        obtain ⟨hvalid, hext⟩ := h1.valid.setDiagram hb.grows hb.keeps.varCount
        have h2 : Compiles set c (fun _ neg => neg leaf.id) ((c₁.diagram.not f).1, { c₁ with diagram := (c₁.diagram.not f).2 }) :=
          ⟨hvalid, h1.keeps.trans hext, hb.live, fun a neg b hv hag => by
            refine (hb.eval b).trans ?_
            rw [hv leaf.id base hbase, ← h1.eval a neg b hv hag]⟩
        exact h2.finish (Std.HashMap.mem_iff_isSome_getElem?.2 (by rw [show set.negations[leaf.id]? = some base from hbase]; rfl))

end Compiler
end Credence
