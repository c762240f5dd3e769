import Credence.Proofs.Canonicity
import Credence.Proofs.Closing
import Credence.Proofs.Estimation
import Mathlib.Logic.Function.Iterate
/-!
# Recursions that come to an end

Bindings are followed, tries climbed, proofs expanded, negations closed, diagrams built and counted by recursions that no argument of theirs bounds; the
definitions carry a bound along.  Here each recursion is written without one, as what a single unfolding does to the
calls below it.  It comes to an end where finitely many unfoldings give the value, whatever stands for the calls that
are left (`EndsAt`).  Bindings end because none leads back, and climbs in a trie because parents come first.  Expansion
ends because no id is on the stack twice, closing because there are only so many negations, compiling a negation because
none is pending twice, and the operations on a diagram because they go down.
-/
namespace Credence

/-- The recursion `f = F f` comes to an end at `x`, with the value `y`: after some number of unfoldings no call is left
that matters.  In the recursions below every call hands something on to what comes after it, so that all of them matter. -/
def EndsAt {D R : Type} (F : (D → R) → D → R) (x : D) (y : R) : Prop := ∃ n, ∀ f, F^[n] f x = y

namespace EndsAt

variable {D R : Type} {F : (D → R) → D → R} {x : D} {y : R}

/-- Every function that satisfies the recursion has the value there. -/
theorem eq_of_fixed (h : EndsAt F x y) {f : D → R} (hf : F f = f) : f x = y := by
  obtain ⟨n, hn⟩ := h
  rw [← hn f, Function.iterate_fixed hf n]

/-- One more unfolding. -/
theorem step (h : EndsAt F x y) {x' : D} {y' : R} (hstep : ∀ f, f x = y → F f x' = y') : EndsAt F x' y' := by
  obtain ⟨n, hn⟩ := h
  refine ⟨n + 1, fun f => ?_⟩
  rw [Function.iterate_succ_apply']
  exact hstep _ (hn f)

end EndsAt

/-! ## Bindings -/

namespace Subst

/-- Follows one binding, given how to go on. -/
def chaseStep (s : Subst) (chase : Term → Term) : Term → Term
  | .const c => .const c
  | .var v   =>
    match s.get? v with
    | some t => chase t
    | none   => .var v

/-- A binding that nothing leads to does not matter. -/
theorem chaseStep_skip (f : Term → Term) (x : Var) (u : Term) (bs : List (Var × Term)) (h : ∀ b ∈ bs, b.2 ≠ .var x) :
    ∀ (n : Nat) (t : Term), t ≠ .var x → (chaseStep ⟨(x, u) :: bs⟩)^[n] f t = (chaseStep ⟨bs⟩)^[n] f t
  | 0,     t, _  => rfl
  | n + 1, t, ht => by
    rw [Function.iterate_succ_apply', Function.iterate_succ_apply']
    cases t with
    | const c => rfl
    | var y =>
      have hy : y ≠ x := fun e => ht (by rw [e])
      simp only [chaseStep, get?, lookup_cons_ne u bs hy]
      cases hl : List.lookup y bs with
      | none => rfl
      | some t' => exact chaseStep_skip f x u bs h n t' (h (y, t') (Renaming.mem_of_lookup hl))

theorem chaseStep_iterate (f : Term → Term) : ∀ (bs : List (Var × Term)), Triangular bs → ∀ (n : Nat) (t : Term),
    bs.length < n → (chaseStep ⟨bs⟩)^[n] f t = resolve bs t
  | [], _, n, t, hn => by
    obtain ⟨m, rfl⟩ : ∃ m, n = m + 1 := ⟨n - 1, by simp at hn; omega⟩
    rw [Function.iterate_succ_apply']
    cases t with
    | const c => rfl
    | var v => rfl
  | (x, u) :: bs, ⟨⟨_, _, hu, hbs⟩, ht⟩, n, t, hn => by
    obtain ⟨m, rfl⟩ : ∃ m, n = m + 1 := ⟨n - 1, by simp at hn; omega⟩
    have hm : bs.length < m := by simpa using hn
    have hskip := chaseStep_skip f x u bs (fun b hb => (hbs b hb).2)
    by_cases htx : t = .var x
    · have hl : List.lookup x ((x, u) :: bs) = some u := by simp
      rw [Function.iterate_succ_apply', htx, chaseStep, get?, hl]
      dsimp only
      rw [hskip m u hu, resolve, if_pos rfl]
      exact chaseStep_iterate f bs ht m u hm
    · rw [hskip (m + 1) t htx, resolve, if_neg htx]
      exact chaseStep_iterate f bs ht (m + 1) t (by omega)

/-- **Following the bindings of a unification comes to an end**, at every stage of it. -/
theorem chase_ends (as bs : List Term) (t : Term) :
    EndsAt (Term.unifyAll as bs .empty).2.chaseStep t ((Term.unifyAll as bs .empty).2.chase t) := by
  have h := (Term.unifyAll_spec as bs (s := .empty) trivial).triangular
  refine ⟨(Term.unifyAll as bs .empty).2.size + 1, fun f => ?_⟩
  rw [chase_eq_resolve h]
  exact chaseStep_iterate f _ h _ t (Nat.lt_succ_self _)

end Subst

/-! ## Tries -/

namespace Trie

variable {W : Type} [Weight W]

/-- Brings a node back, given how to bring its parent back. -/
def reviveStep (revive : Nat × Trie W → Except Error (Trie W)) : Nat × Trie W → Except Error (Trie W)
  | (i, t) =>
    match t.nodes[i]? with
    | none   => missing i
    | some n =>
      if n.alive then .ok t
      else if n.parent.getD root < (t.modify i (fun m => { m with alive := true })).size then
        revive (n.parent.getD root, t.reattach i n (n.parent.getD root))
      else missing (n.parent.getD root)

/-- The path to a node, given those to its ancestors. -/
def pathStep (t : Trie W) (path : Option Nat × List (Literal W) → Except Error (List (Literal W))) :
    Option Nat × List (Literal W) → Except Error (List (Literal W))
  | (none,   below) => .ok below
  | (some i, below) =>
    match t.nodes[i]? with
    | none   => missing i
    | some n => path (n.parent, n.literal.toList ++ below)

/-- Prunes a node, given how to go on from its parent. -/
def pruneStep (prune : Nat × Trie W → Nat × Trie W) : Nat × Trie W → Nat × Trie W
  | (i, t) =>
    match t.nodes[i]? with
    | none   => (0, t)
    | some n =>
      if i = root || !n.alive || !n.waiting.isEmpty || !n.children.isEmpty then (0, t)
      else
        let (count, t) := prune (n.parent.getD root, t.detach i n (n.parent.getD root))
        (count + 1, t)

variable {P : Literal W → Prop} {t : Trie W}

/-- By induction on the bound: parents come before their children, here and in the two lemmas below. -/
theorem reviveStep_iterate (f : Nat × Trie W → Except Error (Trie W)) : ∀ (climb i : Nat) {t : Trie W}, Sound P t →
    i < climb → reviveStep^[climb] f (i, t) = reviveWithin climb i t
  | climb + 1, i, t, h, hi => by
    rw [Function.iterate_succ_apply', reviveStep, reviveWithin]
    cases hn : t.nodes[i]? with
    | none => rfl
    | some n =>
      dsimp only
      by_cases ha : n.alive = true
      · rw [if_pos ha, if_pos ha]
      · rw [if_neg ha, if_neg ha]
        obtain ⟨p, l, hpar, hlt, -⟩ := h.parent i n hn (h.ne_root hn ha)
        rw [hpar, Option.getD_some]
        split
        · exact reviveStep_iterate f climb p (h.reattach hn (h.ne_root hn ha) hpar).1 (by omega)
        · rfl

theorem pathStep_iterate (h : Sound P t) (f : Option Nat × List (Literal W) → Except Error (List (Literal W))) :
    ∀ (climb : Nat) (o : Option Nat) (below : List (Literal W)), (∀ i, o = some i → i < climb) →
    t.pathStep^[climb + 1] f (o, below) = pathWithin climb o below t
  | climb, none, below, _ => by
    rw [Function.iterate_succ_apply', pathStep]
    cases climb <;> rfl
  | 0, some i, below, hi => nomatch hi i rfl
  | climb + 1, some i, below, hi => by
    rw [Function.iterate_succ_apply', pathStep, pathWithin]
    cases hn : t.nodes[i]? with
    | none => rfl
    | some n =>
      dsimp only
      refine pathStep_iterate h f climb n.parent _ (fun p hp => ?_)
      have hlt := hi i rfl
      by_cases hi0 : i = 0
      · obtain ⟨m, hm, -, -, hroot⟩ := h.root
        rw [← hi0, hn] at hm
        injection hm with hm
        rw [hm, hroot] at hp
        cases hp
      · obtain ⟨p', l, hpar, hlt', -⟩ := h.parent i n hn hi0
        rw [hpar] at hp
        injection hp with hp
        omega

theorem pruneStep_iterate (f : Nat × Trie W → Nat × Trie W) : ∀ (climb i : Nat) {t : Trie W}, Sound P t →
    i < climb → pruneStep^[climb] f (i, t) = pruneWithin climb i t
  | climb + 1, i, t, h, hi => by
    rw [Function.iterate_succ_apply', pruneStep, pruneWithin]
    cases hn : t.nodes[i]? with
    | none => rfl
    | some n =>
      dsimp only
      split
      · rfl
      · rename_i hc
        have hi0 : i ≠ 0 := by
          rintro rfl
          simp [root] at hc
        obtain ⟨p, l, hpar, hlt, -⟩ := h.parent i n hn hi0
        rw [hpar, Option.getD_some, pruneStep_iterate f climb p (h.detach hi0 n p).1 (by omega)]
        rfl

/-- The climbs in a trie come to an end. -/
structure Ends (t : Trie W) : Prop where
  revive : ∀ i, EndsAt reviveStep (i, t) (t.revive i)
  path   : ∀ i, EndsAt t.pathStep (some i, []) (pathWithin (i + 1) (some i) [] t)
  prune  : ∀ i, EndsAt pruneStep (i, t) (pruneWithin (i + 1) i t)

theorem Sound.ends (h : Sound P t) : t.Ends where
  revive i := ⟨i + 1, fun f => reviveStep_iterate f (i + 1) i h (Nat.lt_succ_self i)⟩
  path i := ⟨i + 2, fun f => pathStep_iterate h f (i + 1) (some i) [] (by rintro j ⟨⟩; exact Nat.lt_succ_self i)⟩
  prune i := ⟨i + 1, fun f => pruneStep_iterate f (i + 1) i h (Nat.lt_succ_self i)⟩

end Trie

/-! ## Expansion -/

namespace Prover

variable {W : Type} [Weight W]

/-- Expands a literal, given how to expand those below it. -/
def expandStep (p : Prover W) (expand : List String × Literal W × Memo W → Expansion W × Memo W) :
    List String × Literal W × Memo W → Expansion W × Memo W
  | (stack, l, memo) =>
    match stack.idxOf? l.id, memo[l.id]? with
    | some depth, _          => (⟨[], some depth⟩, memo)
    | none,       some known => (⟨known, none⟩, memo)
    | none,       none       =>
      let rules := p.rules[l.id]?
      let leaf : List (Body W) := if rules.isNone || p.snapshot.isAsserted l then [[l]] else []
      let (found, memo) := expandRules (fun m memo => expand (stack ++ [l.id], m, memo)) (rules.getD []) ⟨leaf, none⟩ memo
      let bodies := normalize p.prune found.bodies
      if found.cut.all (fun c => stack.length ≤ c) then (⟨bodies, none⟩, memo.insert l.id bodies)
      else (⟨bodies, found.cut⟩, memo)

theorem expandWithin_succ (p : Prover W) (fuel : Nat) (stack : List String) (l : Literal W) (memo : Memo W) :
    p.expandWithin (fuel + 1) stack l memo =
      p.expandStep (fun x => p.expandWithin fuel x.1 x.2.1 x.2.2) (stack, l, memo) := rfl

variable {p : Prover W}

/-- The calls below a literal: those of a rule head that is not on the stack, with it on the stack. -/
theorem expandStep_congr {f g : List String × Literal W × Memo W → Expansion W × Memo W} {stack : List String}
    {l : Literal W} {memo : Memo W}
    (h : l.id ∉ stack → l.id ∈ p.rules → ∀ m memo, f (stack ++ [l.id], m, memo) = g (stack ++ [l.id], m, memo)) :
    p.expandStep f (stack, l, memo) = p.expandStep g (stack, l, memo) := by
  simp only [expandStep]
  cases hstack : stack.idxOf? l.id with
  | some depth => rfl
  | none =>
    cases hmemo : memo[l.id]? with
    | some known => rfl
    | none =>
      cases hr : p.rules[l.id]? with
      | none => rfl
      | some rs =>
        have hsame : (fun m memo => f (stack ++ [l.id], m, memo)) = fun m memo => g (stack ++ [l.id], m, memo) := by
          funext m memo
          exact h (List.idxOf?_eq_none_iff.1 hstack) (Std.HashMap.mem_iff_isSome_getElem?.2 (by rw [hr]; rfl)) m memo
        simp only [hsame]

/-- By induction on the bound: with every literal that is taken up the stack grows, and it holds different heads. -/
theorem expandStep_iterate (f : List String × Literal W × Memo W → Expansion W × Memo W) : ∀ (fuel : Nat)
    {stack : List String} (l : Literal W) (memo : Memo W), stack.Nodup → (∀ x ∈ stack, x ∈ p.rules) →
    p.rules.size + 2 ≤ stack.length + fuel → p.expandStep^[fuel] f (stack, l, memo) = p.expandWithin fuel stack l memo
  | 0,        stack, l, memo, hn, hs, hfuel => by
    have := length_le_size hn hs
    omega
  | fuel + 1, stack, l, memo, hn, hs, hfuel => by
    rw [Function.iterate_succ_apply', expandWithin_succ]
    refine expandStep_congr (fun hnew hhead m memo => ?_)
    refine expandStep_iterate f fuel m memo ?_ ?_ (by rw [List.length_append, List.length_singleton]; omega)
    · exact List.nodup_append.2 ⟨hn, by simp, fun x hx y hy e => hnew (by rw [← List.mem_singleton.1 hy, ← e]; exact hx)⟩
    · exact List.forall_mem_append.2 ⟨hs, List.forall_mem_singleton.2 hhead⟩

/-- **The expansion of every target comes to an end**, also where rules lead round in circles. -/
theorem expand_ends (p : Prover W) (l : Literal W) :
    EndsAt p.expandStep ([], l, ∅) (p.expandWithin (p.rules.size + 2) [] l ∅) :=
  ⟨p.rules.size + 2, fun f => expandStep_iterate f _ l ∅ .nil (fun _ h => nomatch h) (by simp)⟩

/-! ## Closing -/

/-- Records the first pending negation, given how to go on. -/
def closeStep (p : Prover W)
    (close : List (Literal W) × Std.HashMap String (List (Clause W)) → Std.HashMap String (List (Clause W))) :
    List (Literal W) × Std.HashMap String (List (Clause W)) → Std.HashMap String (List (Clause W))
  | ([], known)           => known
  | (leaf :: rest, known) =>
    if known.contains leaf.id then close (rest, known)
    else
      let base := p.proofsOf (p.snapshot.negationBases leaf)
      close (ProofSet.negationLeaves base ++ rest, known.insert leaf.id base)

variable {s : Snapshot W} {prune : Bool} {targets : List (Literal W)}

theorem closeNegations_ends (fuel : Nat) (pending : List (Literal W)) (known : Std.HashMap String (List (Clause W)))
    (hknown : (ofSnapshot s prune).Records targets known) (hpending : ∀ l ∈ pending, (ofSnapshot s prune).Meets targets l.id)
    (hfuel : known.size + fuel = (ofSnapshot s prune).leafBound targets) :
    EndsAt (ofSnapshot s prune).closeStep (pending, known) ((ofSnapshot s prune).closeNegations fuel pending known) := by
  fun_induction closeNegations (ofSnapshot s prune) fuel pending known with
  | case1 fuel known => exact ⟨1, fun f => rfl⟩
  | case2 fuel known leaf rest hmem ih =>
    obtain ⟨-, hrest⟩ := List.forall_mem_cons.1 hpending
    refine (ih hknown hrest hfuel).step (fun f hf => ?_)
    rw [closeStep, if_pos hmem, hf]
  | case3 known leaf rest hmem =>
    have := hknown.size_le
    omega
  | case4 known leaf rest hmem fuel base ih =>
    obtain ⟨hleaf, hrest⟩ := List.forall_mem_cons.1 hpending
    have hsize : (known.insert leaf.id base).size + fuel = (ofSnapshot s prune).leafBound targets := by
      rw [Std.HashMap.size_insert, if_neg (by simpa using hmem)]
      omega
    refine (ih (hknown.insert hleaf) (fun l hl => ?_) hsize).step (fun f hf => ?_)
    · rcases List.mem_append.1 hl with hl | hl
      · exact .behind hleaf (negationOf_iff.2 ⟨l, hl, rfl⟩)
      · exact hrest l hl
    · rw [closeStep, if_neg hmem]
      exact hf

/-- **The search for the negations of a proof set comes to an end**, also where negations rest on themselves. -/
theorem proofSet_ends (s : Snapshot W) (prune : Bool) (targets : List (Literal W)) :
    EndsAt (ofSnapshot s prune).closeStep (ProofSet.negationLeaves ((ofSnapshot s prune).proofsOf targets), ∅)
      ((ofSnapshot s prune).proofSet targets).negations :=
  closeNegations_ends _ _ ∅ (fun id base hb => by simp at hb) (fun l hl => .direct (negationOf_iff.2 ⟨l, hl, rfl⟩)) (by simp)

end Prover

/-! ## Negations -/

namespace Compiler

variable {W : Type} [Weight W]

/-- Compiles a negation, given how to compile those behind it. -/
def negationStep (set : ProofSet W) (negation : List String × Literal W × Compiler W → Handle × Compiler W) :
    List String × Literal W × Compiler W → Handle × Compiler W
  | (pending, leaf, c) =>
    match c.negations[leaf.id]?, set.negation? leaf with
    | some f, _         => (f, c)
    | none,   none      => if leaf.isCertain then (.top, c) else c.var leaf
    | none,   some base =>
      if pending.contains leaf.id then c.var leaf
      else
        let (holds, c) := disjunction (fun l c => negation (leaf.id :: pending, l, c)) base c
        let (f, d) := c.diagram.not holds
        (f, { c with diagram := d, negations := c.negations.insert leaf.id f })

theorem negation_succ (set : ProofSet W) (fuel : Nat) (pending : List String) (leaf : Literal W) (c : Compiler W) :
    negation set (fuel + 1) pending leaf c =
      negationStep set (fun x => negation set fuel x.1 x.2.1 x.2.2) (pending, leaf, c) := rfl

variable {set : ProofSet W}

/-- The calls behind a negation: those of one that is recorded and not pending, with it pending. -/
theorem negationStep_congr {f g : List String × Literal W × Compiler W → Handle × Compiler W} {pending : List String}
    {leaf : Literal W} {c : Compiler W}
    (h : leaf.id ∉ pending → leaf.id ∈ set.negations → ∀ l c, f (leaf.id :: pending, l, c) = g (leaf.id :: pending, l, c)) :
    negationStep set f (pending, leaf, c) = negationStep set g (pending, leaf, c) := by
  simp only [negationStep]
  cases hknown : c.negations[leaf.id]? with
  | some x => rfl
  | none =>
    cases hbase : set.negation? leaf with
    | none => rfl
    | some base =>
      dsimp only
      split
      · rfl
      · rename_i hpending
        have hrecorded : leaf.id ∈ set.negations :=
          Std.HashMap.mem_iff_isSome_getElem?.2 (by rw [show set.negations[leaf.id]? = some base from hbase]; rfl)
        have hsame : (fun l c => f (leaf.id :: pending, l, c)) = fun l c => g (leaf.id :: pending, l, c) := by
          funext l c
          exact h (by simpa using hpending) hrecorded l c
        rw [hsame]

/-- By induction on the bound: the pending negations are recorded and different. -/
theorem negationStep_iterate (f : List String × Literal W × Compiler W → Handle × Compiler W) : ∀ (fuel : Nat)
    {pending : List String} (leaf : Literal W) (c : Compiler W), pending.Nodup → (∀ id ∈ pending, id ∈ set.negations) →
    set.negations.size + 1 ≤ pending.length + fuel →
    (negationStep set)^[fuel] f (pending, leaf, c) = negation set fuel pending leaf c
  | 0,        pending, leaf, c, hn, hp, hfuel => by
    have hsub : pending ⊆ set.negations.keys := fun id hid => Std.HashMap.mem_keys.2 (hp id hid)
    have hle := (List.subperm_of_subset hn hsub).length_le
    rw [Std.HashMap.length_keys] at hle
    omega
  | fuel + 1, pending, leaf, c, hn, hp, hfuel => by
    rw [Function.iterate_succ_apply', negation_succ]
    refine negationStep_congr (fun hnew hrecorded l c => ?_)
    exact negationStep_iterate f fuel l c (List.nodup_cons.2 ⟨hnew, hn⟩) (List.forall_mem_cons.2 ⟨hrecorded, hp⟩)
      (by rw [List.length_cons]; omega)

/-- **Compiling a negation comes to an end**, also where it rests on itself. -/
theorem negation_ends (set : ProofSet W) (leaf : Literal W) (c : Compiler W) :
    EndsAt (negationStep set) ([], leaf, c) (negation set (set.negations.size + 1) [] leaf c) :=
  ⟨set.negations.size + 1, fun f => negationStep_iterate f _ leaf c .nil (fun _ h => nomatch h) (by simp)⟩

end Compiler

/-! ## Diagrams -/

namespace Diagram

variable {d : Diagram} {f g h : Handle}

/-- Splits on the highest variable, given how to do the branches. -/
def splitStep (ite : Diagram × Handle × Handle × Handle → Handle × Diagram) (d : Diagram) (f g h : Handle) :
    Handle × Diagram :=
  let v := d.varAt.getD (d.top3 f g h) 0
  let (f0, f1) := d.cofactors f v
  let (g0, g1) := d.cofactors g v
  let (h0, h1) := d.cofactors h v
  let (high, d) := ite (d, f1, g1, h1)
  let (low, d) := ite (d, f0, g0, h0)
  let (r, d) := d.make ⟨v, low, high⟩
  (r, { d with cache := d.cache.insert (f, g, h) r })

/-- If-then-else, given how to do it for the branches. -/
def iteStep (ite : Diagram × Handle × Handle × Handle → Handle × Diagram) :
    Diagram × Handle × Handle × Handle → Handle × Diagram
  | (d, f, g, h) =>
    if f = .top then (g, d)
    else if f = .bot then (h, d)
    else if g = h then (g, d)
    else if g = .top ∧ h = .bot then (f, d)
    else
      match d.cache.get (f, g, h) with
      | (some r, cache) => (r, { d with cache := cache })
      | (none, cache)   => splitStep ite { d with cache := cache } f g h

theorem splitWithin_eq_step (depth : Nat) (d : Diagram) (f g h : Handle) :
    splitWithin depth d f g h = splitStep (fun x => iteWithin depth x.1 x.2.1 x.2.2.1 x.2.2.2) d f g h := by
  simp only [splitWithin, splitStep]

theorem iteWithin_eq_step (depth : Nat) (d : Diagram) (f g h : Handle) :
    iteWithin (depth + 1) d f g h = iteStep (fun x => iteWithin depth x.1 x.2.1 x.2.2.1 x.2.2.2) (d, f, g, h) := by
  by_cases h1 : f = .top
  · rw [iteWithin, iteStep, if_pos h1, if_pos h1]
  by_cases h2 : f = .bot
  · rw [iteWithin, iteStep, if_neg h1, if_neg h1, if_pos h2, if_pos h2]
  by_cases h3 : g = h
  · rw [iteWithin, iteStep, if_neg h1, if_neg h1, if_neg h2, if_neg h2, if_pos h3, if_pos h3]
  by_cases h4 : g = .top ∧ h = .bot
  · rw [iteWithin, iteStep, if_neg h1, if_neg h1, if_neg h2, if_neg h2, if_neg h3, if_neg h3, if_pos h4, if_pos h4]
  cases hget : d.cache.get (f, g, h) with
  | mk known cache =>
    rw [iteStep, if_neg h1, if_neg h2, if_neg h3, if_neg h4, hget]
    cases known with
    | some r =>
      rw [iteWithin, if_neg h1, if_neg h2, if_neg h3, if_neg h4, hget]
    | none =>
      rw [iteWithin_succ h1 h2 h3 h4 hget, splitWithin_eq_step]

/-- The two calls of a split lie lower, the second one in the diagram that the first one leaves. -/
theorem splitStep_congr {F : Diagram × Handle × Handle × Handle → Handle × Diagram} {depth : Nat} {n : Node}
    (ih : ∀ {d : Diagram} {f g h : Handle}, d.Ready → d.Live f → d.Live g → d.Live h → d.varCount < depth + d.top3 f g h →
      F (d, f, g, h) = iteWithin depth d f g h)
    (hd : d.Ready) (hf : d.Live f) (hg : d.Live g) (hh : d.Live h) (hn : d.node? f = some n)
    (hdepth : d.varCount < depth + 1 + d.top3 f g h) : splitStep F d f g h = splitWithin depth d f g h := by
  generalize hvdef : d.varAt.getD (d.top3 f g h) 0 = v
  obtain ⟨f0, f1, g0, g1, h0, h1, hv, ⟨ef, pf⟩, ⟨eg, pg⟩, ⟨eh, ph⟩, hlow, hhigh⟩ := hd.valid.halves hf hg hh hn hvdef
  have hbuilt := iteWithin_spec depth hd pf.high.1 pg.high.1 ph.high.1 (by omega)
  simp only [splitStep, splitWithin, hvdef, ef, eg, eh, ih hd pf.high.1 pg.high.1 ph.high.1 (by omega)]
  generalize iteWithin depth d f1 g1 h1 = built at hbuilt ⊢
  obtain ⟨high, d₂⟩ := built
  have hk := hbuilt.keeps
  rw [ih hbuilt.ready (hk.within.live pf.low.1) (hk.within.live pg.low.1) (hk.within.live ph.low.1)
    (by rw [hk.top3 hbuilt.ready.valid.sound pf.low.1 pg.low.1 ph.low.1, hk.varCount]; omega)]

/-- By induction on the bound, as for the function that is built. -/
theorem iteStep_iterate (F : Diagram × Handle × Handle × Handle → Handle × Diagram) : ∀ (depth : Nat) {d : Diagram}
    {f g h : Handle}, d.Ready → d.Live f → d.Live g → d.Live h → d.varCount < depth + d.top3 f g h →
    iteStep^[depth] F (d, f, g, h) = iteWithin depth d f g h := by
  intro depth
  induction depth with
  | zero =>
    intro d f g h hd hf hg hh hdepth
    have := hd.valid.level_le f
    simp only [top3] at hdepth
    omega
  | succ depth ih =>
    intro d f g h hd hf hg hh hdepth
    rw [Function.iterate_succ_apply', iteWithin_eq_step, iteStep, iteStep]
    split
    · rfl
    · rename_i h1
      split
      · rfl
      · rename_i h2
        split
        · rfl
        · split
          · rfl
          · obtain ⟨hget, hent⟩ := d.cache.get_entries (f, g, h)
            have hcache : d.Remembers (d.cache.get (f, g, h)).2 := fun f' g' h' r hr =>
              hd.memo f' g' h' r (by rwa [hent] at hr)
            cases hgot : d.cache.get (f, g, h) with
            | mk known cache =>
              rw [hgot] at hcache
              obtain ⟨hd₁, hk₁⟩ := hd.valid.setCache hcache
              cases known with
              | some r => rfl
              | none =>
                obtain ⟨n, hn⟩ : ∃ n, d.node? f = some n := (hf.resolve_left h2).resolve_left h1
                dsimp only
                rw [splitStep_congr ih hd₁ (hk₁.within.live hf) (hk₁.within.live hg) (hk₁.within.live hh)
                  (hk₁.within f n hn) (by rw [hk₁.top3 hd₁.valid.sound hf hg hh, hk₁.varCount]; omega), splitWithin_eq_step]

/-- **If-then-else comes to an end.** -/
theorem ite_ends (hd : d.Ready) (hf : d.Live f) (hg : d.Live g) (hh : d.Live h) :
    EndsAt iteStep (d, f, g, h) (d.ite f g h) :=
  ⟨d.varCount + 1, fun F => iteStep_iterate F _ hd hf hg hh (Nat.lt_of_lt_of_le (Nat.lt_succ_self _) (Nat.le_add_right _ _))⟩

/-! ## Counting and searching -/

/-- Counts a function, given how to count its branches. -/
def countStep {W : Type} [Weight W] (d : Diagram) (weight : Nat → W)
    (count : Std.HashMap Handle W × Handle → W × Std.HashMap Handle W) :
    Std.HashMap Handle W × Handle → W × Std.HashMap Handle W
  | (memo, f) =>
    match d.node? f with
    | none   => (if f = .top then 1 else 0, memo)
    | some n =>
      match memo[f]? with
      | some p => (p, memo)
      | none   =>
        let w := weight n.var
        let (high, memo) := count (memo, n.high)
        let (low, memo) := count (memo, n.low)
        let p := w * high + (1 - w) * low
        (p, memo.insert f p)

theorem countStep_iterate {W : Type} [Weight W] (hd : d.Valid) (weight : Nat → W)
    (F : Std.HashMap Handle W × Handle → W × Std.HashMap Handle W) : ∀ (depth : Nat) (memo : Std.HashMap Handle W)
    (f : Handle), d.varCount < depth + d.level f →
    (d.countStep weight)^[depth] F (memo, f) = d.countWithin weight depth memo f
  | 0,         memo, f, hdepth => by
    have := hd.level_le f
    omega
  | depth + 1, memo, f, hdepth => by
    rw [Function.iterate_succ_apply', countStep]
    unfold countWithin
    cases hn : d.node? f with
    | none => rfl
    | some n =>
      obtain ⟨hl, hh⟩ := hd.below f n hn
      cases hm : memo[f]? with
      | some p => rfl
      | none =>
        dsimp only
        rw [countStep_iterate hd weight F depth memo n.high (by omega)]
        rw [countStep_iterate hd weight F depth _ n.low (by omega)]

/-- **The weighted count comes to an end.** -/
theorem count_ends {W : Type} [Weight W] (hd : d.Valid) (weight : Nat → W) (f : Handle) :
    EndsAt (d.countStep weight) (∅, f) (d.countWithin weight (d.varCount + 1) ∅ f) :=
  ⟨d.varCount + 1, fun F => countStep_iterate hd weight F _ ∅ f (by omega)⟩

/-- Finds the nodes of a function, given how to find those of its branches. -/
def reachStep (d : Diagram) (reach : Std.HashSet Handle × Handle → Std.HashSet Handle) :
    Std.HashSet Handle × Handle → Std.HashSet Handle
  | (seen, f) =>
    match d.node? f with
    | none   => seen
    | some n => if seen.contains f then seen else reach (reach (seen.insert f, n.low), n.high)

theorem reachStep_iterate (hd : d.Valid) (F : Std.HashSet Handle × Handle → Std.HashSet Handle) : ∀ (depth : Nat)
    (seen : Std.HashSet Handle) (f : Handle), d.varCount < depth + d.level f →
    d.reachStep^[depth] F (seen, f) = d.reachFrom depth seen f
  | 0,         seen, f, hdepth => by
    have := hd.level_le f
    omega
  | depth + 1, seen, f, hdepth => by
    rw [Function.iterate_succ_apply', reachStep, reachFrom]
    cases hn : d.node? f with
    | none => rfl
    | some n =>
      obtain ⟨hl, hh⟩ := hd.below f n hn
      dsimp only
      split
      · rfl
      · rw [reachStep_iterate hd F depth (seen.insert f) n.low (by omega)]
        rw [reachStep_iterate hd F depth _ n.high (by omega)]

/-- **The search for the nodes of a function comes to an end.** -/
theorem reach_ends (hd : d.Valid) (seen : Std.HashSet Handle) (f : Handle) :
    EndsAt d.reachStep (seen, f) (d.reachFrom (d.varCount + 1) seen f) :=
  ⟨d.varCount + 1, fun F => reachStep_iterate hd F _ seen f (by omega)⟩

end Diagram
end Credence
