import Credence.Estimate
import Credence.Proofs.Shifting
/-!
# Proofs look past wildcards

Proofs are put together from literals that are known by their ids, and an id has one mark for all wildcards.  So when the
facts, rules and negations of a snapshot are seen with all wildcards alike, the proofs found in it are those found in the
snapshot itself, seen in the same way (`Prover.Mirrors.proofSet`), and the probability estimated from them is the same
(`Estimator.probability_shift`).
-/
namespace Credence

variable {W : Type}

/-! ## Maps of the same keys -/

/-- What `m` has for a key, `m'` has under `f`. -/
def Carries {α β : Type} (f : α → β) (m : Std.HashMap String α) (m' : Std.HashMap String β) : Prop :=
  ∀ k : String, m'[k]? = m[k]?.map f

namespace Carries

variable {α β : Type} {f : α → β} {m : Std.HashMap String α} {m' : Std.HashMap String β}

theorem empty (f : α → β) : Carries f ∅ ∅ := fun k => by simp

theorem insert (h : Carries f m m') (k : String) (a : α) : Carries f (m.insert k a) (m'.insert k (f a)) := by
  intro j
  rw [Std.HashMap.getElem?_insert, Std.HashMap.getElem?_insert, h j]
  split <;> rfl

theorem contains (h : Carries f m m') (k : String) : m'.contains k = m.contains k := by
  rw [← Std.HashMap.isSome_getElem?_eq_contains, ← Std.HashMap.isSome_getElem?_eq_contains, h k, Option.isSome_map]

theorem getD (h : Carries f m m') (k : String) (a : α) : m'.getD k (f a) = f (m.getD k a) := by
  rw [Std.HashMap.getD_eq_getD_getElem?, Std.HashMap.getD_eq_getD_getElem?, h k]
  cases m[k]? <;> rfl

theorem equiv (h : Carries f m m') : m'.Equiv (m.map (fun _ a => f a)) :=
  .of_forall_getElem?_eq (fun k => by rw [h k, Std.HashMap.getElem?_map])

theorem size_eq (h : Carries f m m') : m'.size = m.size := by rw [h.equiv.size_eq, Std.HashMap.size_map]

theorem toList_perm (h : Carries f m m') : m'.toList.Perm (m.toList.map (fun x => (x.1, f x.2))) :=
  h.equiv.toList_perm.trans Std.HashMap.toList_map

end Carries

/-- Sorting by the first parts does not see the second ones. -/
theorem sort_map {κ α β : Type} [LE κ] [DecidableLE κ] (f : α → β) (xs : List (κ × α)) :
    (xs.map (fun x => (x.1, f x.2))).mergeSort (fun a b => a.1 ≤ b.1) =
      (xs.mergeSort (fun a b => a.1 ≤ b.1)).map (fun x => (x.1, f x.2)) :=
  (List.map_mergeSort (r := fun a b : κ × α => decide (a.1 ≤ b.1)) (s := fun a b : κ × β => decide (a.1 ≤ b.1))
    (f := fun x => (x.1, f x.2)) (fun _ _ _ _ => rfl)).symm

/-! ## Bodies and rules -/

/-- The body with all wildcards alike. -/
def Body.plain (b : Body W) : Body W := b.map (Literal.shift 0)

def GroundRule.plain (r : GroundRule W) : GroundRule W := { r with body := r.body.plain }

variable [Weight W]

namespace Prover

omit [Weight W] in
theorem isRuleWeight_shift (l : Literal W) : isRuleWeight (l.shift 0) = isRuleWeight l := rfl

omit [Weight W] in
theorem markInstance_plain (k : Nat) (b : Body W) : markInstance k b.plain = Body.plain (markInstance k b) := by
  rw [markInstance, markInstance, Body.plain, Body.plain, List.map_map, List.map_map]
  refine List.map_congr_left (fun l _ => ?_)
  rw [Function.comp, Function.comp, isRuleWeight_shift]
  split
  · simp [Literal.extend, Literal.shift, Literal.name, Term.shift]
  · rfl

theorem numberRules_shift (rules : List (Clause W)) : numberRules (rules.map (Clause.shift 0)) =
    (numberRules rules).map (fun x => (x.1.shift 0, x.2)) := by
  have htexts : (rules.map (Clause.shift 0)).zipIdx.map (fun x => (x.1.text, x.1, x.2)) =
      (rules.zipIdx.map (fun x => (x.1.text, x.1, x.2))).map (fun a => (a.1, a.2.1.shift 0, a.2.2)) := by
    rw [List.zipIdx_map, List.map_map, List.map_map]
    refine List.map_congr_left (fun x _ => ?_)
    simp only [Function.comp, Prod.map, Clause.text_shift, id_eq]
  have hplaces : ∀ xs : List (String × Clause W × Nat),
      (xs.map (fun a => (a.1, a.2.1.shift 0, a.2.2))).zipIdx.map (fun x => (x.1.2.2, x.1.2.1, x.2)) =
        (xs.zipIdx.map (fun x => (x.1.2.2, x.1.2.1, x.2))).map (fun a => (a.1, a.2.1.shift 0, a.2.2)) := fun xs => by
    rw [List.zipIdx_map, List.map_map, List.map_map]
    rfl
  simp only [numberRules, htexts]
  rw [sort_map (fun a : Clause W × Nat => (a.1.shift 0, a.2)), hplaces,
    sort_map (fun a : Clause W × Nat => (a.1.shift 0, a.2)), List.map_map, List.map_map]
  rfl

theorem foldl_addRule_plain (heads : Std.HashSet String) : ∀ (xs : List (Clause W × Nat))
    {table table' : Std.HashMap String (List (GroundRule W))}, Carries (List.map GroundRule.plain) table table' →
    Carries (List.map GroundRule.plain) (xs.foldl (addRule heads) table)
      ((xs.map (fun x => (x.1.shift 0, x.2))).foldl (addRule heads) table')
  | [],      _, _, h => h
  | x :: xs, _, _, h => by
    refine foldl_addRule_plain heads xs ?_
    have hleaf : (x.1.shift 0).body.all (fun l => !heads.contains l.id) = x.1.body.all (fun l => !heads.contains l.id) := by
      simp only [Clause.body_shift, List.all_map, Function.comp_def, Literal.id_shift]
    have hground : (⟨markInstance x.2 (x.1.shift 0).body, (x.1.shift 0).body.all (fun l => !heads.contains l.id)⟩ :
        GroundRule W) =
        GroundRule.plain ⟨markInstance x.2 x.1.body, x.1.body.all (fun l => !heads.contains l.id)⟩ := by
      rw [hleaf, GroundRule.plain, ← markInstance_plain]
      rfl
    have hd := h.getD x.1.head.id []
    rw [List.map_nil] at hd
    have happend : ∀ (gs : List (GroundRule W)) (g : GroundRule W),
        gs.map GroundRule.plain ++ [g.plain] = (gs ++ [g]).map GroundRule.plain := fun gs g => by
      rw [List.map_append]
      rfl
    rw [addRule, addRule, hground, Clause.head_shift, Literal.id_shift, hd, happend]
    exact h.insert _ _

/-! ## Alternatives -/

omit [Weight W] in
theorem combine_plain (bs cs : List (Body W)) :
    combine (bs.map Body.plain) (cs.map Body.plain) = (combine bs cs).map Body.plain := by
  simp only [combine, List.flatMap_map, List.map_flatMap, List.map_map]
  congr 1
  funext b
  exact List.map_congr_left (fun c _ => (List.map_append ..).symm)

omit [Weight W] in
theorem dropRepeats_map {f : Literal W → Literal W} : ∀ (xs : List (String × Literal W)),
    dropRepeats (xs.map (fun x => (x.1, f x.2))) = (dropRepeats xs).map (fun x => (x.1, f x.2))
  | []             => by simp [dropRepeats]
  | [a]            => by simp [dropRepeats]
  | a :: b :: rest => by
    rw [List.map_cons, List.map_cons, dropRepeats, dropRepeats]
    split
    · exact dropRepeats_map (a :: rest)
    · rw [List.map_cons]
      exact congrArg _ (dropRepeats_map (b :: rest))
termination_by xs => xs.length

theorem canonical_plain (b : Body W) : canonical b.plain = (canonical b).map (fun x => (x.1, x.2.shift 0)) := by
  have hids : b.plain.map (fun l => (l.id, l)) = (b.map (fun l => (l.id, l))).map (fun x => (x.1, x.2.shift 0)) := by
    simp only [Body.plain, List.map_map, Function.comp_def, Literal.id_shift]
  rw [canonical, canonical, hids, sort_map, dropRepeats_map]

theorem distinct_plain : ∀ (seen : List (List String)) (bs : List (Body W)),
    distinct seen (bs.map Body.plain) = (distinct seen bs).map Body.plain
  | _,    []      => rfl
  | seen, b :: bs => by
    have hkey : ((canonical b).map (fun x => (x.1, x.2.shift 0))).map Prod.fst = (canonical b).map Prod.fst := by
      rw [List.map_map]
      rfl
    simp only [List.map_cons, distinct, canonical_plain, hkey]
    split
    · exact distinct_plain seen bs
    · rw [distinct_plain, List.map_cons, Body.plain, List.map_map, List.map_map]
      rfl

theorem isCertainBody_plain (b : Body W) : isCertainBody b.plain = isCertainBody b := by
  simp only [isCertainBody, Body.plain, List.all_map]
  rfl

theorem pruneTo_plain (k : Nat) : ∀ bs : List (Body W), pruneTo k (bs.map Body.plain) = (pruneTo k bs).map Body.plain
  | []      => rfl
  | b :: bs => by
    have hlength : b.plain.length = b.length := List.length_map _
    have hrest : (bs.map Body.plain).filter (fun c => !isCertainBody c) =
        (bs.filter (fun c => !isCertainBody c)).map Body.plain := by
      rw [List.filter_map]
      simp only [Function.comp_def, isCertainBody_plain]
    rw [List.map_cons, pruneTo, pruneTo, isCertainBody_plain, hlength, hrest, pruneTo_plain k bs]
    split
    · split <;> rfl
    · rfl

theorem normalize_plain (prune : Bool) (bs : List (Body W)) :
    normalize prune (bs.map Body.plain) = (normalize prune bs).map Body.plain := by
  have hshortest : ∀ cs : List (Body W), shortestCertain (cs.map Body.plain) = shortestCertain cs := fun cs => by
    have hlength : ∀ b : Body W, b.plain.length = b.length := fun b => List.length_map _
    simp only [shortestCertain, List.filter_map, List.map_map, Function.comp_def, isCertainBody_plain, hlength]
  simp only [normalize, distinct_plain, hshortest]
  split
  · exact pruneTo_plain _ _
  · rfl

/-! ## Expansion -/

def Expansion.plain (x : Expansion W) : Expansion W := { x with bodies := x.bodies.map Body.plain }

/-- The second expansion is the first with all wildcards alike, and so is what is remembered. -/
def Echoes (x x' : Expansion W × Memo W) : Prop := x'.1 = Expansion.plain x.1 ∧ Carries (List.map Body.plain) x.2 x'.2

variable {expand expand' : Literal W → Memo W → Expansion W × Memo W}

/-- Expands every literal with all wildcards alike. -/
def EchoesAll (expand expand' : Literal W → Memo W → Expansion W × Memo W) : Prop :=
  ∀ (l : Literal W) {memo memo' : Memo W}, Carries (List.map Body.plain) memo memo' →
    Echoes (expand l memo) (expand' (l.shift 0) memo')

omit [Weight W] in
theorem expandBody_plain (hex : EchoesAll expand expand') : ∀ (ls : List (Literal W)) (sofar : Expansion W)
    {memo memo' : Memo W}, Carries (List.map Body.plain) memo memo' →
    Echoes (expandBody expand ls sofar memo) (expandBody expand' (ls.map (Literal.shift 0)) sofar.plain memo')
  | [],      _,     _, _, h => ⟨rfl, h⟩
  | l :: ls, sofar, memo, memo', h => by
    obtain ⟨hsub, hmemo⟩ := hex l h
    rw [List.map_cons, expandBody, expandBody]
    generalize expand l memo = x at hsub hmemo
    generalize expand' (l.shift 0) memo' = x' at hsub hmemo
    obtain ⟨sub, memo⟩ := x
    obtain ⟨sub', memo'⟩ := x'
    dsimp only at hsub hmemo ⊢
    subst hsub
    simp only [Expansion.plain, List.isEmpty_map]
    split
    · exact ⟨rfl, hmemo⟩
    · rw [combine_plain]
      exact expandBody_plain hex ls ⟨combine sofar.bodies sub.bodies, minCut sofar.cut sub.cut⟩ hmemo

omit [Weight W] in
theorem expandRules_plain (hex : EchoesAll expand expand') : ∀ (rs : List (GroundRule W)) (sofar : Expansion W)
    {memo memo' : Memo W}, Carries (List.map Body.plain) memo memo' →
    Echoes (expandRules expand rs sofar memo) (expandRules expand' (rs.map GroundRule.plain) sofar.plain memo')
  | [],      _,     _, _, h => ⟨rfl, h⟩
  | r :: rs, sofar, memo, memo', h => by
    rw [List.map_cons, expandRules, expandRules]
    have hleaf : r.plain.leafOnly = r.leafOnly := rfl
    rw [hleaf]
    split
    · have happend : sofar.plain.bodies ++ [r.plain.body] = (sofar.bodies ++ [r.body]).map Body.plain := by
        rw [List.map_append]
        rfl
      rw [happend]
      exact expandRules_plain hex rs { sofar with bodies := sofar.bodies ++ [r.body] } h
    · obtain ⟨hfound, hmemo⟩ := expandBody_plain hex r.body ⟨[[]], sofar.cut⟩ h
      change (expandBody expand' r.plain.body ⟨[[]], sofar.plain.cut⟩ memo').1 = _ at hfound
      change Carries _ _ (expandBody expand' r.plain.body ⟨[[]], sofar.plain.cut⟩ memo').2 at hmemo
      generalize expandBody expand r.body ⟨[[]], sofar.cut⟩ memo = x at hfound hmemo ⊢
      generalize expandBody expand' r.plain.body ⟨[[]], sofar.plain.cut⟩ memo' = x' at hfound hmemo ⊢
      obtain ⟨found, memo⟩ := x
      obtain ⟨found', memo'⟩ := x'
      dsimp only at hfound hmemo ⊢
      subst hfound
      have happend : sofar.plain.bodies ++ found.plain.bodies = (sofar.bodies ++ found.bodies).map Body.plain := by
        rw [List.map_append]
        rfl
      rw [happend]
      exact expandRules_plain hex rs ⟨sofar.bodies ++ found.bodies, found.cut⟩ hmemo

end Prover

/-! ## Provers -/

/-- The second snapshot is the first with all wildcards alike. -/
structure Snapshot.Mirrors (s s' : Snapshot W) : Prop where
  asserted  : s'.asserted = s.asserted
  rules     : s'.rules = s.rules.map (Clause.shift 0)
  ruleKeys  : s'.ruleKeys = s.ruleKeys
  negations : Carries (List.map (Literal.shift 0)) s.negations s'.negations

namespace Prover

/-- The second prover has the rules of the first with all wildcards alike. -/
structure Mirrors (p p' : Prover W) : Prop where
  snapshot : p.snapshot.Mirrors p'.snapshot
  rules    : Carries (List.map GroundRule.plain) p.rules p'.rules
  prune    : p'.prune = p.prune

theorem mirrors_ofSnapshot {s s' : Snapshot W} (h : s.Mirrors s') (prune : Bool) :
    (ofSnapshot s prune).Mirrors (ofSnapshot s' prune) := by
  have hrules : s'.rules.toList = s.rules.toList.map (Clause.shift 0) := by rw [h.rules, Array.toList_map]
  have hheads : s'.rules.toList.map (fun c => c.head.id) = s.rules.toList.map (fun c => c.head.id) := by
    simp only [hrules, List.map_map, Function.comp_def, Clause.head_shift, Literal.id_shift]
  refine ⟨h, ?_, rfl⟩
  simp only [ofSnapshot, hheads]
  rw [hrules, numberRules_shift]
  exact foldl_addRule_plain _ _ (.empty _)

variable {p p' : Prover W}

theorem Mirrors.expandWithin (h : p.Mirrors p') : ∀ (fuel : Nat) (stack : List String),
    EchoesAll (p.expandWithin fuel stack) (p'.expandWithin fuel stack)
  | 0,        _,     l, _, _, hm => ⟨rfl, hm⟩
  | fuel + 1, stack, l, memo, memo', hm => by
    have hasserted : p'.snapshot.isAsserted (l.shift 0) = p.snapshot.isAsserted l := by
      rw [Snapshot.isAsserted, Snapshot.isAsserted, h.snapshot.asserted, Literal.id_shift]
    simp only [Prover.expandWithin, Literal.id_shift, hm l.id, h.rules l.id, hasserted, Option.isNone_map, h.prune]
    cases stack.idxOf? l.id with
    | some depth => exact ⟨rfl, hm⟩
    | none =>
      cases memo[l.id]? with
      | some known => exact ⟨rfl, hm⟩
      | none =>
        have hleaf : (if (p.rules[l.id]?.isNone || p.snapshot.isAsserted l) = true then [[l.shift 0]] else []) =
            (if (p.rules[l.id]?.isNone || p.snapshot.isAsserted l) = true then [[l]] else []).map Body.plain := by
          split <;> rfl
        have hrules : (p.rules[l.id]?.map (List.map GroundRule.plain)).getD [] =
            (p.rules[l.id]?.getD []).map GroundRule.plain := by cases p.rules[l.id]? <;> rfl
        obtain ⟨hfound, hmemo⟩ := expandRules_plain (Mirrors.expandWithin h fuel (stack ++ [l.id])) (p.rules[l.id]?.getD [])
          ⟨if (p.rules[l.id]?.isNone || p.snapshot.isAsserted l) = true then [[l]] else [], none⟩ hm
        simp only [Expansion.plain, ← hleaf, ← hrules] at hfound hmemo
        simp only [Option.map_none]
        generalize expandRules (p.expandWithin fuel (stack ++ [l.id])) (p.rules[l.id]?.getD []) _ memo = x at hfound hmemo ⊢
        generalize expandRules (p'.expandWithin fuel (stack ++ [l.id])) _ _ memo' = x' at hfound hmemo ⊢
        obtain ⟨found, memo⟩ := x
        obtain ⟨found', memo'⟩ := x'
        dsimp only at hfound hmemo ⊢
        subst hfound
        simp only [normalize_plain]
        split
        · exact ⟨rfl, hmemo.insert _ _⟩
        · exact ⟨rfl, hmemo⟩

theorem Mirrors.expand (h : p.Mirrors p') (l : Literal W) : p'.expand (l.shift 0) = (p.expand l).map Body.plain := by
  rw [Prover.expand, Prover.expand, h.rules.size_eq]
  exact congrArg Expansion.bodies (h.expandWithin (p.rules.size + 2) [] l (.empty _)).1

theorem Mirrors.proofs (h : p.Mirrors p') (l : Literal W) : p'.proofs (l.shift 0) = (p.proofs l).map (Clause.shift 0) := by
  rw [Prover.proofs, Prover.proofs, h.expand, List.map_map, List.map_map]
  rfl

theorem distinctClauses_shift : ∀ (seen : Std.HashSet (Nat × String)) (cs : List (Clause W)),
    distinctClauses seen (cs.map (Clause.shift 0)) = (distinctClauses seen cs).map (Clause.shift 0)
  | _,    []      => rfl
  | seen, c :: cs => by
    simp only [List.map_cons, distinctClauses, Clause.key_shift]
    split
    · exact distinctClauses_shift seen cs
    · rw [distinctClauses_shift, List.map_cons]

theorem Mirrors.proofsOf (h : p.Mirrors p') (targets : List (Literal W)) :
    p'.proofsOf (targets.map (Literal.shift 0)) = (p.proofsOf targets).map (Clause.shift 0) := by
  rw [Prover.proofsOf, Prover.proofsOf, ← distinctClauses_shift, List.flatMap_map, List.map_flatMap]
  simp only [h.proofs]

omit [Weight W] in
theorem negationLeaves_shift (cs : List (Clause W)) : ProofSet.negationLeaves (cs.map (Clause.shift 0)) =
    (ProofSet.negationLeaves cs).map (Literal.shift 0) := by
  simp only [ProofSet.negationLeaves, List.flatMap_map, List.map_flatMap, Clause.body_shift, List.filter_map]
  rfl

theorem Mirrors.closeNegations (h : p.Mirrors p') (fuel : Nat) (pending : List (Literal W))
    (known : Std.HashMap String (List (Clause W))) : ∀ known', Carries (List.map (Clause.shift 0)) known known' →
      Carries (List.map (Clause.shift 0)) (p.closeNegations fuel pending known)
        (p'.closeNegations fuel (pending.map (Literal.shift 0)) known') := by
  fun_induction Prover.closeNegations p fuel pending known with
  | case1 fuel known =>
    intro known' hk
    rw [List.map_nil, Prover.closeNegations]
    exact hk
  | case2 fuel known leaf rest hknown ih =>
    intro known' hk
    rw [List.map_cons, Prover.closeNegations.eq_def p']
    simp only [Literal.id_shift, hk.contains, hknown, if_true]
    exact ih known' hk
  | case3 known leaf rest hknown =>
    intro known' hk
    rw [List.map_cons, Prover.closeNegations.eq_def p']
    simp only [Literal.id_shift, hk.contains, hknown]
    exact hk
  | case4 known leaf rest hknown fuel base ih =>
    intro known' hk
    have hbases : p'.snapshot.negationBases (leaf.shift 0) = (p.snapshot.negationBases leaf).map (Literal.shift 0) := by
      have := h.snapshot.negations.getD leaf.id []
      rw [List.map_nil] at this
      rw [Snapshot.negationBases, Snapshot.negationBases, Literal.id_shift, this]
    rw [List.map_cons, Prover.closeNegations.eq_def p']
    simp only [Literal.id_shift, hk.contains, hknown, hbases, h.proofsOf, negationLeaves_shift]
    rw [← List.map_append]
    exact ih _ (hk.insert leaf.id _)

omit [Weight W] in
theorem Mirrors.leafBound (h : p.Mirrors p') (targets : List (Literal W)) :
    p'.leafBound (targets.map (Literal.shift 0)) = p.leafBound targets := by
  have hrules : (p'.snapshot.rules.toList.flatMap Clause.body).length =
      (p.snapshot.rules.toList.flatMap Clause.body).length := by
    rw [h.snapshot.rules, Array.toList_map, List.flatMap_map, List.length_flatMap, List.length_flatMap]
    simp only [Clause.body_shift, List.length_map]
  have hnegations : (p'.snapshot.negations.toList.flatMap Prod.snd).length =
      (p.snapshot.negations.toList.flatMap Prod.snd).length := by
    rw [(h.snapshot.negations.toList_perm.flatMap_right Prod.snd).length_eq, List.flatMap_map, List.length_flatMap,
      List.length_flatMap]
    simp only [List.length_map]
  rw [Prover.leafBound, Prover.leafBound, List.length_map, hrules, hnegations]

end Prover

/-- The second proof set is the first with all wildcards alike. -/
structure ProofSet.Mirrors (s s' : ProofSet W) : Prop where
  proofs    : s'.proofs = s.proofs.map (Clause.shift 0)
  negations : Carries (List.map (Clause.shift 0)) s.negations s'.negations

/-- **Proofs are the same up to wildcards.** -/
theorem Prover.Mirrors.proofSet {p p' : Prover W} (h : p.Mirrors p') (targets : List (Literal W)) :
    (p.proofSet targets).Mirrors (p'.proofSet (targets.map (Literal.shift 0))) := by
  refine ⟨h.proofsOf targets, ?_⟩
  simp only [Prover.proofSet, h.proofsOf, negationLeaves_shift, h.leafBound]
  exact h.closeNegations _ _ _ _ (.empty _)

/-! ## Estimates -/

namespace Compiler

section

variable {negation negation' : Literal W → Compiler W → Handle × Compiler W}

theorem var_shift (c : Compiler W) (l : Literal W) : c.var (l.shift 0) = c.var l := by
  rw [var, var, Literal.id_shift]
  rfl

theorem conjuncts_shift (hn : ∀ l c, negation' (l.shift 0) c = negation l c) : ∀ (b : Body W) (c : Compiler W),
    conjuncts negation' (b.map (Literal.shift 0)) c = conjuncts negation b c
  | [],      _ => rfl
  | l :: ls, c => by
    have hcertain : (l.shift 0).isCertain = l.isCertain := rfl
    simp only [List.map_cons, conjuncts, Literal.isNegated_shift, hcertain, hn, var_shift, conjuncts_shift hn ls]

theorem disjuncts_shift (hn : ∀ l c, negation' (l.shift 0) c = negation l c) : ∀ (ps : List (Clause W)) (c : Compiler W),
    disjuncts negation' (ps.map (Clause.shift 0)) c = disjuncts negation ps c
  | [],      _ => rfl
  | p :: ps, c => by
    simp only [List.map_cons, disjuncts, Clause.body_shift, conjuncts_shift hn, disjuncts_shift hn ps]

theorem disjunction_shift (hn : ∀ l c, negation' (l.shift 0) c = negation l c) (ps : List (Clause W)) (c : Compiler W) :
    disjunction negation' (ps.map (Clause.shift 0)) c = disjunction negation ps c := by
  rw [disjunction, disjunction, disjuncts_shift hn]

end

theorem negation_shift {set set' : ProofSet W} (h : set.Mirrors set') : ∀ (fuel : Nat) (pending : List String) (l : Literal W)
    (c : Compiler W), negation set' fuel pending (l.shift 0) c = negation set fuel pending l c
  | 0,        _,       l, c => var_shift c l
  | fuel + 1, pending, l, c => by
    have hcertain : (l.shift 0).isCertain = l.isCertain := rfl
    have hset : set'.negation? (l.shift 0) = (set.negation? l).map (List.map (Clause.shift 0)) := by
      rw [ProofSet.negation?, ProofSet.negation?, Literal.id_shift, h.negations]
    simp only [negation, Literal.id_shift, hset, hcertain, var_shift]
    cases c.negations[l.id]? with
    | some f => rfl
    | none =>
      cases set.negation? l with
      | none => rfl
      | some base => simp only [Option.map_some, disjunction_shift (negation_shift h fuel (l.id :: pending))]

end Compiler

/-- **A probability is the same in other variables**, whatever wildcards the proofs have. -/
theorem Estimator.probability_shift {n : Nat} {set set' : ProofSet W} (h : set.Mirrors set')
    (hclosed : ∀ p ∈ set.proofs, p.head.isSemiGrounded = true) (settings : Settings) (l : Literal W) (digits : Option Nat) :
    (Estimator.mk set' settings).probability (l.shift n) digits = (Estimator.mk set settings).probability l digits := by
  have hproofs : (Estimator.mk set' settings).proofsFor (l.shift n) =
      ((Estimator.mk set settings).proofsFor l).map (Clause.shift 0) := by
    rw [proofsFor, proofsFor, h.proofs, List.filter_map]
    congr 1
    refine List.filter_congr (fun p hp => ?_)
    rw [Function.comp, Clause.head_shift, Literal.isRelevant_shift, ← Literal.shift_of_semiGrounded (hclosed p hp) n,
      Literal.unify_shift, Option.isSome_map]
  have hcompile : (Estimator.mk set' settings).compile (l.shift n) = (Estimator.mk set settings).compile l := by
    simp only [compile, hproofs, h.negations.size_eq, Compiler.disjunction_shift (Compiler.negation_shift h _ [])]
  simp only [probability, hcompile]

end Credence
