import Credence.Proofs.Expansion
import Credence.Proofs.Saturation
/-!
# Proofs from a table

A prover is made from what a table has established.  Its rules are the completed rules of the table, with their weights
marked by the instance (`ofSnapshot_rule`), and its leaves are what was asserted.  So what it derives from a set of leaves
is what completed rules lead to from there (`Run.Valid.derives_iff`), where the prover knows a rule weight by its instances
and the table by the stated fact.
-/
namespace Credence

variable {W : Type} [Weight W]

/-! ## Provers -/

namespace Prover

/-- A literal in the body of the instance with a number. -/
def mark (n : Nat) (l : Literal W) : Literal W := if isRuleWeight l then l.extend (.const ⟨"r" ++ toString n⟩) else l

omit [Weight W] in
theorem mark_of_not {n : Nat} {l : Literal W} (h : isRuleWeight l = false) : mark n l = l := by simp [mark, h]

theorem mem_numberRules {rules : List (Clause W)} {c : Clause W} : (∃ n, (c, n) ∈ numberRules rules) ↔ c ∈ rules := by
  simp only [numberRules, List.mem_map, List.mem_mergeSort, Prod.exists, Prod.mk.injEq]
  constructor
  · rintro ⟨n, i, c', n', ⟨t, c'', i', m, hm, rfl, rfl, rfl⟩, rfl, rfl⟩
    have h := List.fst_mem_of_mem_zipIdx hm
    simp only [List.mem_mergeSort, List.mem_map, Prod.exists, Prod.mk.injEq] at h
    obtain ⟨c₀, i₀, h₀, -, rfl, rfl⟩ := h
    exact List.fst_mem_of_mem_zipIdx h₀
  · intro h
    have hplace : ∀ {α : Type} {x : α} {l : List α}, x ∈ l → ∃ n, (x, n) ∈ l.zipIdx := by
      intro α x l hx
      obtain ⟨n, hn, e⟩ := List.getElem_of_mem hx
      exact ⟨n, List.mem_zipIdx_iff_getElem?.2 (by rw [List.getElem?_eq_getElem hn, e])⟩
    obtain ⟨i, hi⟩ := hplace h
    exact ⟨_, i, c, _, ⟨_, _, _, _, (hplace (List.mem_mergeSort.2 (List.mem_map_of_mem hi))).choose_spec, rfl, rfl, rfl⟩,
      rfl, rfl⟩

/-- The rule that an instance becomes. -/
def ground (heads : Std.HashSet String) (x : Clause W × Nat) : GroundRule W :=
  ⟨markInstance x.2 x.1.body, x.1.body.all (fun l => !heads.contains l.id)⟩

theorem foldl_addRule (heads : Std.HashSet String) : ∀ (xs : List (Clause W × Nat))
    (table : Std.HashMap String (List (GroundRule W))) (id : String),
    (xs.foldl (addRule heads) table).getD id [] =
        table.getD id [] ++ (xs.filter (fun x => x.1.head.id = id)).map (ground heads) ∧
      ((xs.foldl (addRule heads) table)[id]? = none ↔ table[id]? = none ∧ ∀ x ∈ xs, x.1.head.id ≠ id)
  | [],      table, id => by simp
  | x :: xs, table, id => by
    obtain ⟨ih1, ih2⟩ := foldl_addRule heads xs (addRule heads table x) id
    have hadd : addRule heads table x = table.insert x.1.head.id (table.getD x.1.head.id [] ++ [ground heads x]) := rfl
    rw [List.foldl_cons, ih1, ih2, hadd, Std.HashMap.getD_insert, Std.HashMap.getElem?_insert]
    by_cases e : x.1.head.id = id
    · subst e
      simp
    · simp [e]

variable (s : Snapshot W) (prune : Bool)

/-- **The rules of a prover are the marked instances of its snapshot's.** -/
theorem ofSnapshot_rule {id : String} {body : Body W} : (ofSnapshot s prune).Rule id body ↔
    ∃ c n, (c, n) ∈ numberRules s.rules.toList ∧ c.head.id = id ∧ body = c.body.map (mark n) := by
  let heads : Std.HashSet String := Std.HashSet.ofList (s.rules.toList.map (fun c => c.head.id))
  obtain ⟨h1, h2⟩ := foldl_addRule heads (numberRules s.rules.toList) ∅ id
  have hrules : (ofSnapshot s prune).rules = (numberRules s.rules.toList).foldl (addRule heads) ∅ := rfl
  simp only [Std.HashMap.getD_empty, List.nil_append] at h1
  unfold Rule
  rw [hrules]
  constructor
  · rintro ⟨rs, hrs, r, hr, rfl⟩
    rw [Std.HashMap.getD_eq_getD_getElem?, hrs, Option.getD_some] at h1
    rw [h1] at hr
    obtain ⟨x, hx, rfl⟩ := List.mem_map.1 hr
    obtain ⟨hx, e⟩ := List.mem_filter.1 hx
    exact ⟨x.1, x.2, hx, of_decide_eq_true e, rfl⟩
  · rintro ⟨c, n, hx, e, rfl⟩
    cases hrs : ((numberRules s.rules.toList).foldl (addRule heads) ∅)[id]? with
    | none => exact absurd e ((h2.1 hrs).2 (c, n) hx)
    | some rs =>
      rw [Std.HashMap.getD_eq_getD_getElem?, hrs, Option.getD_some] at h1
      refine ⟨rs, rfl, ground heads (c, n), ?_, rfl⟩
      rw [h1]
      exact List.mem_map_of_mem (List.mem_filter.2 ⟨hx, decide_eq_true e⟩)

theorem ofSnapshot_none {id : String} : (ofSnapshot s prune).rules[id]? = none ↔ ∀ c ∈ s.rules, c.head.id ≠ id := by
  let heads : Std.HashSet String := Std.HashSet.ofList (s.rules.toList.map (fun c => c.head.id))
  have h2 := (foldl_addRule heads (numberRules s.rules.toList) ∅ id).2
  have hrules : (ofSnapshot s prune).rules = (numberRules s.rules.toList).foldl (addRule heads) ∅ := rfl
  rw [hrules, h2]
  simp only [Std.HashMap.getElem?_empty, true_and]
  constructor
  · intro h c hc
    obtain ⟨n, hn⟩ := mem_numberRules.2 (Array.mem_toList_iff.2 hc)
    exact h (c, n) hn
  · intro h x hx
    exact h x.1 (Array.mem_toList_iff.1 (mem_numberRules.1 ⟨x.2, hx⟩))

/-- Marks are right when no marked weight is the head of a rule. -/
theorem ofSnapshot_sound (h : ∀ c ∈ s.rules, ∀ l ∈ c.body, isRuleWeight l = true → ∀ n, ∀ d ∈ s.rules,
    d.head.id ≠ (mark n l).id) : (ofSnapshot s prune).Sound := by
  let heads : Std.HashSet String := Std.HashSet.ofList (s.rules.toList.map (fun c => c.head.id))
  intro id rs hrs r hr hleaf m hm
  have h1 := (foldl_addRule heads (numberRules s.rules.toList) ∅ id).1
  have hrules : (ofSnapshot s prune).rules = (numberRules s.rules.toList).foldl (addRule heads) ∅ := rfl
  rw [hrules] at hrs
  rw [Std.HashMap.getD_eq_getD_getElem?, hrs, Option.getD_some, Std.HashMap.getD_empty, List.nil_append] at h1
  rw [h1] at hr
  obtain ⟨⟨c, n⟩, hx, rfl⟩ := List.mem_map.1 hr
  have hc : c ∈ s.rules := Array.mem_toList_iff.1 (mem_numberRules.1 ⟨n, (List.mem_filter.1 hx).1⟩)
  obtain ⟨l, hl, rfl⟩ := List.mem_map.1 hm
  rw [ofSnapshot_none]
  intro d hd
  cases hw : isRuleWeight l with
  | true =>
    have := h c hc l hl hw n d hd
    simpa [mark, hw] using this
  | false =>
    have hno := List.all_eq_true.1 hleaf l hl
    rw [if_neg (by simp)]
    intro e
    rw [Bool.not_eq_true', ← Bool.not_eq_true, Std.HashSet.contains_ofList, List.contains_iff_mem] at hno
    exact hno (List.mem_map.2 ⟨d, Array.mem_toList_iff.2 hd, e⟩)

end Prover

/-! ## Tables -/

namespace Snapshot

theorem foldl_addNegation : ∀ (xs : List (String × Literal W × List (Literal W))) (s : Snapshot W),
    let s' := xs.foldl (fun s x => s.addNegation x.2.1 x.2.2) s
    s'.asserted = s.asserted ∧ s'.rules = s.rules ∧ s'.ruleKeys = s.ruleKeys ∧
      ((∀ x ∈ xs, x.2.1.id = x.1) → xs.Pairwise (fun x y => x.1 ≠ y.1) → ∀ k,
        (∀ v, (k, v) ∈ xs → s'.negations[k]? = some v.2) ∧ ((∀ v, (k, v) ∉ xs) → s'.negations[k]? = s.negations[k]?))
  | [],      s => by simp
  | x :: xs, s => by
    obtain ⟨h1, h2, h3, h4⟩ := foldl_addNegation xs (s.addNegation x.2.1 x.2.2)
    refine ⟨h1, h2, h3, fun hid hnodup k => ?_⟩
    obtain ⟨hx, hrest⟩ := List.forall_mem_cons.1 hid
    obtain ⟨hfirst, hnodup⟩ := List.pairwise_cons.1 hnodup
    obtain ⟨h5, h6⟩ := h4 hrest hnodup k
    have hget : (s.addNegation x.2.1 x.2.2).negations[k]? = if x.1 = k then some x.2.2 else s.negations[k]? := by
      rw [addNegation, Std.HashMap.getElem?_insert, hx]
      simp
    refine ⟨fun v hv => ?_, fun hno => ?_⟩
    · rcases List.mem_cons.1 hv with e | hv
      · subst e
        have hout : ∀ w, (k, w) ∉ xs := fun w hw => hfirst _ hw rfl
        exact (h6 hout).trans (by simpa using hget)
      · exact h5 v hv
    · have hk : x.1 ≠ k := fun e => hno x.2 (by rw [← e]; exact List.mem_cons_self)
      exact (h6 (fun v hv => hno v (List.mem_cons_of_mem _ hv))).trans (by rw [hget, if_neg hk])

theorem foldl_addFact (g : Subgoal W) : ∀ (fs : List (Clause W)) (s : Snapshot W),
    let s' := fs.foldl (fun s f => s.addFact f.head (if g.isAsserted f.head then .asserted else .derived)) s
    (∀ id, s'.asserted.contains id = true ↔
      s.asserted.contains id = true ∨ ∃ f ∈ fs, f.head.id = id ∧ g.asserted.contains id = true) ∧
      s'.rules = s.rules ∧ s'.ruleKeys = s.ruleKeys ∧ s'.negations = s.negations
  | [],      s => by simp
  | f :: fs, s => by
    obtain ⟨ih1, ih2⟩ := foldl_addFact g fs (s.addFact f.head (if g.isAsserted f.head then .asserted else .derived))
    refine ⟨fun id => (ih1 id).trans ?_, ih2⟩
    simp only [List.mem_cons, exists_eq_or_imp, ← or_assoc]
    refine or_congr_left ?_
    cases ha : g.asserted.contains f.head.id with
    | true =>
      have : g.isAsserted f.head = true := ha
      simp only [addFact, this, if_true, Std.HashSet.contains_insert, Bool.or_eq_true, beq_iff_eq]
      constructor
      · rintro (rfl | h)
        · exact .inr ⟨rfl, ha⟩
        · exact .inl h
      · rintro (h | ⟨rfl, -⟩)
        · exact .inr h
        · exact .inl rfl
    | false =>
      have : g.isAsserted f.head = false := ha
      simp only [addFact, this, Bool.false_eq_true, if_false, reduceCtorEq, iff_self_or]
      rintro ⟨rfl, h⟩
      rw [ha] at h
      cases h

/-- The rules of a snapshot are those it was given, one of each key. -/
structure Collects (s : Snapshot W) (rule : Clause W → Prop) : Prop where
  keys  : ∀ k, s.ruleKeys.contains k = true ↔ ∃ c ∈ s.rules, c.key = k
  given : ∀ c ∈ s.rules, rule c
  found : ∀ c, rule c → ∃ c' ∈ s.rules, c'.key = c.key

theorem Collects.addRule {s : Snapshot W} {rule : Clause W → Prop} (h : s.Collects rule) (c : Clause W) :
    (s.addRule c).Collects (fun d => rule d ∨ d = c) := by
  unfold Snapshot.addRule
  split
  · rename_i hc
    obtain ⟨c', hc', e⟩ := (h.keys c.key).1 hc
    refine ⟨h.keys, fun d hd => .inl (h.given d hd), fun d hd => ?_⟩
    rcases hd with hd | rfl
    · exact h.found d hd
    · exact ⟨c', hc', e⟩
  · refine ⟨fun k => ?_, fun d hd => ?_, fun d hd => ?_⟩
    · simp only [Std.HashSet.contains_insert, Bool.or_eq_true, beq_iff_eq, h.keys, Array.mem_push]
      constructor
      · rintro (rfl | ⟨d, hd, e⟩)
        · exact ⟨c, .inr rfl, rfl⟩
        · exact ⟨d, .inl hd, e⟩
      · rintro ⟨d, hd | rfl, e⟩
        · exact .inr ⟨d, hd, e⟩
        · exact .inl e
    · exact (Array.mem_push.1 hd).imp_left (h.given d)
    · rcases hd with hd | rfl
      · obtain ⟨c', hc', e⟩ := h.found d hd
        exact ⟨c', Array.mem_push.2 (.inl hc'), e⟩
      · exact ⟨d, Array.mem_push.2 (.inr rfl), rfl⟩

theorem addRule_asserted (s : Snapshot W) (c : Clause W) :
    (s.addRule c).asserted = s.asserted ∧ (s.addRule c).negations = s.negations := by
  unfold Snapshot.addRule
  split
  · exact ⟨rfl, rfl⟩
  · exact ⟨rfl, rfl⟩

theorem Collects.foldl {rule : Clause W → Prop} : ∀ (cs : List (Clause W)) {s : Snapshot W}, s.Collects rule →
    (cs.foldl Snapshot.addRule s).Collects (fun d => rule d ∨ d ∈ cs) ∧
      (cs.foldl Snapshot.addRule s).asserted = s.asserted ∧ (cs.foldl Snapshot.addRule s).negations = s.negations
  | [],      s, h => by simpa using h
  | c :: cs, s, h => by
    obtain ⟨ih, e1, e2⟩ := Collects.foldl cs (h.addRule c)
    obtain ⟨e3, e4⟩ := addRule_asserted s c
    simp only [or_assoc] at ih
    simp only [List.mem_cons]
    exact ⟨ih, e1.trans e3, e2.trans e4⟩

end Snapshot

namespace Table

theorem addGoal_spec {rule : Clause W → Prop} {s : Snapshot W} (h : s.Collects rule) (g : Subgoal W) :
    (addGoal s g).Collects (fun c => rule c ∨ c ∈ g.grounded) ∧ (addGoal s g).negations = s.negations ∧
      ∀ id, (addGoal s g).asserted.contains id = true ↔
        s.asserted.contains id = true ∨ ∃ f ∈ g.facts, f.head.id = id ∧ g.asserted.contains id = true := by
  obtain ⟨h1, h2, h3, h4⟩ := Snapshot.foldl_addFact g g.facts s
  generalize hs' : g.facts.foldl (fun s f => s.addFact f.head (if g.isAsserted f.head then .asserted else .derived)) s = s'
    at h1 h2 h3 h4
  have hc : s'.Collects rule := ⟨by rw [h2, h3]; exact h.keys, by rw [h2]; exact h.given, by rw [h2]; exact h.found⟩
  have hadd : addGoal s g = g.grounded.toList.foldl Snapshot.addRule s' := by
    rw [addGoal, hs', ← Array.foldl_toList]
  obtain ⟨h5, h6, h7⟩ := hc.foldl g.grounded.toList
  rw [hadd]
  exact ⟨by simpa using h5, h7.trans h4, fun id => by rw [h6]; exact h1 id⟩

theorem foldl_addGoal {rule : Clause W → Prop} : ∀ (gs : List (Subgoal W)) {s : Snapshot W}, s.Collects rule →
    (gs.foldl addGoal s).Collects (fun c => rule c ∨ ∃ g ∈ gs, c ∈ g.grounded) ∧
      (gs.foldl addGoal s).negations = s.negations ∧
      ∀ id, (gs.foldl addGoal s).asserted.contains id = true ↔ s.asserted.contains id = true ∨
        ∃ g ∈ gs, ∃ f ∈ g.facts, f.head.id = id ∧ g.asserted.contains id = true
  | [],      s, h => by simpa using h
  | g :: gs, s, h => by
    obtain ⟨h1, h2, h3⟩ := addGoal_spec h g
    obtain ⟨ih1, ih2, ih3⟩ := foldl_addGoal gs h1
    simp only [List.foldl_cons, List.mem_cons, exists_eq_or_imp, ← or_assoc]
    refine ⟨ih1, ih2.trans h2, fun id => ?_⟩
    rw [ih3, h3]

variable (t : Table W)

omit [Weight W] in
theorem mem_goals {g : Subgoal W} : g ∈ t.goals.toList ↔ ∃ i, t.goal? i = some g := by
  simp only [goal?, List.mem_iff_getElem?, Array.getElem?_toList]

/-- **The snapshot of a table.** -/
theorem snapshot_spec : t.snapshot.Collects t.Completed ∧
    (∀ id, t.snapshot.asserted.contains id = true ↔
      ∃ i g, t.goal? i = some g ∧ ∃ f ∈ g.facts, f.head.id = id ∧ g.asserted.contains id = true) ∧
    ((∀ (k : String) (v : Literal W × List (Literal W)), t.negations[k]? = some v → v.1.id = k) →
      ∀ k : String, t.snapshot.negations[k]? = t.negations[k]?.map Prod.snd) := by
  have hempty : (Snapshot.empty : Snapshot W).Collects (fun _ => False) := by
    refine ⟨fun k => ?_, fun c hc => ?_, fun c hc => hc.elim⟩
    · simp [Snapshot.empty]
    · simp [Snapshot.empty] at hc
  obtain ⟨h1, h2, h3⟩ := foldl_addGoal t.goals.toList hempty
  obtain ⟨e1, e2, e3, e4⟩ := Snapshot.foldl_addNegation t.negations.toList (t.goals.toList.foldl addGoal Snapshot.empty)
  have hsnap : t.snapshot = t.negations.toList.foldl (fun s x => s.addNegation x.2.1 x.2.2)
      (t.goals.toList.foldl addGoal Snapshot.empty) := by
    rw [snapshot, ← Array.foldl_toList]
  have hcomp : ∀ c, t.Completed c ↔ False ∨ ∃ g ∈ t.goals.toList, c ∈ g.grounded := by
    intro c
    rw [false_or]
    constructor
    · rintro ⟨i, g, hi, hc⟩
      exact ⟨g, t.mem_goals.2 ⟨i, hi⟩, hc⟩
    · rintro ⟨g, hg, hc⟩
      obtain ⟨i, hi⟩ := t.mem_goals.1 hg
      exact ⟨i, g, hi, hc⟩
  rw [hsnap]
  refine ⟨⟨?_, ?_, ?_⟩, fun id => ?_, fun hid k => ?_⟩
  · rw [e2, e3]
    exact h1.keys
  · rw [e2]
    exact fun c hc => (hcomp c).2 (h1.given c hc)
  · rw [e2]
    exact fun c hc => h1.found c ((hcomp c).1 hc)
  · rw [e1, h3]
    simp only [Snapshot.empty, Std.HashSet.contains_empty, Bool.false_eq_true, false_or]
    constructor
    · rintro ⟨g, hg, hf⟩
      obtain ⟨i, hi⟩ := t.mem_goals.1 hg
      exact ⟨i, g, hi, hf⟩
    · rintro ⟨i, g, hi, hf⟩
      exact ⟨g, t.mem_goals.2 ⟨i, hi⟩, hf⟩
  · have hmem : ∀ {x : String × Literal W × List (Literal W)}, x ∈ t.negations.toList ↔ t.negations[x.1]? = some x.2 :=
      Std.HashMap.mem_toList_iff_getElem?_eq_some
    have hpair : t.negations.toList.Pairwise (fun x y => x.1 ≠ y.1) := by
      simpa using Std.HashMap.distinct_keys_toList (m := t.negations)
    obtain ⟨e5, e6⟩ := e4 (fun x hx => hid _ _ (hmem.1 hx)) hpair k
    cases hk : t.negations[k]? with
    | some v => exact e5 v (hmem.2 hk)
    | none =>
      refine (e6 (fun v hv => ?_)).trans ?_
      · rw [hmem, hk] at hv
        cases hv
      · rw [h2]
        simp [Snapshot.empty]

end Table

/-! ## Runs -/

/-- Whether a literal is a rule weight can be told from its id. -/
theorem Prover.isRuleWeight_of_id_eq {l m : Literal W} (hl : l.isPlain = true) (hm : m.isPlain = true) (h : l.id = m.id) :
    isRuleWeight l = isRuleWeight m := by
  have hf := (Literal.id_eq_iff hl hm).1 h
  simp only [Literal.form, Prod.mk.injEq] at hf
  rw [isRuleWeight, isRuleWeight, Literal.isNegated_of_id_eq hl hm h, hf.2.1]

omit [Weight W] in
/-- The instance of a plain literal is plain. -/
theorem Prover.isPlain_mark {l : Literal W} (hl : l.isPlain = true) (n : Nat) :
    (mark n l).isPlain = true ∧ isRuleWeight (mark n l) = isRuleWeight l := by
  cases hw : isRuleWeight l with
  | false =>
    rw [mark_of_not hw]
    exact ⟨hl, hw⟩
  | true =>
    have hmark : mark n l = l.extend (.const ⟨"r" ++ toString n⟩) := by simp [mark, hw]
    have hconst : Constant.isPlain ⟨"r" ++ toString n⟩ = true := by
      have hlist : ("r" ++ toString n).toList = 'r' :: (toString n).toList := by simp [String.toList_append]
      have hdigits : (toString n).toList.all (fun x => Constant.isWordChar x || x == '.') = true := by
        refine List.all_eq_true.2 (fun c hc => ?_)
        simp [Constant.isWordChar, Char.isAlphanum, Text.isDigit_of_mem_toString hc]
      simp only [Constant.isPlain, hlist, List.all_cons, hdigits, Bool.and_true, List.head?_cons, List.isEmpty_cons]
      decide
    rw [hmark]
    refine ⟨?_, hw⟩
    have hname : l.predicate.isPlain = true := Literal.isPlain.predicate hl
    have hp : (l.extend (.const ⟨"r" ++ toString n⟩)).predicate.isPlain = true := hname
    simp only [Literal.isPlain, hp, Bool.true_and, Bool.and_eq_true, Literal.isWellFormed]
    refine ⟨by simp [Literal.extend], ?_⟩
    simp only [Literal.extend, List.all_append, List.all_cons, List.all_nil, Bool.and_true, Bool.and_eq_true]
    exact ⟨List.all_eq_true.2 (Literal.isPlain.terms hl), hconst⟩

namespace Run

/-- The prover for what a run has established. -/
def prover (r : Run W) (prune : Bool) : Prover W := Prover.ofSnapshot r.table.snapshot prune

variable {V : Vocabulary W} {kb : KnowledgeBase W} {r : Run W} {prune : Bool}

theorem Valid.completed_isPlain (hv : r.Valid V kb) {c : Clause W} (hc : r.table.Completed c) :
    c.head.isPlain = true ∧ ∀ l ∈ c.body, r.table.Resolved V l := by
  obtain ⟨i, g, hi, hg⟩ := hc
  have hinst := (hv.goal i g hi).grounded c hg
  exact ⟨hinst.literal.isPlain, hinst.body⟩

/-- A resolved literal is founded. -/
theorem Valid.founded_of_resolved (hv : r.Valid V kb) {l : Literal W} (hl : r.table.Resolved V l) :
    r.table.Founded l.id := by
  obtain ⟨f, ⟨i, g, hi, hf⟩, e⟩ := hl.known
  exact e ▸ (hv.goal i g hi).founded f hf

theorem Valid.isAsserted_iff (hv : r.Valid V kb) (id : String) :
    (r.prover prune).snapshot.asserted.contains id = true ↔ r.table.Asserts id := by
  refine (r.table.snapshot_spec.2.1 id).trans ⟨?_, ?_⟩
  · rintro ⟨i, g, hi, -, -, -, h⟩
    exact ⟨i, g, hi, h⟩
  · rintro ⟨i, g, hi, h⟩
    obtain ⟨f, hf, e, -⟩ := (hv.goal i g hi).asserted id h
    exact ⟨i, g, hi, f, hf, e, h⟩

theorem prover_none {id : String} (h : (r.prover prune).rules[id]? = none) {c : Clause W}
    (hc : c ∈ r.table.snapshot.rules) : c.head.id ≠ id := (Prover.ofSnapshot_none _ _).1 h c hc

theorem Valid.negationBases_eq (hv : r.Valid V kb) (l : Literal W) :
    (r.prover prune).snapshot.negationBases l = (r.table.negations[l.id]?.map Prod.snd).getD [] := by
  have h := r.table.snapshot_spec.2.2 (fun k v hk => (hv.negations k v hk).1) l.id
  rw [← h]
  exact Std.HashMap.getD_eq_getD_getElem?

/-- No head of a completed rule is a rule weight. -/
def Unweighted (r : Run W) : Prop := ∀ c, r.table.Completed c → Prover.isRuleWeight c.head = false

variable [LawfulWeight W]

/-- A completed rule is a rule of the snapshot, up to its key. -/
theorem Valid.exists_rule (hv : r.Valid V kb) {c : Clause W} (hc : r.table.Completed c) :
    ∃ c' n, (c', n) ∈ Prover.numberRules r.table.snapshot.rules.toList ∧ c'.head = c.head ∧
      c'.body.map Literal.id = c.body.map Literal.id ∧ r.table.Completed c' := by
  obtain ⟨c', hc', hk⟩ := r.table.snapshot_spec.1.found c hc
  have hcomp := r.table.snapshot_spec.1.given c' hc'
  obtain ⟨i, g, hi, hg⟩ := hc
  obtain ⟨i', g', hi', hg'⟩ := hcomp
  obtain ⟨e1, e2⟩ := ((hv.goal i' g' hi').grounded c' hg').eq_of_key ((hv.goal i g hi).grounded c hg) hk
  obtain ⟨n, hn⟩ := Prover.mem_numberRules.2 (Array.mem_toList_iff.2 hc')
  exact ⟨c', n, hn, e1, e2, i', g', hi', hg'⟩

/-- An id without rules in the prover is no head of a completed rule, so it is asserted if it is founded. -/
theorem Valid.asserts_of_none (hv : r.Valid V kb) {id : String} (hnone : (r.prover prune).rules[id]? = none)
    (hf : r.table.Founded id) : r.table.Asserts id := by
  cases hf with
  | leaf h => exact h
  | rule hc _ =>
    obtain ⟨c', n, hn, e, -⟩ := hv.exists_rule hc
    have hmem := Array.mem_toList_iff.1 (Prover.mem_numberRules.1 ⟨n, hn⟩)
    exact absurd (by rw [e]) (prover_none hnone hmem)

omit [LawfulWeight W] in
/-- A rule weight has no rules, marked or not. -/
theorem Valid.none_of_isRuleWeight (hv : r.Valid V kb) (hu : r.Unweighted) {l : Literal W} (hl : l.isPlain = true)
    (hw : Prover.isRuleWeight l = true) : (r.prover prune).rules[l.id]? = none := by
  refine (Prover.ofSnapshot_none _ _).2 (fun d hd e => ?_)
  have hcomp := r.table.snapshot_spec.1.given d hd
  have h := Prover.isRuleWeight_of_id_eq (hv.completed_isPlain hcomp).1 hl e
  rw [hu d hcomp, hw] at h
  cases h

/-- **What a prover derives from a set of leaves is what completed rules lead to from there**, with `S` for the leaves of
the prover and `S'` for those of the table: they differ where a rule weight is known by its instance. -/
theorem Valid.derives_iff (hv : r.Valid V kb) (hu : r.Unweighted) {S S' : String → Prop}
    (hS : ∀ l : Literal W, r.table.Resolved V l → Prover.isRuleWeight l = false → (S l.id ↔ S' l.id))
    (hmark : ∀ c n, (c, n) ∈ Prover.numberRules r.table.snapshot.rules.toList → ∀ l ∈ c.body,
      Prover.isRuleWeight l = true → (S (Prover.mark n l).id ↔ S' l.id))
    {l : Literal W} (hl : r.table.Resolved V l) (hw : Prover.isRuleWeight l = false) :
    (r.prover prune).Derives S [] l.id ↔ Supported r.table.Completed (fun i => S' i ∧ r.table.Asserts i) l.id := by
  generalize hid : l.id = id
  constructor
  · intro h
    induction h generalizing l with
    | leaf _ hleaf hs =>
      subst hid
      refine .leaf ⟨(hS l hl hw).1 hs, ?_⟩
      rcases hleaf with hnone | ha
      · exact hv.asserts_of_none hnone (hv.founded_of_resolved hl)
      · exact (hv.isAsserted_iff _).1 ha
    | rule _ hr hd ih =>
      obtain ⟨c, n, hn, rfl, rfl⟩ := (Prover.ofSnapshot_rule _ _).1 hr
      have hc := r.table.snapshot_spec.1.given c (Array.mem_toList_iff.1 (Prover.mem_numberRules.1 ⟨n, hn⟩))
      refine .rule hc (fun m hm => ?_)
      have hres := (hv.completed_isPlain hc).2 m hm
      have hmem := List.mem_map_of_mem (f := Prover.mark n) hm
      cases hmw : Prover.isRuleWeight m with
      | false =>
        rw [Prover.mark_of_not hmw] at hmem
        exact ih m hmem hres hmw rfl
      | true =>
        -- a rule weight is a leaf, and it is there when its instance is
        obtain ⟨hpl, hwm⟩ := Prover.isPlain_mark hres.literal.isPlain n
        have hs := Prover.derives_iff_of_none (hv.none_of_isRuleWeight hu hpl (hwm.trans hmw)) (hd _ hmem)
        have hnone : (r.prover prune).rules[m.id]? = none := hv.none_of_isRuleWeight hu hres.literal.isPlain hmw
        exact .leaf ⟨(hmark c n hn m hm hmw).1 hs, hv.asserts_of_none hnone (hv.founded_of_resolved hres)⟩
  · intro h
    induction h generalizing l with
    | leaf hleaf =>
      subst hid
      exact .leaf List.not_mem_nil (.inr ((hv.isAsserted_iff _).2 hleaf.2)) ((hS l hl hw).2 hleaf.1)
    | @rule c hc hd ih =>
      obtain ⟨c', n, hn, hhead, hids, hc'⟩ := hv.exists_rule hc
      rw [← hhead]
      refine .rule List.not_mem_nil ((Prover.ofSnapshot_rule _ _).2 ⟨c', n, hn, rfl, rfl⟩) (fun x hx => ?_)
      obtain ⟨m', hm', rfl⟩ := List.mem_map.1 hx
      obtain ⟨m, hm, e⟩ := List.mem_map.1 (hids ▸ List.mem_map_of_mem hm' : m'.id ∈ c.body.map Literal.id)
      have hres := (hv.completed_isPlain hc).2 m hm
      have hres' := (hv.completed_isPlain hc').2 m' hm'
      have hsame := Prover.isRuleWeight_of_id_eq hres.literal.isPlain hres'.literal.isPlain e
      cases hmw : Prover.isRuleWeight m' with
      | false =>
        rw [Prover.mark_of_not hmw, ← e]
        exact ih m hm hres (hsame.trans hmw) rfl
      | true =>
        obtain ⟨hpl, hwm⟩ := Prover.isPlain_mark hres'.literal.isPlain n
        refine .leaf List.not_mem_nil (.inl (hv.none_of_isRuleWeight hu hpl (hwm.trans hmw)))
          ((hmark c' n hn m' hm' hmw).2 ?_)
        have hleaf := hd m hm
        generalize hmid : m.id = id at hleaf e
        cases hleaf with
        | leaf hleaf => exact e ▸ hleaf.1
        | @rule d hd' _ =>
          -- a rule weight heads no rule
          have := Prover.isRuleWeight_of_id_eq (hv.completed_isPlain hd').1 hres'.literal.isPlain e
          rw [hu d hd', hmw] at this
          cases this

omit [LawfulWeight W] in
/-- The marks of a prover are right. -/
theorem Valid.prover_sound (hv : r.Valid V kb) (hu : r.Unweighted) : (r.prover prune).Sound := by
  refine Prover.ofSnapshot_sound _ _ (fun c hc l hl hw n d hd => ?_)
  have hres := (hv.completed_isPlain (r.table.snapshot_spec.1.given c hc)).2 l hl
  obtain ⟨hpl, hwm⟩ := Prover.isPlain_mark hres.literal.isPlain n
  have hnone : (r.prover false).rules[(Prover.mark n l).id]? = none := hv.none_of_isRuleWeight hu hpl (hwm.trans hw)
  exact prover_none hnone hd

end Run
end Credence
