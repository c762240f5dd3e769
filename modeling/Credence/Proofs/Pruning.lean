import Credence.Proofs.Closing
import Credence.Proofs.Doubles
import Credence.Proofs.Estimation
/-!
# Proofs that are certain

Of the alternatives made of certain literals a pruning prover keeps one.  Wherever certain literals are true its proofs
say what all proofs say, at every level of an expansion (`Prunes`), so also when they are collected from several targets
(`Written.prunes`) and behind every negation.  A negation that is certain has nothing to stand against, so it is true.
Hence the estimate of a literal is the same function of the ids, and the same number, whether or not proofs are pruned
(`Estimator.compile_prune`).
-/
namespace Credence

variable {W : Type} [Weight W]

/-! ## Heads -/

omit [Weight W] in
theorem Term.value?_of_idTerm {t u : Term} (ht : t.isPlain = true) (hu : u.isPlain = true)
    (htc : (t.isConst || t.isWildcard) = true) (h : Literal.idTerm t = Literal.idTerm u) :
    (u.isConst || u.isWildcard) = true ∧ ∀ ν, t.value? ν = u.value? ν := by
  cases t with
  | const c =>
    rw [Literal.const_of_idTerm_eq ht h]
    exact ⟨rfl, fun _ => rfl⟩
  | var v =>
    cases u with
    | const d => cases Literal.const_of_idTerm_eq hu h.symm
    | var w =>
      have hv : v.wildcard = true := htc
      cases hw : w.wildcard with
      | true => exact ⟨hw, fun ν => by rw [Term.value?_wildcard hv, Term.value?_wildcard hw]⟩
      | false =>
        have h' := congrArg String.toList h
        simp [Literal.idTerm, hv, hw, String.toList_append] at h'

omit [Weight W] in
/-- Terms that print alike take the same values, where the first ones are constants and wildcards. -/
theorem agreeAll_of_idTerm (ν : Valuation) : ∀ (as : List Term) {ts us : List Term}, (∀ t ∈ ts, t.isPlain = true) →
    (∀ u ∈ us, u.isPlain = true) → (∀ t ∈ ts, (t.isConst || t.isWildcard) = true) →
    ts.map Literal.idTerm = us.map Literal.idTerm →
    (∀ u ∈ us, (u.isConst || u.isWildcard) = true) ∧ (AgreeAll ν as ts ↔ AgreeAll ν as us)
  | _,       [],      [],      _,  _,  _,  _ => ⟨(fun _ h => nomatch h), Iff.rfl⟩
  | as,      t :: ts, u :: us, ht, hu, hc, h => by
    obtain ⟨ht, hts⟩ := List.forall_mem_cons.1 ht
    obtain ⟨hu, hus⟩ := List.forall_mem_cons.1 hu
    obtain ⟨hc, hcs⟩ := List.forall_mem_cons.1 hc
    obtain ⟨h1, h2⟩ := List.cons.inj h
    obtain ⟨hcu, hval⟩ := Term.value?_of_idTerm ht hu hc h1
    cases as with
    | nil => exact ⟨List.forall_mem_cons.2 ⟨hcu, (agreeAll_of_idTerm ν [] hts hus hcs h2).1⟩, by simp [AgreeAll]⟩
    | cons a as =>
      obtain ⟨ih1, ih2⟩ := agreeAll_of_idTerm ν as hts hus hcs h2
      refine ⟨List.forall_mem_cons.2 ⟨hcu, ih1⟩, ?_⟩
      rw [agreeAll_cons, agreeAll_cons, ih2, hval ν]

namespace Literal

variable {l t u : Literal W}

theorem predicate_eq_of_form (ht : t.isPlain = true) (hu : u.isPlain = true) (h : t.form = u.form) :
    t.predicate = u.predicate := by
  simp only [form, Prod.mk.injEq] at h
  have harity : t.predicate.arity = u.predicate.arity := by
    rw [← isWellFormed_iff.1 (isPlain.wellFormed ht), ← isWellFormed_iff.1 (isPlain.wellFormed hu)]
    simpa using congrArg List.length h.2.2
  have hname : t.predicate.name = u.predicate.name := h.2.1
  cases hp : t.predicate
  cases hq : u.predicate
  simp_all

/-- Closed literals that print alike meet the same literals. -/
theorem unify_of_form (ht : Prover.Closed t) (hu : u.isPlain = true) (h : t.form = u.form) (l : Literal W) :
    (l.unify t).isSome = (l.unify u).isSome := by
  have hterms : t.terms.map idTerm = u.terms.map idTerm := congrArg (fun f => f.2.2) h
  rw [Bool.eq_iff_iff, unify_isSome_iff, unify_isSome_iff, predicate_eq_of_form ht.1 hu h]
  refine and_congr_right (fun _ => exists_congr (fun ν => ?_))
  exact (agreeAll_of_idTerm ν l.terms (isPlain.terms ht.1) (isPlain.terms hu) (List.all_eq_true.1 ht.2) hterms).2

/-- What has the id of a closed literal is closed. -/
theorem closed_of_id (ht : Prover.Closed t) (hu : u.isPlain = true) (h : t.id = u.id) : Prover.Closed u := by
  have hterms : t.terms.map idTerm = u.terms.map idTerm := congrArg (fun f => f.2.2) ((id_eq_iff ht.1 hu).1 h)
  refine ⟨hu, List.all_eq_true.2 ?_⟩
  exact (agreeAll_of_idTerm (fun _ => ⟨""⟩) [] (isPlain.terms ht.1) (isPlain.terms hu)
    (List.all_eq_true.1 ht.2) hterms).1

end Literal

/-! ## Snapshots without variables -/

/-- The literals of a snapshot are of the language and have no variables but wildcards. -/
structure Snapshot.Written (s : Snapshot W) : Prop where
  head  : ∀ c ∈ s.rules, Prover.Closed c.head
  body  : ∀ c ∈ s.rules, ∀ l ∈ c.body, Prover.Closed l
  bases : ∀ (id : String) (bs : List (Literal W)), s.negations[id]? = some bs → ∀ l ∈ bs, Prover.Closed l

namespace Prover

omit [Weight W] in
theorem closed_mark {l : Literal W} (h : Closed l) (n : Nat) : Closed (mark n l) := by
  refine ⟨(isPlain_mark h.1 n).1, ?_⟩
  have hl : l.isSemiGrounded = true := h.2
  unfold mark
  split
  · simp only [Literal.isSemiGrounded, Literal.extend, List.all_append] at hl ⊢
    rw [hl]
    rfl
  · exact hl

variable {s : Snapshot W} {prune : Bool} {ts : List (Literal W)} {t : Literal W}

theorem closed_of_mem_expand (hs : s.Written) (ht : Closed t) {b : Body W} (hb : b ∈ (ofSnapshot s prune).expand t) :
    ∀ l ∈ b, Closed l := by
  intro l hl
  rcases expand_among hb hl with rfl | ⟨id, body, hr, hm⟩
  · exact ht
  · obtain ⟨c, n, hc, -, rfl⟩ := (ofSnapshot_rule s prune).1 hr
    obtain ⟨m, hmem, rfl⟩ := List.mem_map.1 hm
    exact closed_mark (hs.body c (Array.mem_toList_iff.1 (mem_numberRules.1 ⟨n, hc⟩)) m hmem) n

/-- A target with variables is the head of no rule. -/
theorem expand_of_open (hs : s.Written) (ht : t.isPlain = true) (ho : t.isSemiGrounded = false) :
    (ofSnapshot s prune).expand t = [[t]] := by
  refine expand_of_none ((ofSnapshot_none s prune).2 (fun c hc e => ?_))
  have := (Literal.closed_of_id (hs.head c hc) ht e).2
  rw [ho] at this
  cases this

/-! ## Collected proofs

Keys tell closed proofs apart by their ids and open ones from closed ones.  Open targets have the same single proof with
and without pruning, so the open proofs that are collected are the same, whatever comes between them. -/

theorem distinctClauses_cons (seen : Std.HashSet (Nat × String)) (c : Clause W) (cs : List (Clause W)) :
    distinctClauses seen (c :: cs) =
      if seen.contains c.key then distinctClauses seen cs else c :: distinctClauses (seen.insert c.key) cs := rfl

/-- The clauses of one kind that are kept, where keys tell the kinds apart. -/
theorem distinctClauses_filter (P : Clause W → Bool) : ∀ (cs : List (Clause W)) (seen seen' : Std.HashSet (Nat × String)),
    (∀ c ∈ cs, ∀ d ∈ cs, c.key = d.key → P c = P d) →
    (∀ c ∈ cs, P c = true → seen.contains c.key = seen'.contains c.key) →
    (distinctClauses seen cs).filter P = distinctClauses seen' (cs.filter P)
  | [],      seen, seen', _,  _  => rfl
  | c :: cs, seen, seen', hP, hs => by
    have hP' : ∀ d ∈ cs, ∀ e ∈ cs, d.key = e.key → P d = P e := fun d hd e he =>
      hP d (List.mem_cons_of_mem c hd) e (List.mem_cons_of_mem c he)
    obtain ⟨hc, hs'⟩ := List.forall_mem_cons.1 hs
    cases hPc : P c with
    | false =>
      rw [List.filter_cons_of_neg (by simp [hPc]), distinctClauses_cons]
      split
      · exact distinctClauses_filter P cs seen seen' hP' hs'
      · rw [List.filter_cons_of_neg (by simp [hPc])]
        refine distinctClauses_filter P cs _ seen' hP' (fun d hd hPd => ?_)
        have hne : c.key ≠ d.key := fun e => by
          have := hP c List.mem_cons_self d (List.mem_cons_of_mem c hd) e
          rw [hPc, hPd] at this
          cases this
        rw [Std.HashSet.contains_insert, beq_false_of_ne hne, Bool.false_or, hs' d hd hPd]
    | true =>
      rw [List.filter_cons_of_pos hPc, distinctClauses_cons, distinctClauses_cons, hc hPc]
      split
      · exact distinctClauses_filter P cs seen seen' hP' hs'
      · rw [List.filter_cons_of_pos hPc, distinctClauses_filter P cs (seen.insert c.key) (seen'.insert c.key) hP']
        intro d hd hPd
        rw [Std.HashSet.contains_insert, Std.HashSet.contains_insert, hs' d hd hPd]

/-- A proof of an open target. -/
def isOpen (c : Clause W) : Bool := !c.head.isSemiGrounded

variable [LawfulWeight W]

/-- **The open proofs that are collected** do not depend on pruning. -/
theorem proofsOf_open (hs : s.Written) (hts : ∀ t ∈ ts, t.isPlain = true) :
    ((ofSnapshot s prune).proofsOf ts).filter isOpen =
      distinctClauses ∅ ((ts.filter (fun t => !t.isSemiGrounded)).map (fun t => ⟨t, [t]⟩)) := by
  have hhead : ∀ c ∈ ts.flatMap (ofSnapshot s prune).proofs, c.head.isPlain = true := by
    intro c hc
    obtain ⟨t, ht, hc⟩ := List.mem_flatMap.1 hc
    obtain ⟨b, -, rfl⟩ := List.mem_map.1 hc
    exact hts t ht
  rw [proofsOf, distinctClauses_filter isOpen _ ∅ ∅ (fun c hc d hd e => ?_) (fun _ _ _ => rfl)]
  · congr 1
    rw [List.filter_flatMap]
    induction ts with
    | nil => rfl
    | cons t ts ih =>
      obtain ⟨ht, hts⟩ := List.forall_mem_cons.1 hts
      have ih := ih hts (fun c hc => hhead c (by rw [List.flatMap_cons]; exact List.mem_append_right _ hc))
      rw [List.flatMap_cons, ih]
      cases ho : t.isSemiGrounded with
      | false => simp [proofs, expand_of_open hs ht ho, isOpen, ho]
      | true =>
        have hnone : ((ofSnapshot s prune).proofs t).filter isOpen = [] := by
          refine List.filter_eq_nil_iff.2 (fun c hc => ?_)
          obtain ⟨b, -, rfl⟩ := List.mem_map.1 hc
          simp [isOpen, ho]
        simp [hnone, ho]
  · rw [isOpen, isOpen, Clause.isSemiGrounded_of_key (hhead c hc) (hhead d hd) e]

/-- Clauses whose heads meet the same literals. -/
def SameHead (c d : Clause W) : Prop := ∀ l : Literal W, (l.unify c.head).isSome = (l.unify d.head).isSome

/-- Every proof of a closed target is collected, or one with the same ids whose head prints alike. -/
theorem proofsOf_closed (hs : s.Written) (hts : ∀ t ∈ ts, t.isPlain = true) (ht : t ∈ ts) (hc : t.isSemiGrounded = true)
    {b : Body W} (hb : b ∈ (ofSnapshot s prune).expand t) :
    ∃ d ∈ (ofSnapshot s prune).proofsOf ts, SameHead ⟨t, b⟩ d ∧ SameIds b d.body := by
  have hclosed : Closed t := ⟨hts t ht, hc⟩
  have hmem : (⟨t, b⟩ : Clause W) ∈ ts.flatMap (ofSnapshot s prune).proofs :=
    List.mem_flatMap.2 ⟨t, ht, List.mem_map_of_mem (f := fun b => (⟨t, b⟩ : Clause W)) hb⟩
  obtain ⟨d, hd, hk⟩ := ((distinctClauses_spec _ ∅).2 _ hmem).resolve_left (by simp)
  obtain ⟨hdt, hde⟩ := of_mem_proofsOf hd
  have hdclosed : Closed d.head :=
    ⟨hts _ hdt, (Clause.isSemiGrounded_of_key (hts _ hdt) (c := d) (d := ⟨t, b⟩) hclosed.1 hk).trans hc⟩
  obtain ⟨h1, h2⟩ := isPlain_of_closed hdclosed (closed_of_mem_expand hs hdclosed hde)
  obtain ⟨h3, h4⟩ := isPlain_of_closed (c := ⟨t, b⟩) hclosed (closed_of_mem_expand hs hclosed hb)
  obtain ⟨hform, hbody⟩ := (Clause.key_eq_iff h2 h4 h1 h3).1 hk
  refine ⟨d, hd, fun l => Literal.unify_of_form hclosed hdclosed.1 hform.symm l, fun id => ?_⟩
  rw [Literal.map_id_of_map_form hbody]


omit [LawfulWeight W] in
theorem expand_prunes (s : Snapshot W) (t : Literal W) : Prunes ((ofSnapshot s true).expand t) ((ofSnapshot s false).expand t) :=
  (prunes_parallel (p := ofSnapshot s true) (q := ofSnapshot s false) rfl rfl rfl rfl).expand trivial

/-- Proofs of open targets are collected with pruning exactly when they are without. -/
theorem mem_proofsOf_open (hs : s.Written) (hts : ∀ t ∈ ts, t.isPlain = true) {c : Clause W} (ho : isOpen c = true)
    {prune' : Bool} (hc : c ∈ (ofSnapshot s prune).proofsOf ts) : c ∈ (ofSnapshot s prune').proofsOf ts := by
  have hsame : ((ofSnapshot s prune).proofsOf ts).filter isOpen = ((ofSnapshot s prune').proofsOf ts).filter isOpen := by
    rw [proofsOf_open hs hts, proofsOf_open hs hts]
  have h := List.mem_filter.2 ⟨hc, ho⟩
  rw [hsame] at h
  exact (List.mem_filter.1 h).1

/-- A pruned proof is one of all proofs. -/
theorem proofsOf_old (hs : s.Written) (hts : ∀ t ∈ ts, t.isPlain = true) {c : Clause W}
    (hc : c ∈ (ofSnapshot s true).proofsOf ts) :
    ∃ d ∈ (ofSnapshot s false).proofsOf ts, SameHead c d ∧ SameIds c.body d.body := by
  cases ho : isOpen c with
  | true => exact ⟨c, mem_proofsOf_open hs hts ho hc, fun _ => rfl, .refl _⟩
  | false =>
    obtain ⟨ht, hb⟩ := of_mem_proofsOf hc
    obtain ⟨b, hb', hids⟩ := (expand_prunes s c.head).old c.body hb
    obtain ⟨d, hd, hhead, hids'⟩ := proofsOf_closed hs hts ht (by simpa [isOpen] using ho) hb'
    exact ⟨d, hd, hhead, hids.trans hids'⟩

/-- **Where certain literals are true, a true proof is made up for by a pruned one.** -/
theorem proofsOf_kept (hs : s.Written) (hts : ∀ t ∈ ts, t.isPlain = true) {S : String → Prop}
    (hS : ∀ l : Literal W, l.isCertain = true → S l.id) {c : Clause W} (hc : c ∈ (ofSnapshot s false).proofsOf ts)
    (hm : Met S c.body) : ∃ d ∈ (ofSnapshot s true).proofsOf ts, SameHead c d ∧ Met S d.body := by
  cases ho : isOpen c with
  | true => exact ⟨c, mem_proofsOf_open hs hts ho hc, fun _ => rfl, hm⟩
  | false =>
    obtain ⟨ht, hb⟩ := of_mem_proofsOf hc
    obtain ⟨b, hb', hm'⟩ := (expand_prunes s c.head).met S hS ⟨c.body, hb, hm⟩
    obtain ⟨d, hd, hhead, hids⟩ := proofsOf_closed hs hts ht (by simpa [isOpen] using ho) hb'
    exact ⟨d, hd, hhead, hids.met hm'⟩

/-! ## Negations that are met -/

theorem NegationOf.of_pruned (hs : s.Written) (hts : ∀ t ∈ ts, t.isPlain = true) {id : String}
    (h : (ofSnapshot s true).NegationOf ts id) : (ofSnapshot s false).NegationOf ts id := by
  obtain ⟨c, hc, l, hl, hn, rfl⟩ := h
  obtain ⟨d, hd, -, hids⟩ := proofsOf_old hs hts hc
  obtain ⟨m, hm, e⟩ := List.mem_map.1 ((hids l.id).1 (List.mem_map_of_mem hl))
  exact ⟨d, hd, m, hm, (Literal.isNegated_of_id e).trans hn, e⟩

omit [LawfulWeight W] in
theorem bases_isPlain (hs : s.Written) (id : String) : ∀ t ∈ (ofSnapshot s prune).bases id, t.isPlain = true := by
  intro t ht
  have hbases : (ofSnapshot s prune).bases id = s.negations[id]?.getD [] := Std.HashMap.getD_eq_getD_getElem?
  rw [hbases] at ht
  cases hb : s.negations[id]? with
  | none => rw [hb] at ht; cases ht
  | some bs => rw [hb] at ht; exact (hs.bases id bs hb t ht).1

/-- What pruned proofs rest on all proofs rest on. -/
theorem Meets.of_pruned (hs : s.Written) (hts : ∀ t ∈ ts, t.isPlain = true) {id : String}
    (h : (ofSnapshot s true).Meets ts id) : (ofSnapshot s false).Meets ts id := by
  induction h with
  | direct h => exact .direct (h.of_pruned hs hts)
  | behind _ h ih => exact .behind ih (h.of_pruned hs (bases_isPlain hs _))

omit [LawfulWeight W] in
theorem proofSet_restsOn {id id' : String} : ((ofSnapshot s prune).proofSet ts).RestsOn id id' ↔
    (ofSnapshot s prune).Meets ts id ∧ (ofSnapshot s prune).NegationOf ((ofSnapshot s prune).bases id) id' := by
  constructor
  · rintro ⟨base, hb, h⟩
    obtain ⟨hm, rfl⟩ := proofSet_negations.1 hb
    exact ⟨hm, h⟩
  · rintro ⟨hm, h⟩
    exact ⟨_, proofSet_negations.2 ⟨hm, rfl⟩, h⟩

/-- Where no negation rests on itself, none does with pruned proofs. -/
theorem acyclic_prune (hs : s.Written) (hts : ∀ t ∈ ts, t.isPlain = true)
    (h : ((ofSnapshot s false).proofSet ts).Acyclic) : ((ofSnapshot s true).proofSet ts).Acyclic := by
  refine fun id hr => h id (Relation.TransGen.mono (fun x y hxy => ?_) id id hr)
  obtain ⟨hm, hn⟩ := proofSet_restsOn.1 hxy
  exact proofSet_restsOn.2 ⟨hm.of_pruned hs hts, hn.of_pruned hs (bases_isPlain hs x)⟩

end Prover

/-! ## The formulas of proof sets -/

namespace ProofSet

variable {set set' : ProofSet W} {a neg : String → Bool} {proofs : List (Clause W)}

/-- Some literal with the id has the value true. -/
def Supports (set : ProofSet W) (a neg : String → Bool) (id : String) : Prop :=
  ∃ l : Literal W, l.id = id ∧ set.literalHolds a neg l = true

/-- Literals with one id have one value. -/
theorem supports_iff [LawfulWeight W] (hone : ∀ w : W, Weight.text w = Weight.text (1 : W) → w = 1) {l : Literal W} :
    set.Supports a neg l.id ↔ set.literalHolds a neg l = true := by
  constructor
  · rintro ⟨m, e, h⟩
    rw [literalHolds, Literal.isNegated_of_id e, negation?, e, Literal.isCertain_of_id hone e] at h
    exact h
  · exact fun h => ⟨l, rfl, h⟩

theorem holds_iff_met [LawfulWeight W] (hone : ∀ w : W, Weight.text w = Weight.text (1 : W) → w = 1) (set set' : ProofSet W)
    (h : ∀ c ∈ proofs, ∀ l ∈ c.body, set'.literalHolds a neg l = set.literalHolds a neg l) :
    set'.holds a neg proofs = true ↔ ∃ c ∈ proofs, Prover.Met (set.Supports a neg) c.body := by
  simp only [holds, List.any_eq_true, List.all_eq_true, Prover.Met]
  constructor
  · rintro ⟨c, hc, hall⟩
    exact ⟨c, hc, fun l hl => (supports_iff hone).2 (by rw [← h c hc l hl]; exact hall l hl)⟩
  · rintro ⟨c, hc, hall⟩
    exact ⟨c, hc, fun l hl => by rw [h c hc l hl]; exact (supports_iff hone).1 (hall l hl)⟩

/-- A literal has the same value in two sets that both have the proofs behind it if it is a negation. -/
theorem literalHolds_eq {l : Literal W}
    (h : l.isNegated = true → (set.negation? l).isSome = true ∧ (set'.negation? l).isSome = true) :
    set'.literalHolds a neg l = set.literalHolds a neg l := by
  unfold literalHolds
  cases hn : l.isNegated with
  | false => rfl
  | true => rw [(h hn).1, (h hn).2]

end ProofSet

/-- **What makes pruning harmless**: literals of the language, variables in targets only, no negation that rests on itself,
and none that is certain although there are facts against it. -/
structure Snapshot.Prunable (s : Snapshot W) (targets : List (Literal W)) : Prop where
  written : s.Written
  plain   : ∀ t ∈ targets, t.isPlain = true
  acyclic : ((Prover.ofSnapshot s false).proofSet targets).Acyclic
  certain : ∀ l : Literal W, l.isNegated = true → l.isCertain = true → s.negationBases l = []

namespace Snapshot.Prunable

variable {s : Snapshot W} {targets ts : List (Literal W)} {a neg : String → Bool}

theorem recorded {prune : Bool} {l : Literal W} (h : (Prover.ofSnapshot s prune).Meets targets l.id) :
    (((Prover.ofSnapshot s prune).proofSet targets).negation? l).isSome = true := by
  rw [ProofSet.negation?, Prover.proofSet_negations.2 ⟨h, rfl⟩]
  rfl

/-- Certain literals are true. -/
theorem supports_certain (h : s.Prunable targets) (hv : ((Prover.ofSnapshot s false).proofSet targets).Values a neg)
    (l : Literal W) (hl : l.isCertain = true) :
    ((Prover.ofSnapshot s false).proofSet targets).Supports a neg l.id := by
  refine ⟨l, rfl, ?_⟩
  unfold ProofSet.literalHolds
  split
  · rename_i hn
    rw [Bool.and_eq_true] at hn
    obtain ⟨base, hb⟩ := Option.isSome_iff_exists.1 hn.2
    have hnone : (Prover.ofSnapshot s false).bases l.id = [] := h.certain l hn.1 hl
    have hbase := (Prover.proofSet_negations.1 hb).2
    rw [hnone] at hbase
    rw [hv l.id base hb, hbase]
    rfl
  · rw [hl, Bool.true_or]

variable [LawfulWeight W]

/-- **The formula of some targets**, restricted by a test of heads, is the same with and without pruning, given which
negations hold. -/
theorem holds_eq (h : s.Prunable targets) (hone : ∀ w : W, Weight.text w = Weight.text (1 : W) → w = 1)
    (hv : ((Prover.ofSnapshot s false).proofSet targets).Values a neg) (hts : ∀ t ∈ ts, t.isPlain = true)
    (hmeets : ∀ {p id}, (Prover.ofSnapshot s p).NegationOf ts id → (Prover.ofSnapshot s p).Meets targets id)
    (test : Clause W → Bool) (htest : ∀ c d, Prover.SameHead c d → test c = test d) :
    ((Prover.ofSnapshot s true).proofSet targets).holds a neg (((Prover.ofSnapshot s true).proofsOf ts).filter test) =
      ((Prover.ofSnapshot s false).proofSet targets).holds a neg
        (((Prover.ofSnapshot s false).proofsOf ts).filter test) := by
  -- a negation in a pruned proof is recorded in both sets
  have hvalue : ∀ c ∈ ((Prover.ofSnapshot s true).proofsOf ts).filter test, ∀ l ∈ c.body,
      ((Prover.ofSnapshot s true).proofSet targets).literalHolds a neg l =
        ((Prover.ofSnapshot s false).proofSet targets).literalHolds a neg l := by
    refine fun c hc l hl => ProofSet.literalHolds_eq (fun hn => ?_)
    have hneg : (Prover.ofSnapshot s true).NegationOf ts l.id := ⟨c, (List.mem_filter.1 hc).1, l, hl, hn, rfl⟩
    exact ⟨recorded (hmeets (hneg.of_pruned h.written hts)), recorded (hmeets hneg)⟩
  rw [Bool.eq_iff_iff, ProofSet.holds_iff_met hone _ _ hvalue, ProofSet.holds_iff_met hone _ _ (fun _ _ _ _ => rfl)]
  constructor
  · rintro ⟨c, hc, hm⟩
    obtain ⟨hc, hk⟩ := List.mem_filter.1 hc
    obtain ⟨d, hd, hhead, hids⟩ := Prover.proofsOf_old h.written hts hc
    exact ⟨d, List.mem_filter.2 ⟨hd, (htest c d hhead).symm.trans hk⟩, hids.met hm⟩
  · rintro ⟨c, hc, hm⟩
    obtain ⟨hc, hk⟩ := List.mem_filter.1 hc
    obtain ⟨d, hd, hhead, hm'⟩ := Prover.proofsOf_kept h.written hts (h.supports_certain hv) hc hm
    exact ⟨d, List.mem_filter.2 ⟨hd, (htest c d hhead).symm.trans hk⟩, hm'⟩

/-- The negations that hold without pruning are those that hold with it. -/
theorem values (h : s.Prunable targets) (hone : ∀ w : W, Weight.text w = Weight.text (1 : W) → w = 1)
    (hv : ((Prover.ofSnapshot s false).proofSet targets).Values a neg) :
    ((Prover.ofSnapshot s true).proofSet targets).Values a neg := by
  intro id base hb
  obtain ⟨hmeets, rfl⟩ := Prover.proofSet_negations.1 hb
  have hmeets' := hmeets.of_pruned h.written h.plain
  have hbehind : ∀ {p id'}, (Prover.ofSnapshot s p).NegationOf ((Prover.ofSnapshot s true).bases id) id' →
      (Prover.ofSnapshot s p).Meets targets id' := by
    intro p id' hn
    cases p with
    | true => exact .behind hmeets hn
    | false => exact .behind hmeets' hn
  have hsame := h.holds_eq hone hv (Prover.bases_isPlain h.written id) hbehind (fun _ => true) (fun _ _ _ => rfl)
  rw [List.filter_true, List.filter_true] at hsame
  rw [hv id _ (Prover.proofSet_negations.2 ⟨hmeets', rfl⟩), hsame]
  rfl

end Snapshot.Prunable

/-! ## Estimates -/

/-- The value of a compiled function, when `a` says which ids are true. -/
def Compiled.value (c : Compiled W) (a : String → Bool) : Bool :=
  c.diagram.eval c.root (fun v => (c.labels[v]?).elim false a)

namespace Estimator

/-- The estimator over the proofs of some targets. -/
def ofTargets (s : Snapshot W) (prune : Bool) (targets : List (Literal W)) (settings : Settings) : Estimator W :=
  ⟨(Prover.ofSnapshot s prune).proofSet targets, settings⟩

theorem value_prune [LawfulWeight W] (hone : ∀ w : W, Weight.text w = Weight.text (1 : W) → w = 1) {s : Snapshot W}
    {targets : List (Literal W)} (h : s.Prunable targets) (settings settings' : Settings) (l : Literal W)
    (a : String → Bool) :
    ((ofTargets s true targets settings).compile l).value a = ((ofTargets s false targets settings').compile l).value a := by
  have hacyclic := Prover.acyclic_prune h.written h.plain h.acyclic
  obtain ⟨neg, hv⟩ := h.acyclic.exists_values a
  have hpruned := (compile_means (e := ofTargets s true targets settings) (l := l) hacyclic).formula a neg (h.values hone hv)
  have hall := (compile_means (e := ofTargets s false targets settings') (l := l) h.acyclic).formula a neg hv
  rw [Compiled.value, Compiled.value, hpruned, hall, proofsFor_eq, proofsFor_eq]
  exact h.holds_eq hone hv h.plain .direct _ (fun c d hcd => hcd l)

/-- Over the rationals the counts agree as well: ids that one function does not ask about do not matter. -/
theorem probability_prune {s : Snapshot ℚ} {targets : List (Literal ℚ)} (h : s.Prunable targets)
    (settings settings' : Settings) (l : Literal ℚ) :
    ((ofTargets s true targets settings).compile l).probability =
      ((ofTargets s false targets settings').compile l).probability := by
  have hacyclic := Prover.acyclic_prune h.written h.plain h.acyclic
  have hmeans := compile_means (e := ofTargets s true targets settings) (l := l) hacyclic
  have hmeans' := compile_means (e := ofTargets s false targets settings') (l := l) h.acyclic
  have htrue : ∀ A, (ofTargets s true targets settings).set.TrueIn ((ofTargets s true targets settings).proofsFor l) A ↔
      (ofTargets s false targets settings').set.TrueIn ((ofTargets s false targets settings').proofsFor l) A := by
    intro A
    rw [hmeans.trueIn_iff hacyclic, hmeans'.trueIn_iff h.acyclic]
    exact iff_of_eq (congrArg (· = true) (value_prune (fun _ => Rational.text_injective) h settings settings' l _))
  rw [compile_probability hacyclic, compile_probability h.acyclic, hmeans.chance_eq hacyclic, hmeans'.chance_eq h.acyclic]
  rw [mass_congr (fun A _ => htrue A)]
  refine mass_eq_of_inter (fun A => ?_) (hmeans'.trueIn_inter h.acyclic)
  rw [← htrue, ← htrue]
  exact hmeans.trueIn_inter hacyclic A

/-- **Pruning changes no estimate.**  Whatever the settings and the literal, the function that is compiled from pruned
proofs has the value of the one that is compiled from all proofs, whichever ids are true.  So it is where only one is
written as one, and so with the doubles that a program runs on; and over the rationals the probabilities are equal. -/
theorem compile_prune :
    (∀ {W : Type} [Weight W] [LawfulWeight W], (∀ w : W, Weight.text w = Weight.text (1 : W) → w = 1) →
      ∀ (s : Snapshot W) (targets : List (Literal W)), s.Prunable targets →
      ∀ (settings settings' : Settings) (l : Literal W) (a : String → Bool),
        ((ofTargets s true targets settings).compile l).value a =
          ((ofTargets s false targets settings').compile l).value a) ∧
    (∀ (s : Snapshot Double) (targets : List (Literal Double)), s.Prunable targets →
      ∀ (settings settings' : Settings) (l : Literal Double) (a : String → Bool),
        ((ofTargets s true targets settings).compile l).value a =
          ((ofTargets s false targets settings').compile l).value a) ∧
    ∀ (s : Snapshot ℚ) (targets : List (Literal ℚ)), s.Prunable targets → ∀ (settings settings' : Settings) (l : Literal ℚ),
      ((ofTargets s true targets settings).compile l).probability =
        ((ofTargets s false targets settings').compile l).probability :=
  ⟨fun hone _ _ h settings settings' l a => value_prune hone h settings settings' l a,
    fun _ _ h settings settings' l a => value_prune (fun _ => Double.eq_one_of_text) h settings settings' l a,
    fun _ _ h settings settings' l => probability_prune h settings settings' l⟩

end Estimator

/-! ## A day out

It is fine if it is not wet, and fine in any case where it is warm and sunny or there is a roof. -/

namespace DayOut

def atom (w : ℚ) (name : String) : Literal ℚ := ⟨w, ⟨name, 0⟩, []⟩

def trip : Literal ℚ := ⟨1, ⟨"trip", 1⟩, [.var ⟨0, false⟩]⟩

def rules : List (Clause ℚ) :=
  [⟨atom 1 "fine", [atom (1 / 2) "~wet"]⟩,
   ⟨atom 1 "fine", [atom 1 "warm", atom 1 "sunny"]⟩,
   ⟨atom 1 "fine", [atom 1 "roof"]⟩]

def snapshot : Snapshot ℚ :=
  ⟨∅, ∅, rules.toArray, ∅, (∅ : Std.HashMap String (List (Literal ℚ))).insert (atom (1 / 2) "~wet").id [atom (1 / 2) "wet"]⟩

def targets : List (Literal ℚ) := [atom 1 "fine", trip]

theorem bases_eq {id : String} {bs : List (Literal ℚ)} (h : snapshot.negations[id]? = some bs) :
    id = (atom (1 / 2) "~wet").id ∧ bs = [atom (1 / 2) "wet"] := by
  simp only [snapshot, Std.HashMap.getElem?_insert, beq_iff_eq] at h
  split at h
  · rename_i e
    exact ⟨e.symm, (Option.some.inj h).symm⟩
  · simp at h

theorem written : snapshot.Written := by
  have hmem : ∀ c ∈ snapshot.rules, c ∈ rules := fun c hc => by simpa [snapshot] using hc
  have hclosed : ∀ c ∈ rules, (c.head.isPlain = true ∧ c.head.isSemiGrounded = true) ∧
      ∀ l ∈ c.body, l.isPlain = true ∧ l.isSemiGrounded = true := by decide
  refine ⟨fun c hc => (hclosed c (hmem c hc)).1, fun c hc => (hclosed c (hmem c hc)).2, fun id bs hb l hl => ?_⟩
  obtain ⟨-, rfl⟩ := bases_eq hb
  rw [List.mem_singleton.1 hl]
  exact ⟨by decide, by decide⟩

theorem prunable : snapshot.Prunable targets := by
  refine ⟨written, by decide, ?_, fun l hn hl => ?_⟩
  · -- what the negation stands against is a leaf
    refine ProofSet.acyclic_of_rank (fun _ => 0) (fun id id' hr => ?_)
    obtain ⟨-, c, hc, l, hl, hn, -⟩ := Prover.proofSet_restsOn.1 hr
    obtain ⟨hhead, hbody⟩ := Prover.of_mem_proofsOf hc
    have hbases : (Prover.ofSnapshot snapshot false).bases id = snapshot.negations[id]?.getD [] :=
      Std.HashMap.getD_eq_getD_getElem?
    rw [hbases] at hhead
    cases hb : snapshot.negations[id]? with
    | none => rw [hb] at hhead; cases hhead
    | some bs =>
      obtain ⟨-, rfl⟩ := bases_eq hb
      rw [hb, Option.getD_some, List.mem_singleton] at hhead
      have hrule : ∀ c ∈ rules, c.head.id ≠ (atom (1 / 2) "wet").id := fun c hc e => by
        have hone : ∀ c ∈ rules, c.head.weight = 1 := by decide
        have hhalf : c.head.weight = 1 / 2 := Literal.weight_eq_of_id e
        rw [hone c hc] at hhalf
        norm_num at hhalf
      have hnone : (Prover.ofSnapshot snapshot false).rules[(atom (1 / 2) "wet").id]? = none :=
        (Prover.ofSnapshot_none _ _).2 (fun c hc => hrule c (by simpa [snapshot] using hc))
      rw [hhead, Prover.expand_of_none hnone, List.mem_singleton] at hbody
      rw [hbody, List.mem_singleton] at hl
      subst hl
      exact absurd hn (by decide)
  · rw [Snapshot.negationBases, Std.HashMap.getD_eq_getD_getElem?]
    cases hb : snapshot.negations[l.id]? with
    | none => rfl
    | some bs =>
      have hweight : l.weight = 1 / 2 := Literal.weight_eq_of_id (bases_eq hb).1
      have hone : l.weight = 1 := (LawfulWeight.isCertain_iff _).1 hl
      rw [hone] at hweight
      norm_num at hweight

end DayOut

/-- Of three ways for a day to be fine one is enough: the estimate is the same. -/
theorem Estimator.compile_prune_dayOut : DayOut.snapshot.Prunable DayOut.targets ∧
    (∀ a, ((ofTargets DayOut.snapshot true DayOut.targets .default).compile (DayOut.atom 1 "fine")).value a =
      ((ofTargets DayOut.snapshot false DayOut.targets .default).compile (DayOut.atom 1 "fine")).value a) ∧
    ((ofTargets DayOut.snapshot true DayOut.targets .default).compile (DayOut.atom 1 "fine")).probability =
      ((ofTargets DayOut.snapshot false DayOut.targets .default).compile (DayOut.atom 1 "fine")).probability :=
  ⟨DayOut.prunable, fun a => compile_prune.1 (fun _ => Rational.text_injective) _ _ DayOut.prunable _ _ _ a,
    compile_prune.2.2 _ _ DayOut.prunable _ _ _⟩

end Credence
