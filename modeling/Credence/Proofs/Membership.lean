import Credence.Proofs.Requests
import Credence.Proofs.Sameness
import Credence.Store
/-!
# Sets of clauses

Stores and knowledge bases keep the keys of what they hold, and ask a set of keys whether a clause is new.  For clauses
that can be written the answer is about the clauses: the set knows exactly those that are the same, up to names of
variables, as one that was put in (`Store.honest_addAll`, `KnowledgeBase.contains_tellAll_iff`).
-/
namespace Credence

variable {W : Type} [Weight W]

/-! ## Texts and copies -/

/-- What is read from a text can be written. -/
theorem Clause.IsSaid.isWritable [LawfulWeight W] {r : Registry} {c : Clause W} (h : c.IsSaid r) : c.IsWritable := by
  refine List.forall_mem_cons.2
    ⟨⟨⟨Literal.isPlain.predicate h.head.plain, Literal.isPlain.terms h.head.plain⟩, ?_⟩, fun l hl => ?_⟩
  · rcases h.weight with hw | hw
    · rw [hw]
      exact LawfulWeight.isProper_one
    · exact hw
  · obtain ⟨hspelled, hw⟩ := h.body l hl
    exact ⟨⟨Literal.isPlain.predicate hspelled.plain, Literal.isPlain.terms hspelled.plain⟩,
      by rw [hw]; exact LawfulWeight.isProper_one⟩

theorem Program.isWritable_of_read [LawfulWeight W] {r : Registry} {text : String} {p : Program W}
    (h : Program.read r text = .ok p) : ∀ c ∈ p.clauses, c.IsWritable :=
  fun c hc => ((isSaid_of_read h).1 c hc).isWritable

theorem Clause.alike_rename (c : Clause W) (pool : VarPool) : (c.rename pool).1.alike c = true := by
  obtain ⟨f, hf, hhead, hbody⟩ := c.rename_spec pool
  exact beq_iff_eq.2 (Copy.key hf.named hf.injective ⟨hhead, hbody⟩ (fun _ hv => hv))

/-! ## Stores -/

namespace Store

variable [LawfulWeight W]

/-- The keys of a store are those of its clauses, no two of which are the same. -/
structure Honest (s : Store W) : Prop where
  writable : ∀ c ∈ s.toList, c.IsWritable
  keys     : ∀ k, s.keys.contains k = true ↔ ∃ c ∈ s.toList, c.key = k
  distinct : s.toList.Pairwise (fun c d => ¬ c.Same d)

omit [LawfulWeight W] in
theorem honest_empty (capacity : Option Nat) : (empty capacity : Store W).Honest where
  writable := fun _ hc => nomatch hc
  keys     := fun k => by simp [empty, toList]
  distinct := List.Pairwise.nil

theorem Honest.contains_iff {s : Store W} (h : s.Honest) {c : Clause W} (hc : c.IsWritable) :
    s.contains c = true ↔ ∃ e ∈ s.toList, e.Same c := by
  rw [contains, h.keys]
  exact exists_congr (fun e => and_congr_right (fun he => Clause.key_eq_iff_same (h.writable e he) hc))

/-- Adding a clause keeps a store honest, whether there is room for it or not. -/
theorem Honest.add {s : Store W} (h : s.Honest) {c : Clause W} (hc : c.IsWritable) : (s.add c).2.Honest := by
  unfold Store.add
  by_cases hskip : (s.isFull || s.contains c) = true
  · rw [if_pos hskip]
    exact h
  · rw [if_neg hskip]
    have hnew : ¬ ∃ e ∈ s.toList, e.Same c := by
      rw [← h.contains_iff hc]
      intro hin
      exact hskip (by rw [hin, Bool.or_true])
    have hlist : (⟨s.clauses.push c, s.keys.insert c.key, s.capacity⟩ : Store W).toList = s.toList ++ [c] :=
      Array.toList_push
    refine ⟨?_, fun k => ?_, ?_⟩ <;> rw [hlist]
    · exact List.forall_mem_append.2 ⟨h.writable, List.forall_mem_singleton.2 hc⟩
    · show (s.keys.insert c.key).contains k = true ↔ _
      rw [Std.HashSet.contains_insert, Bool.or_eq_true, beq_iff_eq, h.keys]
      simp only [List.mem_append, List.mem_singleton, or_and_right, exists_or, exists_eq_left]
      exact or_comm
    · refine List.pairwise_append.2 ⟨h.distinct, List.pairwise_singleton _ _, fun e he d hd => ?_⟩
      rw [List.mem_singleton.1 hd]
      exact fun hsame => hnew ⟨e, he, hsame⟩

/-- **A store takes a clause for known exactly when it holds the same one**, whatever was added to it. -/
theorem honest_addAll (capacity : Option Nat) (cs : List (Clause W)) (hcs : ∀ c ∈ cs, c.IsWritable) :
    ((empty capacity).addAll cs).2.Honest := by
  unfold addAll
  refine List.foldlRecOn cs _ (motive := fun p : Nat × Store W => p.2.Honest) (honest_empty capacity) (fun p hp c hc => ?_)
  have hadd := hp.add (hcs c hc)
  obtain ⟨n, s⟩ := p
  dsimp only
  split <;> (rename_i he; rw [he] at hadd; exact hadd)

end Store

/-! ## Knowledge bases -/

namespace KnowledgeBase

/-- A clause as it is looked up among the known ones: a rule stands in running order. -/
def filing (kb : KnowledgeBase W) (c : Clause W) : Clause W :=
  if c.body.isEmpty then c
  else
    match c.reorder kb.registry with
    | .ok d    => d
    | .error _ => c

/-- The clauses that count as known with a new rule: one with a weight is known as it was told and as it is kept. -/
def filed (kb : KnowledgeBase W) (d : Clause W) : List (Clause W) :=
  if d.head.isCertain then [d]
  else
    [d, .fact (kb.weightLiteral d.head.weight), ⟨{ d.head with weight := 1 }, d.body ++ [kb.weightLiteral 1]⟩]

/-- The clauses that telling one adds to the known ones. -/
def learned (kb : KnowledgeBase W) (c : Clause W) : List (Clause W) :=
  match kb.tell c with
  | .ok (true, _) => if c.body.isEmpty then [c] else kb.filed (kb.filing c)
  | _             => []

/-- The clauses that telling many adds to the known ones, up to the first that is refused. -/
def learnedAll (kb : KnowledgeBase W) : List (Clause W) → List (Clause W)
  | []      => []
  | c :: cs =>
    match kb.tell c with
    | .error _     => []
    | .ok (_, kb') => kb.learned c ++ kb'.learnedAll cs

variable {kb kb' : KnowledgeBase W} {c d : Clause W} {isNew : Bool}

theorem contains_storeFact_iff (k : Nat × String) :
    (kb.storeFact c).2.seen.contains k = true ↔ kb.seen.contains k = true ∨ c.key = k := by
  unfold storeFact
  by_cases hin : kb.seen.contains c.key = true
  · rw [if_pos hin]
    exact ⟨.inl, fun h => h.elim (fun h => h) (fun e => e ▸ hin)⟩
  · rw [if_neg hin]
    show (kb.seen.insert c.key).contains k = true ↔ _
    rw [Std.HashSet.contains_insert, Bool.or_eq_true, beq_iff_eq]
    exact or_comm

theorem contains_keepRule_iff (hnew : kb.seen.contains d.key = false) (k : Nat × String) :
    (kb.keepRule d).2.seen.contains k = true ↔ kb.seen.contains k = true ∨ ∃ e ∈ kb.filed d, e.key = k := by
  have hstore : ∀ (kb : KnowledgeBase W) (c : Clause W),
      (kb.storeRule c).seen.contains k = true ↔ c.key = k ∨ kb.seen.contains k = true := by
    intro kb c
    show (kb.seen.insert c.key).contains k = true ↔ _
    rw [Std.HashSet.contains_insert, Bool.or_eq_true, beq_iff_eq]
  have hmark : ∀ n : Nat, (({ kb with seen := kb.seen.insert d.key, nextWeight := n } : KnowledgeBase W).seen.contains k = true) ↔
      d.key = k ∨ kb.seen.contains k = true := by
    intro n
    show (kb.seen.insert d.key).contains k = true ↔ _
    rw [Std.HashSet.contains_insert, Bool.or_eq_true, beq_iff_eq]
  unfold keepRule filed
  rw [if_neg (by simp [hnew])]
  by_cases hcertain : d.head.isCertain = true
  · simp only [hcertain, if_true]
    rw [hstore, hmark]
    simp only [List.mem_singleton, exists_eq_left]
    tauto
  · simp only [hcertain, Bool.false_eq_true, if_false]
    rw [hstore, contains_storeFact_iff, hmark]
    simp only [List.mem_cons, List.not_mem_nil, or_false, or_and_right, exists_or, exists_eq_left]
    tauto

/-- **A clause is new exactly when it is not among the known ones**, in running order. -/
theorem isNew_tell (h : kb.tell c = .ok (isNew, kb')) (hc : c.head.isPrimitive = false) :
    isNew = !kb.seen.contains (kb.filing c).key := by
  rcases tell_eq_ok_iff.1 h with ⟨hprim, -⟩ | ⟨-, -, ⟨hnil, -, e⟩ | ⟨hne, -, d, hd, e⟩⟩
  · rw [hprim] at hc
    cases hc
  · have hfiling : kb.filing c = c := by rw [filing, hnil]; rfl
    rw [hfiling, show isNew = (kb.storeFact c).1 from congrArg Prod.fst e, storeFact]
    cases kb.seen.contains c.key <;> rfl
  · have hfiling : kb.filing c = d := by
      rw [filing, if_neg (by rwa [List.isEmpty_iff]), hd]
    rw [hfiling, show isNew = (kb.keepRule d).1 from congrArg Prod.fst e, keepRule]
    cases kb.seen.contains d.key
    · cases hcertain : d.head.isCertain <;> simp
    · rfl

/-- What telling a clause adds to the known keys. -/
theorem contains_tell_iff (h : kb.tell c = .ok (isNew, kb')) (k : Nat × String) :
    kb'.seen.contains k = true ↔ kb.seen.contains k = true ∨ ∃ e ∈ kb.learned c, e.key = k := by
  have hnew := isNew_tell h
  unfold learned
  rw [h]
  rcases tell_eq_ok_iff.1 h with ⟨-, e⟩ | ⟨hprim, -, ⟨hnil, -, e⟩ | ⟨hne, -, d, hd, e⟩⟩
  · obtain ⟨rfl, rfl⟩ := Prod.mk.inj e
    simp
  · have hnew := hnew hprim
    rw [show kb' = (kb.storeFact c).2 from congrArg Prod.snd e, contains_storeFact_iff]
    have hfiling : kb.filing c = c := by rw [filing, hnil]; rfl
    rw [hfiling] at hnew
    cases isNew with
    | true => simp [hnil]
    | false =>
      have hin : kb.seen.contains c.key = true := by simpa using hnew
      simp only [List.not_mem_nil, false_and, exists_false, or_false]
      exact ⟨fun h => h.elim (fun h => h) (fun e => e ▸ hin), .inl⟩
  · have hnew := hnew hprim
    have hfiling : kb.filing c = d := by
      rw [filing, if_neg (by rwa [List.isEmpty_iff]), hd]
    rw [hfiling] at hnew ⊢
    rw [show kb' = (kb.keepRule d).2 from congrArg Prod.snd e]
    cases isNew with
    | true =>
      rw [contains_keepRule_iff (by simpa using hnew)]
      simp [hne]
    | false =>
      have hin : kb.seen.contains d.key = true := by simpa using hnew
      simp [keepRule, hin]

theorem tellAll_cons (h : kb.tell c = .ok (isNew, kb')) (cs : List (Clause W)) :
    (kb.tellAll (c :: cs)).2 = (kb'.tellAll cs).2 ∧ kb.learnedAll (c :: cs) = kb.learned c ++ kb'.learnedAll cs := by
  constructor
  · conv_lhs => unfold tellAll
    rw [h]
    dsimp only
    split <;> (rename_i he; rw [he])
  · conv_lhs => unfold learnedAll
    rw [h]

theorem tellAll_cons_of_error {e : Error} (h : kb.tell c = .error e) (cs : List (Clause W)) :
    (kb.tellAll (c :: cs)).2 = kb ∧ kb.learnedAll (c :: cs) = [] := by
  unfold tellAll learnedAll
  rw [h]
  exact ⟨rfl, rfl⟩

theorem isWritable_weightLiteral (kb : KnowledgeBase W) {w : W} (hw : Weight.isProper w = true) :
    (kb.weightLiteral w).IsWritable := by
  have hplain := (isPlain_weightLiteral kb w).1
  exact ⟨⟨Literal.isPlain.predicate hplain, Literal.isPlain.terms hplain⟩, hw⟩

variable [LawfulWeight W]

theorem isWritable_filed (hd : d.IsWritable) : ∀ e ∈ kb.filed d, e.IsWritable := by
  obtain ⟨hhead, hbody⟩ := List.forall_mem_cons.1 hd
  have hone := kb.isWritable_weightLiteral (LawfulWeight.isProper_one (W := W))
  unfold filed
  split
  · exact List.forall_mem_singleton.2 hd
  · refine List.forall_mem_cons.2 ⟨hd, List.forall_mem_cons.2 ⟨?_, List.forall_mem_singleton.2 ?_⟩⟩
    · exact List.forall_mem_singleton.2 (kb.isWritable_weightLiteral hhead.proper)
    · refine List.forall_mem_cons.2 ⟨⟨⟨hhead.predicate, hhead.terms⟩, LawfulWeight.isProper_one⟩, ?_⟩
      exact List.forall_mem_append.2 ⟨hbody, List.forall_mem_singleton.2 hone⟩

omit [LawfulWeight W] in
theorem isWritable_filing (hc : c.IsWritable) : (kb.filing c).IsWritable := by
  unfold filing
  split
  · exact hc
  · split
    · rename_i d hd
      obtain ⟨hhead, hbody⟩ := Clause.mem_reorder hd
      obtain ⟨hch, hcb⟩ := List.forall_mem_cons.1 hc
      exact List.forall_mem_cons.2 ⟨hhead ▸ hch, fun l hl => hcb l ((hbody l).1 hl)⟩
    · exact hc

theorem isWritable_learned (hc : c.IsWritable) : ∀ e ∈ kb.learned c, e.IsWritable := by
  unfold learned
  split
  · split
    · exact List.forall_mem_singleton.2 hc
    · exact isWritable_filed (isWritable_filing hc)
  · exact fun e he => nomatch he

/-- **What is known after some clauses were told** is what was known before, and what is the same as a clause that was
learned from them. -/
theorem contains_tellAll_iff (hd : d.IsWritable) : ∀ (cs : List (Clause W)) (kb : KnowledgeBase W), (∀ c ∈ cs, c.IsWritable) →
    ((kb.tellAll cs).2.seen.contains d.key = true ↔ kb.seen.contains d.key = true ∨ ∃ e ∈ kb.learnedAll cs, e.Same d)
  | [], kb, _ => ⟨.inl, fun h => h.elim (fun h => h) (fun ⟨_, he, _⟩ => nomatch he)⟩
  | c :: cs, kb, hcs => by
    obtain ⟨hc, hcs⟩ := List.forall_mem_cons.1 hcs
    cases htell : kb.tell c with
    | error e =>
      obtain ⟨hrun, hlearned⟩ := tellAll_cons_of_error htell cs
      rw [hrun, hlearned]
      exact ⟨.inl, fun h => h.elim (fun h => h) (fun ⟨_, he, _⟩ => nomatch he)⟩
    | ok p =>
      obtain ⟨isNew, kb'⟩ := p
      have hstep := contains_tell_iff htell d.key
      have hsame : (∃ e ∈ kb.learned c, e.key = d.key) ↔ ∃ e ∈ kb.learned c, e.Same d :=
        exists_congr (fun e => and_congr_right (fun he => Clause.key_eq_iff_same (isWritable_learned hc e he) hd))
      have ih := contains_tellAll_iff hd cs kb' hcs
      obtain ⟨hrun, hlearned⟩ := tellAll_cons htell cs
      rw [hrun, hlearned, ih, hstep, hsame, or_assoc]
      simp only [List.mem_append, or_and_right, exists_or]

/-- **What compaction does to the known clauses**: a rule that was written out in is forgotten, and what came of it is
known instead. -/
theorem contains_inlineAt_iff (kb : KnowledgeBase W) (q : Predicate) (site : Site) :
    (kb.inlineAt q site).2.seen = kb.seen ∨
      ∃ referrer merged, (kb.rules.get site.predicate)[site.rule]? = some referrer ∧
        (kb.inlineAt q site).2.rules = kb.rules.set site.predicate site.rule merged ∧
        (referrer.IsWritable → merged.IsWritable → d.IsWritable →
          ((kb.inlineAt q site).2.seen.contains d.key = true ↔
            merged.Same d ∨ ¬ referrer.Same d ∧ kb.seen.contains d.key = true)) := by
  rcases kb.inlineAt_spec q site with ⟨_, -, e⟩ | ⟨_, referrer, _, -, href, -, ⟨_, -, e⟩ | ⟨merged, -, e⟩⟩
  · exact .inl (by rw [e])
  · exact .inl (by rw [e])
  · refine .inr ⟨referrer, merged, href, by rw [e], fun hr hm hd => ?_⟩
    rw [e]
    show ((kb.seen.erase referrer.key).insert merged.key).contains d.key = true ↔ _
    rw [Std.HashSet.contains_insert, Std.HashSet.contains_erase, Bool.or_eq_true, Bool.and_eq_true, beq_iff_eq,
      Bool.not_eq_true', beq_eq_false_iff_ne, ne_eq, Clause.key_eq_iff_same hm hd, Clause.key_eq_iff_same hr hd]

end KnowledgeBase

/-! ## Identity -/

/-- **Clauses are told apart up to names of variables, and no further.**  Fingerprints of clauses in the words of the
language are equal exactly when one clause is the other renamed, wildcards facing wildcards; a copy is the same clause;
and whatever was put into a store or a knowledge base, a clause is found there only when the same one was put in. -/
theorem Clause.fingerprint_eq_iff_renames [LawfulWeight W] {c d : Clause W} (hc : c.IsWritable) (hd : d.IsWritable) :
    (c.fingerprint = d.fingerprint ↔ c.Same d) ∧
      (c.IsWellFormed → d.IsWellFormed →
        (c.fingerprint = d.fingerprint ↔ c.Renames d) ∧ (c.alike d = true ↔ c.Renames d)) ∧
      (∀ (e : Clause W) (pool : VarPool), (e.rename pool).1.alike e = true) ∧
      (∀ (capacity : Option Nat) (cs : List (Clause W)), (∀ e ∈ cs, e.IsWritable) →
        (((Store.empty capacity).addAll cs).2.contains d = true ↔
          ∃ e ∈ ((Store.empty capacity).addAll cs).2.toList, e.Same d) ∧
        ((Store.empty capacity).addAll cs).2.toList.Pairwise (fun e e' => ¬ e.Same e')) ∧
      (∀ (kb : KnowledgeBase W) (cs : List (Clause W)), (∀ e ∈ cs, e.IsWritable) →
        ((kb.tellAll cs).2.seen.contains d.key = true ↔
          kb.seen.contains d.key = true ∨ ∃ e ∈ kb.learnedAll cs, e.Same d)) ∧
      ∀ (kb : KnowledgeBase W) (q : Predicate) (site : Site), (kb.inlineAt q site).2.seen = kb.seen ∨
        ∃ referrer merged, (kb.rules.get site.predicate)[site.rule]? = some referrer ∧
          (kb.inlineAt q site).2.rules = kb.rules.set site.predicate site.rule merged ∧
          (referrer.IsWritable → merged.IsWritable →
            ((kb.inlineAt q site).2.seen.contains d.key = true ↔
              merged.Same d ∨ ¬ referrer.Same d ∧ kb.seen.contains d.key = true)) := by
  have hsame := Clause.fingerprint_eq_iff hc hd
  refine ⟨hsame, fun hcw hdw => ⟨?_, ?_⟩, Clause.alike_rename, fun capacity cs hcs => ?_, fun kb cs hcs => ?_,
    fun kb q site => ?_⟩
  · rw [hsame, same_iff_renames hcw hdw]
  · rw [Clause.alike, beq_iff_eq, Clause.key_eq_iff_same hc hd, same_iff_renames hcw hdw]
  · have h := Store.honest_addAll capacity cs hcs
    exact ⟨h.contains_iff hd, h.distinct⟩
  · exact KnowledgeBase.contains_tellAll_iff hd cs kb hcs
  · rcases KnowledgeBase.contains_inlineAt_iff (d := d) kb q site with h | ⟨referrer, merged, href, hset, h⟩
    · exact .inl h
    · exact .inr ⟨referrer, merged, href, hset, fun hr hm => h hr hm hd⟩

namespace Twins

/-- `p(X, Y) :- e(Y, X), f(_)`, with the numbers of the variables as given. -/
def clause (x y w : Nat) : Clause ℚ :=
  ⟨⟨1 / 2, ⟨"p", 2⟩, [.var ⟨x, false⟩, .var ⟨y, false⟩]⟩,
    [⟨1, ⟨"e", 2⟩, [.var ⟨y, false⟩, .var ⟨x, false⟩]⟩, ⟨1, ⟨"f", 1⟩, [.var ⟨w, true⟩]⟩]⟩

theorem isWritable_clause (x y w : Nat) : (clause x y w).IsWritable := by
  have hproper : ∀ q : ℚ, 0 < q ∧ q ≤ 1 → Weight.isProper q = true := fun q h => decide_eq_true h
  have hp : Predicate.isPlain ⟨"p", 2⟩ = true := by decide
  have he : Predicate.isPlain ⟨"e", 2⟩ = true := by decide
  have hf : Predicate.isPlain ⟨"f", 1⟩ = true := by decide
  refine List.forall_mem_cons.2 ⟨⟨⟨hp, ?_⟩, hproper _ (by norm_num [clause])⟩, ?_⟩
  · simp [clause, Term.isPlain]
  · refine List.forall_mem_cons.2 ⟨⟨⟨he, ?_⟩, hproper _ (by norm_num)⟩,
      List.forall_mem_singleton.2 ⟨⟨hf, ?_⟩, hproper _ (by norm_num)⟩⟩
    · simp [Term.isPlain]
    · simp [Term.isPlain]

end Twins

/-- A store that holds `p(X, Y) :- e(Y, X), f(_)` knows the rule with `X` and `Y` interchanged throughout. -/
theorem Clause.fingerprint_eq_iff_renames_twins :
    (Twins.clause 0 1 2).IsWritable ∧ (Twins.clause 1 0 5).IsWritable ∧
      (Twins.clause 0 1 2).Renames (Twins.clause 1 0 5) ∧
      ((Store.empty none).addAll [Twins.clause 0 1 2]).2.contains (Twins.clause 1 0 5) = true := by
  have h := Clause.fingerprint_eq_iff_renames (Twins.isWritable_clause 0 1 2) (Twins.isWritable_clause 1 0 5)
  have hwf : ∀ x y w : Nat, (Twins.clause x y w).IsWellFormed := fun x y w => ⟨rfl, by simp [Twins.clause, Literal.isWellFormed]⟩
  have hrenames := ((h.2.1 (hwf 0 1 2) (hwf 1 0 5)).1).1 (by rfl)
  have hstore := (h.2.2.2.1 none [Twins.clause 0 1 2] (List.forall_mem_singleton.2 (Twins.isWritable_clause 0 1 2))).1
  refine ⟨Twins.isWritable_clause 0 1 2, Twins.isWritable_clause 1 0 5, hrenames, hstore.2 ?_⟩
  refine ⟨Twins.clause 0 1 2, ?_, (Clause.same_iff_renames (hwf 0 1 2) (hwf 1 0 5)).2 hrenames⟩
  simp [Store.addAll, Store.add, Store.empty, Store.contains, Store.isFull, Store.toList]

end Credence
