import Credence.Proofs.Reading
/-!
# What a knowledge base keeps

Clauses are checked before they are kept, so a knowledge base that was built by telling it plain clauses and loading
texts holds ground, properly weighted facts, each under its predicate and once, and certain rules whose variables are
bound in time (`Built.kept`).  Without primitives and without wildcards in the heads of rules, such a knowledge base is
in order over the vocabulary it is written in, together with any query (`Kept.regular`).
-/
namespace Credence

variable {W : Type}

/-! ## Shelves -/

namespace Shelf

theorem pushEntry_perm (c : Clause W) : ∀ es : List (Predicate × List (Clause W)),
    ((pushEntry c es).flatMap Prod.snd).Perm (c :: es.flatMap Prod.snd)
  | [] => .refl _
  | (p, cs) :: es => by
    rw [pushEntry]
    split
    · simp only [List.flatMap_cons, List.append_assoc]
      exact List.perm_middle
    · simp only [List.flatMap_cons]
      exact ((pushEntry_perm c es).append_left cs).trans List.perm_middle

theorem push_perm (s : Shelf W) (c : Clause W) : (s.push c).clauses.Perm (c :: s.clauses) := pushEntry_perm c s.entries

theorem mem_push {s : Shelf W} {c d : Clause W} : d ∈ (s.push c).clauses ↔ d = c ∨ d ∈ s.clauses := by
  rw [(push_perm s c).mem_iff, List.mem_cons]

theorem pushEntry_keys (c : Clause W) : ∀ es : List (Predicate × List (Clause W)),
    (pushEntry c es).map Prod.fst = if c.head.predicate ∈ es.map Prod.fst then es.map Prod.fst
      else es.map Prod.fst ++ [c.head.predicate]
  | [] => rfl
  | (p, cs) :: es => by
    rw [pushEntry]
    by_cases hp : p = c.head.predicate
    · simp [hp]
    · have hne : c.head.predicate ≠ p := fun e => hp e.symm
      rw [if_neg hp, List.map_cons, pushEntry_keys c es]
      simp only [List.map_cons, List.mem_cons, hne, false_or]
      split <;> rfl

theorem sorted_empty : (empty : Shelf W).Sorted := ⟨List.nodup_nil, fun _ he => nomatch he⟩

theorem Sorted.push {s : Shelf W} (h : s.Sorted) (c : Clause W) : (s.push c).Sorted := by
  constructor
  · show ((pushEntry c s.entries).map Prod.fst).Nodup
    rw [pushEntry_keys]
    split
    · exact h.nodup
    · rename_i hc
      exact List.nodup_append.2 ⟨h.nodup, by simp, fun p hp q hq e => hc (by rw [← List.mem_singleton.1 hq, ← e]; exact hp)⟩
  · have key : ∀ es : List (Predicate × List (Clause W)), (∀ e ∈ es, ∀ d ∈ e.2, d.head.predicate = e.1) →
        ∀ e ∈ pushEntry c es, ∀ d ∈ e.2, d.head.predicate = e.1 := by
      intro es
      induction es with
      | nil =>
        intro _ e he d hd
        rw [List.mem_singleton.1 he] at hd ⊢
        rw [List.mem_singleton.1 hd]
      | cons x es ih =>
        obtain ⟨p, cs⟩ := x
        intro hes e he d hd
        rw [pushEntry] at he
        split at he
        · rename_i hp
          rcases List.mem_cons.1 he with rfl | he
          · rcases List.mem_append.1 hd with hd | hd
            · exact hes (p, cs) List.mem_cons_self d hd
            · rw [List.mem_singleton.1 hd, hp]
          · exact hes e (List.mem_cons_of_mem _ he) d hd
        · rcases List.mem_cons.1 he with rfl | he
          · exact hes (p, cs) List.mem_cons_self d hd
          · exact ih (fun e he => hes e (List.mem_cons_of_mem _ he)) e he d hd
    exact key s.entries h.under

end Shelf

/-! ## The clauses that are kept -/

namespace Clause

variable [Weight W]

structure KeptFact (c : Clause W) : Prop where
  body     : c.body = []
  grounded : c.head.isGrounded = true
  plain    : c.head.isPlain = true
  positive : c.head.isNegated = false
  ordinary : c.head.isPrimitive = false
  proper   : Weight.isProper c.head.weight = true

structure KeptRule (c : Clause W) : Prop where
  plain      : c.isPlain = true
  positive   : c.head.isNegated = false
  ordinary   : c.head.isPrimitive = false
  certain    : c.head.weight = 1
  nonempty   : c.body ≠ []
  body       : ∀ l ∈ c.body, l.weight = 1
  restricted : (∀ l ∈ c.body, l.isPrimitive = false) → c.RangeRestricted

end Clause

namespace KnowledgeBase

variable [Weight W]

/-! ## What is accepted -/

/-- Nothing is wrong with the weights and the head of a clause. -/
structure Admissible (c : Clause W) : Prop where
  positive : c.head.isNegated = false
  proper   : Weight.isProper c.head.weight = true
  certain  : ∀ l ∈ c.body, l.isCertain = true

theorem refusal_eq_none_iff {c : Clause W} :
    refusal c = none ↔ Admissible c ∧ (c.body = [] → c.head.isGrounded = true) := by
  have hbody : c.body.find? (fun l => !l.isCertain) = none ↔ ∀ l ∈ c.body, l.isCertain = true := by
    simp only [List.find?_eq_none, Bool.not_eq_true, Bool.not_eq_false']
  constructor
  · intro h
    unfold refusal at h
    split at h
    · cases h
    · rename_i hneg
      split at h
      · cases h
      · rename_i hproper
        split at h
        · cases h
        · rename_i hfind
          refine ⟨⟨by simpa using hneg, by simpa using hproper, hbody.1 hfind⟩, fun hempty => ?_⟩
          rw [hempty] at h
          simpa using h
  · rintro ⟨h, hground⟩
    unfold refusal
    rw [if_neg (by simp [h.positive]), if_neg (by simp [h.proper]), hbody.2 h.certain]
    refine if_neg (fun hopen => ?_)
    rw [Bool.and_eq_true, List.isEmpty_iff, Bool.not_eq_true'] at hopen
    rw [hground hopen.1] at hopen
    cases hopen.2

/-- **What comes of telling a clause that is not refused**: it is passed over, kept as a fact, or checked, put in order
and kept as a rule. -/
theorem tell_eq_ok_iff {kb kb' : KnowledgeBase W} {c : Clause W} {isNew : Bool} : kb.tell c = .ok (isNew, kb') ↔
    c.head.isPrimitive = true ∧ (isNew, kb') = (false, kb) ∨
    c.head.isPrimitive = false ∧ Admissible c ∧
      (c.body = [] ∧ c.head.isGrounded = true ∧ (isNew, kb') = kb.storeFact c ∨
        c.body ≠ [] ∧ c.checkRule kb.registry = .ok () ∧
          ∃ d, c.reorder kb.registry = .ok d ∧ (isNew, kb') = kb.keepRule d) := by
  unfold KnowledgeBase.tell
  cases hprim : c.head.isPrimitive with
  | true =>
    simp only [if_true, Except.ok.injEq, true_and, Bool.true_eq_false, false_and, or_false]
    exact eq_comm
  | false =>
    simp only [Bool.false_eq_true, if_false, false_and, true_and, false_or]
    cases href : refusal c with
    | some e =>
      refine ⟨fun h => (by cases h), ?_⟩
      rintro ⟨hadm, hrest⟩
      have hnone : refusal c = none := refusal_eq_none_iff.2 ⟨hadm, fun hempty => ?_⟩
      · rw [hnone] at href
        cases href
      · rcases hrest with ⟨-, hground, -⟩ | ⟨hne, -⟩
        · exact hground
        · exact absurd hempty hne
    | none =>
      obtain ⟨hadm, hground⟩ := refusal_eq_none_iff.1 href
      dsimp only
      split
      · rename_i hempty
        have hnil : c.body = [] := List.isEmpty_iff.1 hempty
        simp only [hadm, hnil, hground hnil, Except.ok.injEq, true_and, ne_eq, not_true_eq_false, false_and, or_false]
        exact eq_comm
      · rename_i hempty
        have hne : c.body ≠ [] := fun e => hempty (by rw [e]; rfl)
        simp only [hadm, hne, false_and, true_and, ne_eq, not_false_eq_true, false_or]
        cases hcheck : c.checkRule kb.registry with
        | error e => exact ⟨fun h => (by cases h), fun h => (by cases h.1)⟩
        | ok u =>
          cases hord : c.reorder kb.registry with
          | error e => exact ⟨fun h => (by cases h), fun ⟨_, d, hd, _⟩ => (by cases hd)⟩
          | ok d =>
            refine ⟨fun h => ⟨rfl, d, rfl, ?_⟩, ?_⟩
            · injection h with h
              exact h.symm
            · rintro ⟨-, d', hd, e⟩
              injection hd with hd
              rw [hd, e]
              rfl

theorem tellAll_cons_eq_ok_iff {kb kb' : KnowledgeBase W} {c : Clause W} {cs : List (Clause W)} {n : Nat} :
    kb.tellAll (c :: cs) = (.ok n, kb') ↔ ∃ isNew kb₁ m, kb.tell c = .ok (isNew, kb₁) ∧ kb₁.tellAll cs = (.ok m, kb') ∧
      n = if isNew then m + 1 else m := by
  constructor
  · intro h
    unfold KnowledgeBase.tellAll at h
    split at h
    · cases h
    · rename_i isNew kb₁ htell
      split at h
      · rename_i m kb₂ hrest
        obtain ⟨e, rfl⟩ := Prod.mk.inj h
        exact ⟨isNew, kb₁, m, htell, hrest, (Except.ok.inj e).symm⟩
      · cases h
  · rintro ⟨isNew, kb₁, m, htell, hrest, rfl⟩
    unfold KnowledgeBase.tellAll
    rw [htell]
    dsimp only
    rw [hrest]

/-! ## The primitives stay -/

theorem registry_storeFact (kb : KnowledgeBase W) (c : Clause W) : (kb.storeFact c).2.registry = kb.registry := by
  unfold KnowledgeBase.storeFact
  split <;> rfl

theorem registry_keepRule (kb : KnowledgeBase W) (c : Clause W) : (kb.keepRule c).2.registry = kb.registry := by
  unfold KnowledgeBase.keepRule
  split
  · rfl
  · split
    · rfl
    · exact registry_storeFact _ _

theorem registry_tell {kb kb' : KnowledgeBase W} {c : Clause W} {isNew : Bool} (h : kb.tell c = .ok (isNew, kb')) :
    kb'.registry = kb.registry := by
  obtain ⟨-, e⟩ | ⟨-, -, ⟨-, -, e⟩ | ⟨-, -, d, -, e⟩⟩ := tell_eq_ok_iff.1 h
  · rw [show kb' = kb from congrArg Prod.snd e]
  · rw [show kb' = (kb.storeFact c).2 from congrArg Prod.snd e, registry_storeFact]
  · rw [show kb' = (kb.keepRule d).2 from congrArg Prod.snd e, registry_keepRule]

/-! ## What is kept -/

/-- **What holds of a knowledge base however it was built.** -/
structure Kept (kb : KnowledgeBase W) : Prop where
  facts : kb.facts.Sorted
  rules : kb.rules.Sorted
  fact  : ∀ c ∈ kb.facts.clauses, c.KeptFact
  rule  : ∀ c ∈ kb.rules.clauses, c.KeptRule
  seen  : ∀ c ∈ kb.facts.clauses, kb.seen.contains c.key = true
  nodup : (kb.facts.clauses.map Clause.key).Nodup

/-- The knowledge bases that come of telling plain clauses and loading texts. -/
inductive Built : KnowledgeBase W → Prop
  | empty (registry : Registry) : Built (.empty registry)
  | tell {kb kb' : KnowledgeBase W} {c : Clause W} {isNew : Bool} : Built kb → c.isPlain = true →
    kb.tell c = .ok (isNew, kb') → Built kb'
  | load {kb : KnowledgeBase W} (text : String) : Built kb → Built (kb.load text).2

variable {kb kb' : KnowledgeBase W}

theorem kept_empty (registry : Registry) : (empty registry : KnowledgeBase W).Kept :=
  ⟨Shelf.sorted_empty, Shelf.sorted_empty, (fun _ hc => nomatch hc), (fun _ hc => nomatch hc), (fun _ hc => nomatch hc),
    List.nodup_nil⟩

theorem Kept.storeFact (h : kb.Kept) {c : Clause W} (hc : c.KeptFact) : (kb.storeFact c).2.Kept := by
  unfold KnowledgeBase.storeFact
  split
  · exact h
  · rename_i hseen
    refine ⟨h.facts.push c, h.rules, fun d hd => ?_, h.rule, fun d hd => ?_, ?_⟩
    · rcases Shelf.mem_push.1 hd with rfl | hd
      · exact hc
      · exact h.fact d hd
    · show (kb.seen.insert c.key).contains d.key = true
      rw [Std.HashSet.contains_insert, Bool.or_eq_true, beq_iff_eq]
      rcases Shelf.mem_push.1 hd with rfl | hd
      · exact .inl rfl
      · exact .inr (h.seen d hd)
    · refine (((Shelf.push_perm kb.facts c).map Clause.key).nodup_iff).2 (List.nodup_cons.2 ⟨fun hm => ?_, h.nodup⟩)
      obtain ⟨d, hd, e⟩ := List.mem_map.1 hm
      exact hseen (e ▸ h.seen d hd)

theorem Kept.storeRule (h : kb.Kept) {c : Clause W} (hc : c.KeptRule) : (kb.storeRule c).Kept := by
  refine ⟨h.facts, h.rules.push c, h.fact, fun d hd => ?_, fun d hd => ?_, h.nodup⟩
  · rcases Shelf.mem_push.1 hd with rfl | hd
    · exact hc
    · exact h.rule d hd
  · show (kb.seen.insert c.key).contains d.key = true
    rw [Std.HashSet.contains_insert, h.seen d hd, Bool.or_true]

/-- What is counted and marked as seen does not matter. -/
theorem Kept.mark (h : kb.Kept) (k : Nat × String) (n : Nat) :
    ({ kb with seen := kb.seen.insert k, nextWeight := n } : KnowledgeBase W).Kept := by
  refine ⟨h.facts, h.rules, h.fact, h.rule, fun d hd => ?_, h.nodup⟩
  show (kb.seen.insert k).contains d.key = true
  rw [Std.HashSet.contains_insert, h.seen d hd, Bool.or_true]

/-! ## Rule weights -/

omit [Weight W] in
theorem isPlain_weightLiteral (kb : KnowledgeBase W) (w : W) : (kb.weightLiteral w).isPlain = true ∧
    (kb.weightLiteral w).isNegated = false ∧ (kb.weightLiteral w).isPrimitive = false := by
  have hlist : (weightMark ++ toString kb.nextWeight).toList =
      'p' :: (['r', 'o', 'b', 'a', '_'] ++ (toString kb.nextWeight).toList) := by
    rw [String.toList_append]
    rfl
  have hname : Predicate.isName (weightMark ++ toString kb.nextWeight) = true := by
    have hdigits : (toString kb.nextWeight).toList.all Grammar.isNameChar = true := by
      refine List.all_eq_true.2 (fun c hc => ?_)
      simp [Grammar.isNameChar, Char.isAlphanum, Text.isDigit_of_mem_toString hc]
    rw [Predicate.isName, hlist]
    simp only [List.all_append, hdigits, Bool.and_true]
    decide
  have hneg : (kb.weightLiteral w).predicate.isNegated = false := Predicate.isName.not_negated hname
  have hbase := Predicate.base_of_not_isNegated hneg
  refine ⟨?_, hneg, ?_⟩
  · simp only [Literal.isPlain, Literal.isWellFormed, Bool.and_eq_true]
    refine ⟨⟨?_, rfl⟩, rfl⟩
    rw [Predicate.isPlain, hbase]
    exact hname
  · rw [Literal.isPrimitive, Predicate.isPrimitive, hbase]
    show Text.startsWith Predicate.primitiveMark (weightMark ++ toString kb.nextWeight) = false
    rw [Text.startsWith, hlist]
    rfl

theorem keptFact_weight (kb : KnowledgeBase W) {w : W} (hw : Weight.isProper w = true) :
    (Clause.fact (kb.weightLiteral w)).KeptFact := by
  obtain ⟨h1, h2, h3⟩ := isPlain_weightLiteral kb w
  exact ⟨rfl, rfl, h1, h2, h3, hw⟩

/-- A rule asks for its weight last. -/
theorem keptRule_weight (kb : KnowledgeBase W) {c : Clause W} (hplain : c.isPlain = true) (hpos : c.head.isNegated = false)
    (hord : c.head.isPrimitive = false) (hbody : ∀ l ∈ c.body, l.weight = 1)
    (hres : (∀ l ∈ c.body, l.isPrimitive = false) → c.RangeRestricted) :
    (⟨{ c.head with weight := 1 }, c.body ++ [kb.weightLiteral 1]⟩ : Clause W).KeptRule := by
  obtain ⟨hc1, hc2, hc3⟩ := isPlain_weightLiteral kb 1
  refine ⟨?_, hpos, hord, rfl, by simp, fun l hl => ?_, fun hprim => ?_⟩
  · simp only [Clause.isPlain, Bool.and_eq_true, List.all_append, List.all_cons, List.all_nil] at hplain ⊢
    exact ⟨hplain.1, hplain.2, hc1, trivial⟩
  · rcases List.mem_append.1 hl with hl | hl
    · exact hbody l hl
    · rw [List.mem_singleton.1 hl]
      rfl
  · have hr := hres (fun l hl => hprim l (List.mem_append_left _ hl))
    constructor
    · intro v hv
      obtain ⟨l, hl, hn, hvl⟩ := hr.head v hv
      exact ⟨l, List.mem_append_left _ hl, hn, hvl⟩
    · intro pre n post hsplit hn v hv
      rcases List.eq_nil_or_concat post with rfl | ⟨post', last, rfl⟩
      · -- the new literal stands last, and it is no negation
        have e := (List.append_inj_right' hsplit rfl)
        injection e with e _
        rw [← e, hc2] at hn
        cases hn
      · have e : c.body ++ [kb.weightLiteral 1] = (pre ++ n :: post') ++ [last] := by simpa using hsplit
        exact hr.negation pre n post' (List.append_inj_left' e rfl) hn v hv

variable [LawfulWeight W]

theorem Kept.keepRule (h : kb.Kept) {c : Clause W} (hplain : c.isPlain = true) (hpos : c.head.isNegated = false)
    (hord : c.head.isPrimitive = false) (hproper : Weight.isProper c.head.weight = true) (hne : c.body ≠ [])
    (hbody : ∀ l ∈ c.body, l.weight = 1)
    (hres : (∀ l ∈ c.body, l.isPrimitive = false) → c.RangeRestricted) : (kb.keepRule c).2.Kept := by
  unfold KnowledgeBase.keepRule
  split
  · exact h
  · split
    · rename_i hcert
      exact (h.mark c.key kb.nextWeight).storeRule ⟨hplain, hpos, hord, (LawfulWeight.isCertain_iff _).1 hcert, hne, hbody, hres⟩
    · exact ((h.mark c.key (kb.nextWeight + 1)).storeFact (keptFact_weight _ hproper)).storeRule
        (keptRule_weight _ hplain hpos hord hbody hres)

theorem Kept.tell (h : kb.Kept) {c : Clause W} {isNew : Bool} (hplain : c.isPlain = true)
    (ht : kb.tell c = .ok (isNew, kb')) : kb'.Kept := by
  obtain ⟨-, e⟩ | ⟨hprim, hadm, ⟨hbody, hground, e⟩ | ⟨hne, hcheck, d, hord, e⟩⟩ := tell_eq_ok_iff.1 ht
  · rw [show kb' = kb from congrArg Prod.snd e]
    exact h
  · rw [show kb' = (kb.storeFact c).2 from congrArg Prod.snd e]
    have hp := hplain
    rw [Clause.isPlain, Bool.and_eq_true] at hp
    exact h.storeFact ⟨hbody, hground, hp.1, hadm.positive, hprim, hadm.proper⟩
  · rw [show kb' = (kb.keepRule d).2 from congrArg Prod.snd e]
    obtain ⟨hhead, hmem⟩ := Clause.mem_reorder hord
    refine h.keepRule (Building.isPlain_reorder hord hplain) (by rw [hhead]; exact hadm.positive) (by rw [hhead]; exact hprim)
      (by rw [hhead]; exact hadm.proper) (fun hd => hne ?_)
      (fun l hl => (LawfulWeight.isCertain_iff _).1 (hadm.certain l ((hmem l).1 hl)))
      (fun hp => Clause.rangeRestricted_of_reorder hcheck hord (fun l hl => hp l ((hmem l).2 hl)))
    exact List.eq_nil_iff_forall_not_mem.2 (fun l hl => by simpa [hd] using (hmem l).2 hl)

omit [LawfulWeight W] in
/-- **What telling a clause keeps, telling many of them keeps**, whichever clauses these are. -/
theorem tellAll_induction {Q : Clause W → Prop} {P : KnowledgeBase W → Prop}
    (htell : ∀ {kb kb' : KnowledgeBase W} {c : Clause W} {isNew : Bool}, P kb → Q c → kb.tell c = .ok (isNew, kb') → P kb') :
    ∀ (cs : List (Clause W)) {kb : KnowledgeBase W}, P kb → (∀ c ∈ cs, Q c) → P (kb.tellAll cs).2
  | [],      _,  h, _ => h
  | c :: cs, kb, h, hcs => by
    unfold KnowledgeBase.tellAll
    split
    · exact h
    · rename_i isNew kb' ht
      have := tellAll_induction htell cs (htell h (hcs c List.mem_cons_self) ht) (fun d hd => hcs d (List.mem_cons_of_mem _ hd))
      split
      · rename_i e
        rw [e] at this
        exact this
      · rename_i e
        rw [e] at this
        exact this

omit [LawfulWeight W] in
/-- Loading a text is telling its clauses. -/
theorem load_eq {text : String} {p : Program W} (h : Program.read kb.registry text = .ok p) :
    (kb.load text).2 = (kb.tellAll p.clauses).2 := by
  unfold KnowledgeBase.load
  rw [h]
  dsimp only
  split
  · rename_i e
    rw [e]
  · rename_i e
    rw [e]

omit [LawfulWeight W] in
theorem load_eq_of_error {text : String} {e : Error} (h : Program.read (W := W) kb.registry text = .error e) :
    (kb.load text).2 = kb := by
  unfold KnowledgeBase.load
  rw [h]

omit [LawfulWeight W] in
/-- So loading a text keeps what telling plain clauses keeps. -/
theorem load_induction {P : KnowledgeBase W → Prop} (htell : ∀ {kb kb' : KnowledgeBase W} {c : Clause W} {isNew : Bool},
    P kb → c.isPlain = true → kb.tell c = .ok (isNew, kb') → P kb') (h : P kb) (text : String) : P (kb.load text).2 := by
  cases hp : Program.read (W := W) kb.registry text with
  | error e =>
    rw [load_eq_of_error hp]
    exact h
  | ok p =>
    rw [load_eq hp]
    exact tellAll_induction htell p.clauses h (Program.isPlain_of_read hp).1

/-- **Whatever was told and loaded, what is kept is in order.** -/
theorem Built.kept (h : Built kb) : kb.Kept := by
  induction h with
  | empty registry => exact kept_empty registry
  | tell _ hc ht ih => exact ih.tell hc ht
  | load text _ ih => exact load_induction (fun h hc ht => h.tell hc ht) ih text

end KnowledgeBase

/-! ## The vocabulary of some literals -/

namespace Vocabulary

variable [Weight W]

theorem base_positive {p : Predicate} (h : p.isPlain = true) : p.positive.base = p.base :=
  Predicate.base_of_not_isNegated (Predicate.isName.not_negated h)

variable [LawfulWeight W]

/-- The words that some literals are written in, with some weights. -/
def ofLiterals (ls : List (Literal W)) (ws : List W) (hplain : ∀ l ∈ ls, l.isPlain = true)
    (hord : ∀ l ∈ ls, l.isPrimitive = false) (hws : ∀ w ∈ ws, Weight.isProper w = true) : Vocabulary W where
  predicates := (ls.flatMap (fun l => [l.predicate, l.predicate.positive])).toFinset
  constants := (ls.flatMap (fun l => l.terms.filterMap Term.const?)).toFinset
  weights := {w | w = 1 ∨ w ∈ ws}
  finite := (Set.finite_singleton (1 : W)).union ws.finite_toSet
  plain p hp := by
    rw [List.mem_toFinset, List.mem_flatMap] at hp
    obtain ⟨l, hl, hp⟩ := hp
    have hpl := Literal.isPlain.predicate (hplain l hl)
    simp only [List.mem_cons, List.not_mem_nil, or_false] at hp
    rcases hp with rfl | rfl
    · exact hpl
    · rw [Predicate.isPlain, base_positive hpl]
      exact hpl
  ordinary p hp := by
    rw [List.mem_toFinset, List.mem_flatMap] at hp
    obtain ⟨l, hl, hp⟩ := hp
    have hpl := Literal.isPlain.predicate (hplain l hl)
    simp only [List.mem_cons, List.not_mem_nil, or_false] at hp
    rcases hp with rfl | rfl
    · exact hord l hl
    · rw [Predicate.isPrimitive, base_positive hpl]
      exact hord l hl
  base p hp := by
    rw [List.mem_toFinset, List.mem_flatMap] at hp ⊢
    obtain ⟨l, hl, hp⟩ := hp
    have hpl := Literal.isPlain.predicate (hplain l hl)
    refine ⟨l, hl, ?_⟩
    simp only [List.mem_cons, List.not_mem_nil, or_false] at hp ⊢
    rcases hp with rfl | rfl
    · exact .inr rfl
    · refine .inr ?_
      rw [base_positive hpl]
      rfl
  constant c hc := by
    rw [List.mem_toFinset, List.mem_flatMap] at hc
    obtain ⟨l, hl, hc⟩ := hc
    obtain ⟨t, ht, e⟩ := List.mem_filterMap.1 hc
    have := Literal.isPlain.terms (hplain l hl) t ht
    cases t with
    | const d =>
      injection e with e
      exact e ▸ this
    | var v => cases e
  proper w hw := by
    rcases hw with rfl | hw
    · exact LawfulWeight.isProper_one
    · exact hws w hw
  certain := .inl rfl

theorem hasLiteral_ofLiterals {ls : List (Literal W)} {ws : List W} {hplain : ∀ l ∈ ls, l.isPlain = true}
    {hord : ∀ l ∈ ls, l.isPrimitive = false} {hws : ∀ w ∈ ws, Weight.isProper w = true} {l : Literal W} (hl : l ∈ ls)
    {n : Nat} (hn : ∀ v, Term.var v ∈ l.terms → v.wildcard = true ∨ v.id < n) :
    (ofLiterals ls ws hplain hord hws).HasLiteral n l := by
  refine ⟨?_, Literal.isPlain.wellFormed (hplain l hl), fun t ht => ?_⟩
  · exact List.mem_toFinset.2 (List.mem_flatMap.2 ⟨l, hl, List.mem_cons_self⟩)
  · cases t with
    | const c => exact List.mem_toFinset.2 (List.mem_flatMap.2 ⟨l, hl, List.mem_filterMap.2 ⟨_, ht, rfl⟩⟩)
    | var v => exact hn v ht

theorem mem_ofLiterals {ls : List (Literal W)} {ws : List W} {hplain : ∀ l ∈ ls, l.isPlain = true}
    {hord : ∀ l ∈ ls, l.isPrimitive = false} {hws : ∀ w ∈ ws, Weight.isProper w = true} {p : Predicate} :
    p ∈ (ofLiterals ls ws hplain hord hws).predicates ↔ ∃ l ∈ ls, p = l.predicate ∨ p = l.predicate.positive := by
  simp only [ofLiterals, List.mem_toFinset, List.mem_flatMap, List.mem_cons, List.not_mem_nil, or_false]

omit [Weight W] [LawfulWeight W] in
theorem exists_bound (l : Literal W) : ∃ n, ∀ v, Term.var v ∈ l.terms → v.wildcard = true ∨ v.id < n := by
  induction l.terms with
  | nil => exact ⟨0, fun v hv => nomatch hv⟩
  | cons t ts ih =>
    obtain ⟨n, hn⟩ := ih
    cases t with
    | const c =>
      refine ⟨n, fun v hv => ?_⟩
      rcases List.mem_cons.1 hv with e | hv
      · cases e
      · exact hn v hv
    | var u =>
      refine ⟨max n (u.id + 1), fun v hv => ?_⟩
      rcases List.mem_cons.1 hv with e | hv
      · injection e with e
        exact .inr (by rw [e]; omega)
      · exact (hn v hv).imp_right (fun h => by omega)

end Vocabulary

namespace KnowledgeBase

variable [Weight W] [LawfulWeight W] {kb : KnowledgeBase W}

/-- The literals of a program and of a query. -/
def literals (kb : KnowledgeBase W) (q : Literal W) : List (Literal W) :=
  q :: (kb.facts.clauses.map Clause.head ++ kb.rules.clauses.flatMap (fun c => c.head :: c.body))

section

variable {q : Literal W} {c : Clause W}

omit [Weight W] [LawfulWeight W]

theorem mem_literals_fact (hc : c ∈ kb.facts.clauses) : c.head ∈ kb.literals q :=
  List.mem_cons_of_mem _ (List.mem_append_left _ (List.mem_map_of_mem hc))

theorem mem_literals_rule (hc : c ∈ kb.rules.clauses) {l : Literal W} (hl : l = c.head ∨ l ∈ c.body) : l ∈ kb.literals q :=
  List.mem_cons_of_mem _ (List.mem_append_right _ (List.mem_flatMap.2 ⟨c, hc, List.mem_cons.2 hl⟩))

end

omit [LawfulWeight W] in
theorem Kept.plain_literals (h : kb.Kept) (hprim : ∀ c ∈ kb.rules.clauses, ∀ l ∈ c.body, l.isPrimitive = false)
    {q : Literal W} (hq : q.isPlain = true) (hqp : q.isPrimitive = false) :
    ∀ l ∈ kb.literals q, l.isPlain = true ∧ l.isPrimitive = false := by
  intro l hl
  rcases List.mem_cons.1 hl with rfl | hl
  · exact ⟨hq, hqp⟩
  rcases List.mem_append.1 hl with hl | hl
  · obtain ⟨c, hc, rfl⟩ := List.mem_map.1 hl
    exact ⟨(h.fact c hc).plain, (h.fact c hc).ordinary⟩
  · obtain ⟨c, hc, hl⟩ := List.mem_flatMap.1 hl
    have hpl := (h.rule c hc).plain
    simp only [Clause.isPlain, Bool.and_eq_true, List.all_eq_true] at hpl
    rcases List.mem_cons.1 hl with rfl | hl
    · exact ⟨hpl.1, (h.rule c hc).ordinary⟩
    · exact ⟨hpl.2 l hl, hprim c hc l hl⟩

/-- **Without primitives and wildcards in heads, what is kept is in order**, over the words of its literals and of one
more. -/
theorem Kept.exists_regular (h : kb.Kept) (hprim : ∀ c ∈ kb.rules.clauses, ∀ l ∈ c.body, l.isPrimitive = false)
    (hwild : ∀ c ∈ kb.rules.clauses, ∀ t ∈ c.head.terms, t.isWildcard = false) {q : Literal W} (hq : q.isPlain = true)
    (hqp : q.isPrimitive = false) : ∃ V : Vocabulary W, kb.Regular V ∧ (∃ n, V.HasLiteral n q) ∧
      ∀ p ∈ V.predicates, ∃ l ∈ kb.literals q, p = l.predicate ∨ p = l.predicate.positive := by
  let ls : List (Literal W) := kb.literals q
  have hfact : ∀ c ∈ kb.facts.clauses, c.head ∈ ls := fun c hc =>
    List.mem_cons_of_mem _ (List.mem_append_left _ (List.mem_map_of_mem hc))
  have hrule : ∀ c ∈ kb.rules.clauses, ∀ l ∈ c.head :: c.body, l ∈ ls := fun c hc l hl =>
    List.mem_cons_of_mem _ (List.mem_append_right _ (List.mem_flatMap.2 ⟨c, hc, hl⟩))
  have hls := h.plain_literals hprim hq hqp
  have hws : ∀ w ∈ kb.facts.clauses.map (fun c => c.head.weight), Weight.isProper w = true := by
    intro w hw
    obtain ⟨c, hc, rfl⟩ := List.mem_map.1 hw
    exact (h.fact c hc).proper
  let V := Vocabulary.ofLiterals ls _ (fun l hl => (hls l hl).1) (fun l hl => (hls l hl).2) hws
  have hhas : ∀ l ∈ ls, ∃ n, V.HasLiteral n l := by
    intro l hl
    obtain ⟨n, hn⟩ := Vocabulary.exists_bound l
    exact ⟨n, Vocabulary.hasLiteral_ofLiterals hl hn⟩
  refine ⟨V, ⟨h.facts, h.rules, fun c hc => ?_, fun c hc => ?_⟩, hhas q List.mem_cons_self,
    fun p hp => Vocabulary.mem_ofLiterals.1 hp⟩
  · have hf := h.fact c hc
    obtain ⟨a, ha⟩ := Literal.exists_atom hf.grounded
    have hzero : V.HasLiteral 0 c.head := by
      refine Vocabulary.hasLiteral_ofLiterals (hfact c hc) (fun v hv => ?_)
      have := List.all_eq_true.1 hf.grounded _ hv
      cases this
    refine ⟨a, c.head.weight, ?_, ha ▸ hzero, .inr (List.mem_map_of_mem hc), ?_⟩
    · have hb := hf.body
      cases c
      simp only at hb ha
      rw [Clause.fact, ← ha, hb]
    · have hp : a.predicate = c.head.predicate := by rw [ha]; rfl
      rw [hp]
      exact hf.positive
  · have hr := h.rule c hc
    exact ⟨hhas _ (hrule c hc _ List.mem_cons_self), hr.positive, hr.certain, hwild c hc, hr.nonempty,
      fun l hl => ⟨hhas l (hrule c hc l (List.mem_cons_of_mem _ hl)), hr.body l hl⟩, hr.restricted (hprim c hc)⟩

theorem Kept.regular (h : kb.Kept) (hprim : ∀ c ∈ kb.rules.clauses, ∀ l ∈ c.body, l.isPrimitive = false)
    (hwild : ∀ c ∈ kb.rules.clauses, ∀ t ∈ c.head.terms, t.isWildcard = false) {q : Literal W} (hq : q.isPlain = true)
    (hqp : q.isPrimitive = false) : ∃ V : Vocabulary W, kb.Regular V ∧ ∃ n, V.HasLiteral n q := by
  obtain ⟨V, hreg, hlit, -⟩ := h.exists_regular hprim hwild hq hqp
  exact ⟨V, hreg, hlit⟩

end KnowledgeBase
end Credence
