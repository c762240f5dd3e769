import Credence.Proofs.Compaction
/-!
# Whatever is asked of a knowledge base

Clauses told one by one or in a row, texts, and compaction, in any order and with whatever fails among them: every fact
that is kept is ground and properly weighted, every rule is certain and has a body of certain literals, and both stand
under the predicate of their head (`stocked_of_requests`).

That a rule binds what it uses is seen to when it is told.  Compaction puts the body of a definition in the place of a
literal without a second look.  It does no harm when the definition's head names its variables (`Merges.checkRule`): then
what the literal bound is bound by the body that stands in its place.  A wildcard in that head binds nothing, and the
rule may be left with a variable that nothing binds.
-/
namespace Credence

variable {W : Type}

/-! ## What an instance of a literal binds and needs -/

section

variable {r : Registry} {l : Literal W} {s : Subst} {v w : Var}

namespace Literal

theorem arguments_subst (r : Registry) (l : Literal W) (s : Subst) :
    (l.subst s).outputs r = (l.outputs r).map s.chase ∧ (l.subst s).inputs r = (l.inputs r).map s.chase := by
  have hprimitive : (l.subst s).primitive? = l.primitive? := congrArg Predicate.primitive? (subst_predicate l s)
  have hnegated : (l.subst s).isNegated = l.isNegated := congrArg Predicate.isNegated (subst_predicate l s)
  unfold outputs inputs
  rw [hprimitive, hnegated, subst_terms]
  cases l.primitive? with
  | none => cases l.isNegated <;> exact ⟨rfl, rfl⟩
  | some name =>
    dsimp only
    cases r.kind name with
    | test => exact ⟨rfl, rfl⟩
    | function => exact ⟨List.map_take.symm, List.map_drop.symm⟩

end Literal

namespace Flow

/-- What a literal binds, its instance binds. -/
theorem mem_produces_subst (hs : Subst.Triangular s.bindings) (hv : v ∈ (Flow.of r l).produces)
    (hvw : s.chase (.var v) = .var w) (hw : w.wildcard = false) : w ∈ (Flow.of r (l.subst s)).produces := by
  rw [mem_produces_iff, (Literal.arguments_subst r l s).1, Subst.varsOf_map_chase hs]
  exact ⟨hw, v, mem_produces_iff.1 hv, hvw⟩

/-- What an instance needs comes from what the literal needs. -/
theorem exists_of_mem_consumes_subst (hs : Subst.Triangular s.bindings) (hw : w ∈ (Flow.of r (l.subst s)).consumes) :
    w.wildcard = false ∧ ∃ v ∈ (Flow.of r l).consumes, s.chase (.var v) = .var w := by
  obtain ⟨houtputs, hinputs⟩ := Literal.arguments_subst r l s
  rw [mem_consumes_iff, hinputs, houtputs, Subst.varsOf_map_chase hs, Subst.varsOf_map_chase hs] at hw
  obtain ⟨⟨hww, v, hv, e⟩, hout⟩ := hw
  exact ⟨hww, v, mem_consumes_iff.2 ⟨hv, fun hv' => hout ⟨hww, v, hv', e⟩⟩, e⟩

end Flow

end

/-! ## The check of a merged rule -/

/-- A rule that says for each argument of its head what it is. -/
structure Clause.Named (c : Clause W) : Prop where
  wellFormed : c.IsWellFormed
  head       : ∀ t ∈ c.head.terms, t.isWildcard = false

namespace Merges

variable {referrer definition merged : Clause W} {target : Literal W} {rest : List (Literal W)} {s : Subst} {r : Registry}

theorem named (h : Merges referrer definition merged target rest s) (hr : referrer.Named) (hd : definition.Named) :
    merged.Named := by
  have hsubst : ∀ {l : Literal W}, l.isWellFormed = true → (l.subst s).isWellFormed = true := by
    intro l hl
    rw [Literal.isWellFormed_iff] at hl ⊢
    rw [Literal.subst_terms, Literal.subst_predicate, List.length_map, hl]
  refine ⟨⟨h.head ▸ hsubst hr.wellFormed.1, fun m hm => ?_⟩, fun t ht => ?_⟩
  · obtain ⟨l, hl | hl, rfl⟩ := (h.body m).1 hm
    · exact hsubst (hd.wellFormed.2 l hl)
    · exact hsubst (hr.wellFormed.2 l ((h.split l).2 (.inr hl)))
  · rw [h.head] at ht
    exact subst_closed_wildcard h.triangular hr.head t ht

variable [Weight W]

/-- **A definition that names its variables can be written out without harm**: the rule that comes of it passes the check
that the two passed. -/
theorem checkRule (h : Merges referrer definition merged target rest s) (hr : referrer.Named) (hd : definition.Named)
    (hcr : referrer.checkRule r = .ok ()) (hcd : definition.checkRule r = .ok ()) : merged.checkRule r = .ok () := by
  obtain ⟨hrsafe, hrfed⟩ := Clause.checkRule_ok_iff.1 hcr
  obtain ⟨hdsafe, hdfed⟩ := Clause.checkRule_ok_iff.1 hcd
  have htarget := (h.split target).2 (.inl rfl)
  -- what the target binds is bound by the definition's body in its place
  have hplace : ∀ {x y : Var}, VarsOf target.terms x → s.chase (.var x) = .var y → ∃ k ∈ definition.body, ∃ z,
      VarsOf k.terms z ∧ s.chase (.var z) = .var y := by
    intro x y hx hxy
    obtain ⟨z, hz, hzy⟩ := h.exists_var (hr.wellFormed.2 target htarget) hd.wellFormed.1 hd.head hx hxy
    obtain ⟨k, hk, hkz⟩ := hdsafe z (Literal.mem_vars_iff.2 hz)
    exact ⟨k, hk, z, Literal.mem_vars_iff.1 hkz, hzy⟩
  have hbound : ∀ {l : Literal W} {v y : Var}, (l ∈ definition.body ∨ l ∈ rest) → v ∈ (Flow.of r l).produces →
      s.chase (.var v) = .var y → y.wildcard = false → ∃ m ∈ merged.body, y ∈ (Flow.of r m).produces :=
    fun hl hv hvy hy => ⟨_, (h.body _).2 ⟨_, hl, rfl⟩, Flow.mem_produces_subst h.triangular hv hvy hy⟩
  have hdef : ∀ {l : Literal W} {v y : Var}, l ∈ definition.body → VarsOf l.terms v → s.chase (.var v) = .var y →
      y.wildcard = false → ∃ m ∈ merged.body, y ∈ (Flow.of r m).produces := by
    intro l v y hl hv hvy hy
    rcases Flow.mem_of_varsOf (r := r) hv with hv | hv
    · exact hbound (.inl hl) hv hvy hy
    · obtain ⟨k, hk, hkv⟩ := hdfed l hl v hv
      exact hbound (.inl hk) hkv hvy hy
  refine Clause.checkRule_ok_iff.2 ⟨fun y hy => ?_, fun m hm y hy => ?_⟩
  · rw [Literal.mem_vars_iff, h.head, Literal.varsOf_subst_iff h.triangular] at hy
    obtain ⟨hyw, x, hx, hxy⟩ := hy
    have hshow : ∀ {l : Literal W} {v : Var}, (l ∈ definition.body ∨ l ∈ rest) → VarsOf l.terms v →
        s.chase (.var v) = .var y → ∃ m ∈ merged.body, y ∈ m.vars := fun hl hv hvy =>
      ⟨_, (h.body _).2 ⟨_, hl, rfl⟩, Literal.mem_vars_iff.2 ((Literal.varsOf_subst_iff h.triangular).2 ⟨hyw, _, hv, hvy⟩)⟩
    obtain ⟨l, hl, hlx⟩ := hrsafe x (Literal.mem_vars_iff.2 hx)
    rw [Literal.mem_vars_iff] at hlx
    rcases (h.split l).1 hl with rfl | hl
    · obtain ⟨k, hk, z, hkz, hzy⟩ := hplace hlx hxy
      exact hshow (.inl hk) hkz hzy
    · exact hshow (.inr hl) hlx hxy
  · obtain ⟨l, hl, rfl⟩ := (h.body m).1 hm
    obtain ⟨hyw, v, hv, hvy⟩ := Flow.exists_of_mem_consumes_subst h.triangular hy
    rcases hl with hl | hl
    · obtain ⟨k, hk, hkv⟩ := hdfed l hl v hv
      exact hbound (.inl hk) hkv hvy hyw
    · obtain ⟨k, hk, hkv⟩ := hrfed l ((h.split l).2 (.inr hl)) v hv
      rcases (h.split k).1 hk with rfl | hk
      · obtain ⟨k', hk', z, hz, hzy⟩ := hplace (Flow.varsOf_of_mem_produces hkv) hvy
        exact hdef hk' hz hzy hyw
      · exact hbound (.inr hk) hkv hvy hyw

end Merges

/-! ## Writing a definition out -/

namespace Clause

variable {c c' definition referrer merged : Clause W} {f : Var → Var} {low high : Nat} {r : Registry}

theorem Named.copy (hc : c.Named) (h : Clause.Copy f c c') (hf : Relabeling c.VarsIn f low high) : c'.Named := by
  have hwf : ∀ {l l' : Literal W}, Literal.Copy f l l' → l.isWellFormed = true → l'.isWellFormed = true := by
    intro l l' hcp hl
    rw [Literal.isWellFormed_iff] at hl ⊢
    rw [hcp.predicate, ← hl, hcp.terms.length_eq]
  refine ⟨⟨hwf h.head hc.wellFormed.1, fun l' hl' => ?_⟩, h.head.closed hf (fun v hv => .inl hv) hc.head⟩
  obtain ⟨l, hl, hcp⟩ := forall₂_exists_left h.body hl'
  exact hwf hcp (hc.wellFormed.2 l hl)

/-- The rule `merged` comes of writing `definition` out, in variables of its own, in `referrer`. -/
def WrittenOut (definition referrer merged : Clause W) : Prop :=
  ∃ copy f low high, Relabeling definition.VarsIn f low high ∧ Clause.Copy f definition copy ∧
    ∃ target rest s, Merges referrer copy merged target rest s

theorem WrittenOut.named (h : definition.WrittenOut referrer merged) (hr : referrer.Named) (hd : definition.Named) :
    merged.Named := by
  obtain ⟨copy, f, low, high, hf, hcopy, target, rest, s, hm⟩ := h
  exact hm.named hr (hd.copy hcopy hf)

theorem WrittenOut.checkRule [Weight W] (h : definition.WrittenOut referrer merged) (hr : referrer.Named)
    (hd : definition.Named) (hcr : referrer.checkRule r = .ok ()) (hcd : definition.checkRule r = .ok ()) :
    merged.checkRule r = .ok () := by
  obtain ⟨copy, f, low, high, hf, hcopy, target, rest, s, hm⟩ := h
  exact hm.checkRule hr (hd.copy hcopy hf) hcr (checkRule_copy hcopy hf hcd)

end Clause

/-! ## What is kept of a clause -/

section Kept

variable [Weight W]

namespace Clause

/-- What holds of every fact that is kept. -/
structure FitFact (c : Clause W) : Prop where
  body     : c.body = []
  grounded : c.head.isGrounded = true
  positive : c.head.isNegated = false
  ordinary : c.head.isPrimitive = false
  proper   : Weight.isProper c.head.weight = true

/-- What holds of every rule that is kept. -/
structure FitRule (c : Clause W) : Prop where
  positive : c.head.isNegated = false
  ordinary : c.head.isPrimitive = false
  certain  : c.head.weight = 1
  nonempty : c.body ≠ []
  body     : ∀ l ∈ c.body, l.weight = 1

theorem KeptFact.fit {c : Clause W} (h : c.KeptFact) : c.FitFact := ⟨h.body, h.grounded, h.positive, h.ordinary, h.proper⟩

/-- The rule `d` is kept for `c`: it has the literals of `c` in some order, and may ask for a rule weight besides. -/
structure KeptAs (c d : Clause W) : Prop where
  head : d.head = { c.head with weight := 1 }
  body : ∃ asked : List (Literal W), (∀ l ∈ asked, ∃ kb : KnowledgeBase W, l = kb.weightLiteral 1) ∧
    ∀ l, l ∈ d.body ↔ l ∈ c.body ∨ l ∈ asked

theorem FitRule.writtenOut {definition referrer merged : Clause W} (hd : definition.FitRule) (hr : referrer.FitRule)
    (h : definition.WrittenOut referrer merged) : merged.FitRule := by
  obtain ⟨copy, f, low, high, -, hcopy, target, rest, s, hm⟩ := h
  refine ⟨?_, ?_, ?_, fun e => ?_, fun m hmb => ?_⟩
  · rw [hm.head, Clause.subst_isNegated]
    exact hr.positive
  · rw [hm.head, Literal.isPrimitive, Literal.subst_predicate]
    exact hr.ordinary
  · rw [hm.head, Literal.subst_weight]
    exact hr.certain
  · obtain ⟨l, hl⟩ := List.exists_mem_of_ne_nil _ hd.nonempty
    obtain ⟨l', hl', -⟩ := forall₂_exists_right hcopy.body hl
    have := (hm.body (l'.subst s)).2 ⟨l', .inl hl', rfl⟩
    rw [e] at this
    cases this
  · obtain ⟨l', hl | hl, rfl⟩ := (hm.body m).1 hmb
    · obtain ⟨l, hl, hcp⟩ := forall₂_exists_left hcopy.body hl
      rw [Literal.subst_weight, hcp.weight]
      exact hd.body l hl
    · rw [Literal.subst_weight]
      exact hr.body l' ((hm.split l').2 (.inr hl))

namespace KeptAs

variable {c d : Clause W} {r : Registry}

theorem fit [LawfulWeight W] (h : c.KeptAs d) (hc : KnowledgeBase.Admissible c) (hord : c.head.isPrimitive = false)
    (hne : c.body ≠ []) : d.FitRule := by
  obtain ⟨asked, hasked, hmem⟩ := h.body
  refine ⟨by rw [h.head]; exact hc.positive, by rw [h.head]; exact hord, by rw [h.head], fun e => ?_, fun l hl => ?_⟩
  · obtain ⟨l, hl⟩ := List.exists_mem_of_ne_nil _ hne
    have := (hmem l).2 (.inl hl)
    rw [e] at this
    cases this
  · rcases (hmem l).1 hl with hl | hl
    · exact (LawfulWeight.isCertain_iff _).1 (hc.certain l hl)
    · obtain ⟨kb, rfl⟩ := hasked l hl
      rfl

theorem named (h : c.KeptAs d) (hc : c.Named) : d.Named := by
  obtain ⟨asked, hasked, hmem⟩ := h.body
  refine ⟨⟨by rw [h.head]; exact hc.wellFormed.1, fun l hl => ?_⟩, by rw [h.head]; exact hc.head⟩
  rcases (hmem l).1 hl with hl | hl
  · exact hc.wellFormed.2 l hl
  · obtain ⟨kb, rfl⟩ := hasked l hl
    rfl

theorem checkRule (h : c.KeptAs d) (hc : c.checkRule r = .ok ()) : d.checkRule r = .ok () := by
  obtain ⟨asked, hasked, hmem⟩ := h.body
  obtain ⟨hsafe, hfed⟩ := checkRule_ok_iff.1 hc
  refine checkRule_ok_iff.2 ⟨fun v hv => ?_, fun l hl v hv => ?_⟩
  · rw [h.head] at hv
    obtain ⟨l, hl, hlv⟩ := hsafe v hv
    exact ⟨l, (hmem l).2 (.inl hl), hlv⟩
  · rcases (hmem l).1 hl with hl | hl
    · obtain ⟨m, hm, hmv⟩ := hfed l hl v hv
      exact ⟨m, (hmem m).2 (.inl hm), hmv⟩
    · -- a rule weight has no variables to need
      obtain ⟨kb, rfl⟩ := hasked l hl
      obtain ⟨-, hmem⟩ := Flow.varsOf_of_mem_consumes hv
      cases List.mem_singleton.1 hmem

end KeptAs
end Clause

namespace KnowledgeBase

/-- What is in `kb'` and was not in `kb` are facts of the kind `F` and rules of the kind `R`. -/
structure Gains (F R : Clause W → Prop) (kb kb' : KnowledgeBase W) : Prop where
  registry : kb'.registry = kb.registry
  facts    : kb.facts.Sorted → kb'.facts.Sorted
  rules    : kb.rules.Sorted → kb'.rules.Sorted
  fact     : ∀ c ∈ kb'.facts.clauses, c ∈ kb.facts.clauses ∨ F c
  rule     : ∀ c ∈ kb'.rules.clauses, c ∈ kb.rules.clauses ∨ R c

namespace Gains

variable {F R : Clause W → Prop} {kb kb' kb'' : KnowledgeBase W} {c : Clause W}

omit [Weight W] in
theorem of_same (hreg : kb'.registry = kb.registry) (hf : kb'.facts = kb.facts) (hr : kb'.rules = kb.rules) :
    Gains F R kb kb' :=
  ⟨hreg, hf ▸ id, hr ▸ id, fun _ hc => .inl (hf ▸ hc), fun _ hc => .inl (hr ▸ hc)⟩

omit [Weight W] in
theorem trans (h : Gains F R kb kb') (h' : Gains F R kb' kb'') : Gains F R kb kb'' where
  registry := h'.registry.trans h.registry
  facts := fun hs => h'.facts (h.facts hs)
  rules := fun hs => h'.rules (h.rules hs)
  fact := fun c hc => (h'.fact c hc).elim (h.fact c) .inr
  rule := fun c hc => (h'.rule c hc).elim (h.rule c) .inr

theorem storeFact (kb : KnowledgeBase W) (hc : F c) : Gains F R kb (kb.storeFact c).2 := by
  unfold KnowledgeBase.storeFact
  split
  · exact .of_same rfl rfl rfl
  · exact ⟨rfl, fun h => h.push c, id, fun _ hd => (Shelf.mem_push.1 hd).elim (fun e => .inr (e ▸ hc)) .inl,
      fun _ hd => .inl hd⟩

theorem storeRule (kb : KnowledgeBase W) (hc : R c) : Gains F R kb (kb.storeRule c) :=
  ⟨rfl, id, fun h => h.push c, fun _ hd => .inl hd, fun _ hd => (Shelf.mem_push.1 hd).elim (fun e => .inr (e ▸ hc)) .inl⟩

theorem keepRule [LawfulWeight W] (kb : KnowledgeBase W) (hproper : Weight.isProper c.head.weight = true) :
    Gains Clause.FitFact c.KeptAs kb (kb.keepRule c).2 := by
  unfold KnowledgeBase.keepRule
  split
  · exact .of_same rfl rfl rfl
  · split
    · rename_i hcert
      have hc : c.KeptAs c := ⟨by rw [← (LawfulWeight.isCertain_iff _).1 hcert], [], by simp, by simp⟩
      refine .trans ?_ (.storeRule _ hc)
      exact .of_same rfl rfl rfl
    · have hc : c.KeptAs ⟨{ c.head with weight := 1 }, c.body ++ [kb.weightLiteral 1]⟩ :=
        ⟨rfl, [kb.weightLiteral 1], fun l hl => ⟨kb, List.mem_singleton.1 hl⟩, fun l => List.mem_append⟩
      refine .trans (.trans ?_ (.storeFact _ (keptFact_weight _ hproper).fit)) (.storeRule _ hc)
      exact .of_same rfl rfl rfl

/-- **What telling a clause adds**: facts that are fit, and a rule that stands for the clause, which passed all checks. -/
theorem of_tell [LawfulWeight W] {isNew : Bool} (h : kb.tell c = .ok (isNew, kb')) :
    Gains Clause.FitFact (fun d => d.FitRule ∧ c.KeptAs d ∧ c.body ≠ [] ∧ c.checkRule kb.registry = .ok ()) kb kb' := by
  obtain ⟨-, e⟩ | ⟨hprim, hadm, ⟨hbody, hground, e⟩ | ⟨hne, hcheck, d, hord, e⟩⟩ := tell_eq_ok_iff.1 h
  · rw [show kb' = kb from congrArg Prod.snd e]
    exact .of_same rfl rfl rfl
  · rw [show kb' = (kb.storeFact c).2 from congrArg Prod.snd e]
    exact .storeFact _ ⟨hbody, hground, hadm.positive, hprim, hadm.proper⟩
  · rw [show kb' = (kb.keepRule d).2 from congrArg Prod.snd e]
    obtain ⟨hhead, hmem⟩ := Clause.mem_reorder hord
    have hd := keepRule kb (c := d) (by rw [hhead]; exact hadm.proper)
    refine { hd with rule := fun x hx => (hd.rule x hx).imp_right (fun hx => ?_) }
    have hxc : c.KeptAs x := by
      obtain ⟨asked, hasked, hbody⟩ := hx.body
      exact ⟨by rw [hx.head, hhead], asked, hasked, fun l => (hbody l).trans (or_congr_left (hmem l))⟩
    exact ⟨hxc.fit hadm hprim hne, hxc, hne, hcheck⟩

end Gains

/-! ## Knowledge bases and requests -/

/-- What holds of the clauses of every knowledge base, and of where they stand. -/
structure Stocked (kb : KnowledgeBase W) : Prop where
  facts : kb.facts.Sorted
  rules : kb.rules.Sorted
  fact  : ∀ c ∈ kb.facts.clauses, c.FitFact
  rule  : ∀ c ∈ kb.rules.clauses, c.FitRule

variable {F R : Clause W → Prop} {kb kb' : KnowledgeBase W} {q : Predicate} {site : Site}

theorem stocked_empty (r : Registry) : (empty r : KnowledgeBase W).Stocked :=
  ⟨Shelf.sorted_empty, Shelf.sorted_empty, (fun _ hc => nomatch hc), (fun _ hc => nomatch hc)⟩

theorem Stocked.of_gains (h : kb.Stocked) (hg : Gains F R kb kb') (hF : ∀ c, F c → c.FitFact) (hR : ∀ c, R c → c.FitRule) :
    kb'.Stocked :=
  ⟨hg.facts h.facts, hg.rules h.rules, fun c hc => (hg.fact c hc).elim (h.fact c) (hF c),
    fun c hc => (hg.rule c hc).elim (h.rule c) (hR c)⟩

/-- **What writing a definition out adds**: a rule that comes of two rules of the knowledge base. -/
theorem Stocked.inlineAt (h : kb.Stocked) (hsite : kb.inlineSite? q = some site) :
    Gains (fun _ => False) (fun m => ∃ referrer ∈ kb.rules.clauses, ∃ definition ∈ kb.rules.clauses,
      definition.WrittenOut referrer m) kb (kb.inlineAt q site).2 := by
  rcases inlineAt_cases h.facts h.rules hsite with ⟨hf, hr, -⟩ | ⟨definition, referrer, merged, -, -, -, hi⟩
  · exact .of_same (registry_inlineAt kb q site) hf hr
  · refine ⟨registry_inlineAt kb q site, fun hs => hi.facts ▸ hs, fun _ => hi.sorted, fun c hc => .inl (hi.facts ▸ hc),
      fun c hc => ?_⟩
    rcases hi.holds c hc with rfl | hc
    · obtain ⟨f, low, high, hf, hhead, hbody⟩ := hi.copies
      exact .inr ⟨referrer, hi.refers, definition, hi.defined, _, f, low, high, hf, ⟨hhead, hbody⟩, hi.merges⟩
    · exact .inl hc

/-! ## Requests -/

end KnowledgeBase

/-- What a knowledge base is asked: to take clauses in, or to write definitions out. -/
inductive Request (W : Type)
  | tell (c : Clause W)
  | tellAll (cs : List (Clause W))
  | load (text : String)
  | compact

/-- The clauses that are told with a request, where the primitives are `r`. -/
def Request.clauses (r : Registry) : Request W → List (Clause W)
  | tell c     => [c]
  | tellAll cs => cs
  | load text  =>
    match Program.read r text with
    | .ok p    => p.clauses
    | .error _ => []
  | compact    => []

namespace KnowledgeBase

/-- The knowledge base after a request; one that fails leaves what was done until then. -/
def serve (kb : KnowledgeBase W) : Request W → KnowledgeBase W
  | .tell c     =>
    match kb.tell c with
    | .ok (_, kb) => kb
    | .error _    => kb
  | .tellAll cs => (kb.tellAll cs).2
  | .load text  => (kb.load text).2
  | .compact    => kb.compact.2

variable {r : Registry} {P : KnowledgeBase W → Prop}

/-- **What one clause and one step of compaction keep, every request keeps.** -/
theorem serve_induction {q : Request W} (hreg : ∀ {kb : KnowledgeBase W}, P kb → kb.registry = r)
    (htell : ∀ {kb kb' : KnowledgeBase W} {c : Clause W} {isNew : Bool}, P kb → c ∈ q.clauses r →
      kb.tell c = .ok (isNew, kb') → P kb')
    (hinline : q = .compact → ∀ {kb : KnowledgeBase W} {p : Predicate} {site : Site}, P kb → kb.inlineSite? p = some site →
      P (kb.inlineAt p site).2) {kb : KnowledgeBase W} (h : P kb) : P (kb.serve q) := by
  cases q with
  | tell c =>
    unfold serve
    dsimp only
    split
    · rename_i ht
      exact htell h List.mem_cons_self ht
    · exact h
  | tellAll cs => exact tellAll_induction htell cs h (fun c hc => hc)
  | load text =>
    unfold serve
    cases hp : Program.read (W := W) kb.registry text with
    | error e =>
      dsimp only
      rw [load_eq_of_error hp]
      exact h
    | ok p =>
      dsimp only
      rw [load_eq hp]
      refine tellAll_induction htell p.clauses h (fun c hc => ?_)
      rw [Request.clauses, ← hreg h, hp]
      exact hc
  | compact => exact compactWithin_induction (fun h hnext => hinline rfl h (inlineSite?_of_nextInline? hnext)) _ _ h

/-- **What requests keep**: the stock of facts and rules, and whatever of rules is kept when a clause that passed the check
is told and when a definition is written out. -/
theorem stocked_foldl_serve [LawfulWeight W] {P : Clause W → Prop} {qs : List (Request W)}
    (htell : ∀ q ∈ qs, ∀ c ∈ q.clauses r, ∀ d, c.body ≠ [] → c.KeptAs d → c.checkRule r = .ok () → P d)
    (hwrite : Request.compact ∈ qs → ∀ referrer definition merged, P referrer → P definition →
      definition.WrittenOut referrer merged → P merged)
    {kb : KnowledgeBase W} (hreg : kb.registry = r) (h : kb.Stocked) (hP : ∀ c ∈ kb.rules.clauses, P c) :
    (qs.foldl serve kb).Stocked ∧ ∀ c ∈ (qs.foldl serve kb).rules.clauses, P c := by
  have key : ∀ q ∈ qs, ∀ {kb : KnowledgeBase W}, (kb.registry = r ∧ kb.Stocked ∧ ∀ c ∈ kb.rules.clauses, P c) →
      (kb.serve q).registry = r ∧ (kb.serve q).Stocked ∧ ∀ c ∈ (kb.serve q).rules.clauses, P c := by
    intro q hq kb hkb
    refine serve_induction (P := fun kb => kb.registry = r ∧ kb.Stocked ∧ ∀ c ∈ kb.rules.clauses, P c) (r := r)
      (fun h => h.1) (fun h hc ht => ?_) (fun hcompact {kb p site} h hsite => ?_) hkb
    · obtain ⟨hreg, h, hP⟩ := h
      have hg := Gains.of_tell ht
      refine ⟨hg.registry.trans hreg, h.of_gains hg (fun _ hF => hF) (fun _ hR => hR.1), fun d hd => ?_⟩
      rcases hg.rule d hd with hd | ⟨-, hkept, hne, hcheck⟩
      · exact hP d hd
      · exact htell q hq _ hc d hne hkept (hreg ▸ hcheck)
    · obtain ⟨hreg, h, hP⟩ := h
      have hg := h.inlineAt hsite
      refine ⟨hg.registry.trans hreg, h.of_gains hg (fun _ hF => hF.elim) ?_, fun d hd => ?_⟩
      · rintro m ⟨referrer, hr, definition, hd, hm⟩
        exact (h.rule definition hd).writtenOut (h.rule referrer hr) hm
      · rcases hg.rule d hd with hd | ⟨referrer, hr, definition, hdef, hm⟩
        · exact hP d hd
        · exact hwrite (hcompact ▸ hq) referrer definition d (hP referrer hr) (hP definition hdef) hm
  clear htell hwrite
  induction qs generalizing kb with
  | nil => exact ⟨h, hP⟩
  | cons q qs ih =>
    obtain ⟨hreg, h, hP⟩ := key q List.mem_cons_self ⟨hreg, h, hP⟩
    exact ih hreg h hP (fun q hq => key q (List.mem_cons_of_mem _ hq))

/-- **What every knowledge base holds, whatever was asked of it.**  Its clauses are fit to be kept and stand under their
predicates.  Its rules pass the check, unless a definition was written out whose head has a wildcard for a variable. -/
theorem stocked_of_requests [LawfulWeight W] (r : Registry) (qs : List (Request W)) :
    (qs.foldl serve (empty r)).Stocked ∧
    ((Request.compact ∉ qs ∨ ∀ q ∈ qs, ∀ c ∈ q.clauses r, c.body ≠ [] → c.Named) →
      ∀ c ∈ (qs.foldl serve (empty r)).rules.clauses, c.checkRule r = .ok ()) := by
  have hnone : ∀ {P : Clause W → Prop}, ∀ c ∈ (empty r : KnowledgeBase W).rules.clauses, P c := fun c hc => nomatch hc
  refine ⟨(stocked_foldl_serve (P := fun _ => True) (fun _ _ _ _ _ _ _ _ => trivial) (fun _ _ _ _ _ _ _ => trivial) rfl
    (stocked_empty r) hnone).1, ?_⟩
  rintro (hcompact | hnamed)
  · exact (stocked_foldl_serve (P := fun c => c.checkRule r = .ok ()) (fun _ _ _ _ _ _ hkept hcheck => hkept.checkRule hcheck)
      (fun h => absurd h hcompact) rfl (stocked_empty r) hnone).2
  · have hrules := stocked_foldl_serve (P := fun c => c.Named ∧ c.checkRule r = .ok ())
      (fun q hq c hc _ hne hkept hcheck => ⟨hkept.named (hnamed q hq c hc hne), hkept.checkRule hcheck⟩)
      (fun _ _ _ _ hr hd hm => ⟨hm.named hr.1 hd.1, hm.checkRule hr.1 hd.1 hr.2 hd.2⟩) rfl (stocked_empty r) hnone
    exact fun c hc => (hrules.2 c hc).2

end KnowledgeBase

end Kept

theorem OneEdge.named : OneEdge.rule.Named ∧ OneEdge.visit.Named :=
  ⟨⟨⟨by decide, by decide⟩, by decide⟩, ⟨⟨by decide, by decide⟩, by decide⟩⟩

namespace OneEdge

/-- Both rules are told, and then paths are written out in visits. -/
def requests : List (Request ℚ) := [.tell rule, .tell visit, .compact]

end OneEdge

/-- Paths name their ends, so they can be written out in visits. -/
theorem KnowledgeBase.stocked_of_requests_visits :
    (∀ q ∈ OneEdge.requests, ∀ c ∈ q.clauses .empty, c.body ≠ [] → c.Named) ∧
      ∀ c ∈ (OneEdge.requests.foldl serve (empty .empty)).rules.clauses, c.checkRule .empty = .ok () := by
  have hnamed : ∀ q ∈ OneEdge.requests, ∀ c ∈ q.clauses .empty, c.body ≠ [] → c.Named := by
    intro q hq c hc _
    rcases List.mem_cons.1 hq with rfl | hq
    · rw [List.mem_singleton.1 hc]
      exact OneEdge.named.1
    rcases List.mem_cons.1 hq with rfl | hq
    · rw [List.mem_singleton.1 hc]
      exact OneEdge.named.2
    · rw [List.mem_singleton.1 hq] at hc
      cases hc
  exact ⟨hnamed, (stocked_of_requests .empty OneEdge.requests).2 (.inr hnamed)⟩

end Credence
