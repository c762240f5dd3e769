import Credence.KnowledgeBase.Compact
import Credence.Proofs.Backing
/-!
# Programs in plain words

Telling plain clauses, loading texts and writing definitions out make programs whose facts are plain and have no
variables, and whose rules are plain, have a body and are not about primitives (`KnowledgeBase.Made.formed`).
-/
namespace Credence

variable {W : Type}

theorem Shelf.mem_set {s : Shelf W} {p : Predicate} {i : Nat} {c d : Clause W} (h : d ∈ (s.set p i c).clauses) :
    d = c ∨ d ∈ s.clauses := by
  obtain ⟨e, he, hd⟩ := List.mem_flatMap.1 h
  obtain ⟨e', he', rfl⟩ := List.mem_map.1 he
  split at hd
  · exact (List.mem_or_eq_of_mem_set hd).symm.imp id (fun hd => List.mem_flatMap.2 ⟨e', he', hd⟩)
  · exact .inr (List.mem_flatMap.2 ⟨e', he', hd⟩)

theorem Shelf.mem_of_get {s : Shelf W} {p : Predicate} {i : Nat} {c : Clause W} (h : (s.get p)[i]? = some c) :
    c ∈ s.clauses := (s.get_sublist p).mem (List.mem_of_getElem? h)

namespace Clause

structure PlainFact (c : Clause W) : Prop where
  body     : c.body = []
  grounded : c.head.isGrounded = true
  plain    : c.head.isPlain = true

structure PlainRule (c : Clause W) : Prop where
  head     : c.head.isPlain = true
  literal  : ∀ l ∈ c.body, l.isPlain = true
  body     : c.body ≠ []
  ordinary : c.head.isPrimitive = false

end Clause

/-- Plain names and constants, and rules about what is no primitive and no rule weight. -/
def Standard.plain : Standard where
  name p := p.isPlain = true
  constant c := c.isPlain = true
  head p := p.isPrimitive = false ∧ (!p.isNegated && Text.startsWith KnowledgeBase.weightMark p.name) = false
  fitted := True
  ground := False
  legible := True

theorem Standard.allows_plain_iff {l : Literal W} : Standard.plain.Allows l ↔ l.isPlain = true := by
  constructor
  · intro h
    simp only [Literal.isPlain, Bool.and_eq_true, List.all_eq_true]
    refine ⟨⟨h.name, h.wellFormed trivial⟩, fun t ht => ?_⟩
    cases t with
    | const c => exact h.constant c ht
    | var v => rfl
  · exact fun h =>
      ⟨Literal.isPlain.predicate h, fun _ => Literal.isPlain.wellFormed h, fun c hc => Literal.isPlain.terms h _ hc⟩

/-! ## A definition in the place of a literal -/

/-- The rule `merged` is `referrer` with the body of `definition` in the place of `target`, which leaves the literals in
`rest`. -/
structure Merges (referrer definition merged : Clause W) (target : Literal W) (rest : List (Literal W)) (s : Subst) :
    Prop where
  unify : target.unify definition.head = some s
  split : ∀ l, l ∈ referrer.body ↔ l = target ∨ l ∈ rest
  head  : merged.head = referrer.head.subst s
  body  : ∀ m, m ∈ merged.body ↔ ∃ l, (l ∈ definition.body ∨ l ∈ rest) ∧ l.subst s = m

theorem Merges.reorder [Weight W] {referrer definition m merged : Clause W} {target : Literal W} {rest : List (Literal W)}
    {s : Subst} {r : Registry} (h : Merges referrer definition m target rest s) (hord : m.reorder r = .ok merged) :
    Merges referrer definition merged target rest s := by
  obtain ⟨hhead, hmem⟩ := Clause.mem_reorder hord
  exact ⟨h.unify, h.split, hhead.trans h.head, fun l => (hmem l).trans (h.body l)⟩

theorem Merges.plainRule {referrer definition merged : Clause W} {target : Literal W} {rest : List (Literal W)} {s : Subst}
    (h : Merges referrer definition merged target rest s) (hr : referrer.PlainRule) (hd : definition.PlainRule) :
    merged.PlainRule := by
  have htarget := Standard.allows_plain_iff.2 (hr.literal target ((h.split target).2 (.inl rfl)))
  have hsubst : ∀ l : Literal W, l.isPlain = true → (l.subst s).isPlain = true := fun l hl =>
    Standard.allows_plain_iff.1 ((Standard.allows_plain_iff.2 hl).subst h.unify htarget.constant
      (Standard.allows_plain_iff.2 hd.head).constant)
  refine ⟨by rw [h.head]; exact hsubst _ hr.head, fun m hm => ?_, fun e => ?_, ?_⟩
  · obtain ⟨l, hl | hl, rfl⟩ := (h.body m).1 hm
    · exact hsubst l (hd.literal l hl)
    · exact hsubst l (hr.literal l ((h.split l).2 (.inr hl)))
  · obtain ⟨l, hl⟩ := List.exists_mem_of_ne_nil _ hd.body
    have := (h.body (l.subst s)).2 ⟨l, .inl hl, rfl⟩
    rw [e] at this
    cases this
  · rw [h.head, Literal.isPrimitive, Literal.subst_predicate]
    exact hr.ordinary

/-! ## How programs are made -/

namespace KnowledgeBase

variable [Weight W]

/-- The knowledge bases that come of telling plain clauses, of loading texts, of writing definitions out, and of
changing the primitives. -/
inductive Made : KnowledgeBase W → Prop
  | empty (registry : Registry) : Made (.empty registry)
  | tell {kb kb' : KnowledgeBase W} {c : Clause W} {isNew : Bool} : Made kb → c.isPlain = true →
    kb.tell c = .ok (isNew, kb') → Made kb'
  | load {kb : KnowledgeBase W} (text : String) : Made kb → Made (kb.load text).2
  | compact {kb : KnowledgeBase W} : Made kb → Made kb.compact.2
  | equip {kb : KnowledgeBase W} (registry : Registry) : Made kb → Made { kb with registry := registry }

theorem Built.made {kb : KnowledgeBase W} (h : kb.Built) : kb.Made := by
  induction h with
  | empty registry => exact .empty registry
  | tell _ hc ht ih => exact .tell ih hc ht
  | load text _ ih => exact .load text ih

/-- The clauses of a program are plain. -/
structure Formed (kb : KnowledgeBase W) : Prop where
  fact : ∀ c ∈ kb.facts.clauses, c.PlainFact
  rule : ∀ c ∈ kb.rules.clauses, c.PlainRule

variable {kb kb' : KnowledgeBase W} {c : Clause W}

theorem Formed.storeFact (h : kb.Formed) (hc : c.PlainFact) : (kb.storeFact c).2.Formed := by
  unfold KnowledgeBase.storeFact
  split
  · exact h
  · exact ⟨fun d hd => (Shelf.mem_push.1 hd).elim (fun e => e ▸ hc) (h.fact d), h.rule⟩

theorem Formed.storeRule (h : kb.Formed) (hc : c.PlainRule) : (kb.storeRule c).Formed :=
  ⟨h.fact, fun d hd => (Shelf.mem_push.1 hd).elim (fun e => e ▸ hc) (h.rule d)⟩

theorem Formed.keepRule (h : kb.Formed) (hc : c.PlainRule) : (kb.keepRule c).2.Formed := by
  unfold KnowledgeBase.keepRule
  split
  · exact h
  · split
    · exact Formed.storeRule ⟨h.fact, h.rule⟩ hc
    · refine Formed.storeRule (Formed.storeFact ⟨h.fact, h.rule⟩ ⟨rfl, rfl, (isPlain_weightLiteral _ _).1⟩)
        ⟨hc.head, fun l hl => ?_, by simp, hc.ordinary⟩
      rcases List.mem_append.1 hl with hl | hl
      · exact hc.literal l hl
      · rw [List.mem_singleton.1 hl]
        exact (isPlain_weightLiteral _ _).1

theorem Formed.tell {isNew : Bool} (h : kb.Formed) (hc : c.isPlain = true) (ht : kb.tell c = .ok (isNew, kb')) :
    kb'.Formed := by
  rw [Clause.isPlain, Bool.and_eq_true, List.all_eq_true] at hc
  rcases tell_cases ht with rfl | ⟨hord, -, ⟨hbody, hg, rfl⟩ | ⟨hbody, -, d, hd, rfl⟩⟩
  · exact h
  · exact h.storeFact ⟨hbody, hg, hc.1⟩
  · obtain ⟨hhead, hmem⟩ := Clause.mem_reorder hd
    refine h.keepRule ⟨by rw [hhead]; exact hc.1, fun l hl => hc.2 l ((hmem l).1 hl), fun e => hbody ?_,
      by rw [hhead]; exact hord⟩
    exact List.eq_nil_iff_forall_not_mem.2 (fun l hl => by simpa [e] using (hmem l).2 hl)

/-! ## Compaction -/

/-- The rule that comes of writing `definition` out in the place of the `i`-th literal, before it is put in order. -/
def draft? (referrer definition : Clause W) (i : Nat) : Option (Clause W) :=
  ((referrer.body[i]?).bind (fun l => l.unify definition.head)).map (fun s =>
    (Clause.mk referrer.head (referrer.body.take i ++ definition.body ++ referrer.body.drop (i + 1))).subst s)

theorem inline_eq (registry : Registry) (referrer definition : Clause W) (i : Nat) :
    inline registry referrer definition i =
      match draft? referrer definition i with
      | none   => .ok none
      | some m => (m.reorder registry).map some := by
  unfold inline draft?
  cases (referrer.body[i]?).bind (fun l => l.unify definition.head) <;> rfl

omit [Weight W] in
theorem merges_of_draft? {referrer definition m : Clause W} {i : Nat} (h : draft? referrer definition i = some m) :
    ∃ target rest s, Merges referrer definition m target rest s := by
  obtain ⟨s, hs, rfl⟩ := Option.map_eq_some_iff.1 h
  obtain ⟨target, htarget, hunify⟩ := Option.bind_eq_some_iff.1 hs
  refine ⟨target, referrer.body.take i ++ referrer.body.drop (i + 1), s, hunify, fun l => ?_, rfl, fun m => ?_⟩
  · obtain ⟨hi, hti⟩ := List.getElem?_eq_some_iff.1 htarget
    conv_lhs => rw [← List.take_append_drop i referrer.body, List.drop_eq_getElem_cons hi, hti]
    simp only [List.mem_append, List.mem_cons]
    exact or_left_comm
  · simp only [Clause.subst, List.mem_map, List.mem_append]
    exact exists_congr (fun l => and_congr_left (fun _ => or_assoc.trans or_left_comm))

/-- **What a step does**: nothing but take variables from the pool, or to give up over a rule that cannot be put in order,
or to put a rule in the place of the referring one. -/
theorem inlineAt_spec (kb : KnowledgeBase W) (q : Predicate) (site : Site) :
    (∃ pool : VarPool, kb.pool.issued ≤ pool.issued ∧ kb.inlineAt q site = (.ok false, { kb with pool := pool })) ∨
    ∃ definition referrer m, (kb.rules.get q)[0]? = some definition ∧
      (kb.rules.get site.predicate)[site.rule]? = some referrer ∧
      draft? referrer (definition.rename kb.pool).1 site.literal = some m ∧
      ((∃ e, m.reorder kb.registry = .error e ∧
          kb.inlineAt q site = (.error e, { kb with pool := (definition.rename kb.pool).2 })) ∨
        ∃ merged, m.reorder kb.registry = .ok merged ∧
          kb.inlineAt q site = (.ok true,
            { kb with
              pool := (definition.rename kb.pool).2
              seen := (kb.seen.erase referrer.key).insert merged.key
              rules := kb.rules.set site.predicate site.rule merged })) := by
  unfold KnowledgeBase.inlineAt
  split
  · rename_i definition referrer hd hr
    obtain ⟨f, hren, -⟩ := definition.rename_spec kb.pool
    simp only [inline_eq]
    cases hm : draft? referrer (definition.rename kb.pool).1 site.literal with
    | none => exact .inl ⟨_, hren.le, rfl⟩
    | some m =>
      refine .inr ⟨definition, referrer, m, hd, hr, hm, ?_⟩
      cases hord : m.reorder kb.registry with
      | error e => exact .inl ⟨e, rfl, by simp only [hord]; rfl⟩
      | ok merged => exact .inr ⟨merged, rfl, by simp only [hord]; rfl⟩
  · exact .inl ⟨kb.pool, le_rfl, rfl⟩

theorem registry_inlineAt (kb : KnowledgeBase W) (q : Predicate) (site : Site) :
    (kb.inlineAt q site).2.registry = kb.registry := by
  rcases kb.inlineAt_spec q site with ⟨_, -, e⟩ | ⟨_, _, _, -, -, -, ⟨_, -, e⟩ | ⟨_, -, e⟩⟩ <;> rw [e]

omit [Weight W] in
theorem plainRule_rename (hc : c.PlainRule) (pool : VarPool) : (c.rename pool).1.PlainRule := by
  obtain ⟨f, -, hhead, hbody⟩ := c.rename_spec pool
  refine ⟨?_, fun l hl => ?_, fun e => hc.body ?_, ?_⟩
  · exact Standard.allows_plain_iff.1 ((Standard.allows_plain_iff.2 hc.head).copy hhead)
  · obtain ⟨m, hm, hcopy⟩ := forall₂_exists_left hbody hl
    exact Standard.allows_plain_iff.1 ((Standard.allows_plain_iff.2 (hc.literal m hm)).copy hcopy)
  · have hlen := hbody.length_eq
    rw [e] at hlen
    exact List.length_eq_zero_iff.1 hlen
  · rw [Literal.isPrimitive, hhead.predicate]
    exact hc.ordinary

theorem Formed.inlineAt (h : kb.Formed) (p : Predicate) (site : Site) : (kb.inlineAt p site).2.Formed := by
  rcases kb.inlineAt_spec p site with ⟨pool, -, e⟩ | ⟨definition, referrer, m, hd, hr, hm, ⟨_, -, e⟩ | ⟨merged, hord, e⟩⟩
  · exact e ▸ ⟨h.fact, h.rule⟩
  · exact e ▸ ⟨h.fact, h.rule⟩
  · rw [e]
    refine ⟨h.fact, fun d hset => ?_⟩
    rcases Shelf.mem_set hset with rfl | hset
    · obtain ⟨target, rest, s, hmerge⟩ := merges_of_draft? hm
      exact (hmerge.reorder hord).plainRule (h.rule referrer (Shelf.mem_of_get hr))
        (plainRule_rename (h.rule definition (Shelf.mem_of_get hd)) kb.pool)
    · exact h.rule d hset

/-- **What writing one definition out keeps, compaction keeps.** -/
theorem compactWithin_induction {P : KnowledgeBase W → Prop} (hstep : ∀ {kb : KnowledgeBase W} {q : Predicate} {site : Site}
    {tried : List Predicate}, P kb → kb.nextInline? tried = some (q, site) → P (kb.inlineAt q site).2) :
    ∀ (tries : Nat) (tried : List Predicate) {kb : KnowledgeBase W}, P kb → P (compactWithin tries tried kb).2
  | 0,         _,     _,  h => h
  | tries + 1, tried, kb, h => by
    unfold KnowledgeBase.compactWithin
    split
    · exact h
    · rename_i q site hnext
      have hsite := hstep h hnext
      split
      · rename_i e
        rw [e] at hsite
        exact hsite
      · rename_i did kb' e
        rw [e] at hsite
        have := compactWithin_induction hstep tries (q :: tried) hsite
        split
        · rename_i e
          rw [e] at this
          exact this
        · rename_i e
          rw [e] at this
          exact this

/-- **However a program was made, its clauses are plain.** -/
theorem Made.formed (h : Made kb) : kb.Formed := by
  induction h with
  | empty registry => exact ⟨(fun _ hc => nomatch hc), (fun _ hc => nomatch hc)⟩
  | tell _ hc ht ih => exact ih.tell hc ht
  | load text _ ih => exact load_induction (fun h hc ht => h.tell hc ht) ih text
  | compact _ ih => exact compactWithin_induction (fun h _ => h.inlineAt _ _) _ _ ih
  | equip registry _ ih => exact ⟨ih.fact, ih.rule⟩

end KnowledgeBase
end Credence
