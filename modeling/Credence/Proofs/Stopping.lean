import Credence.Proofs.Making
import Credence.Proofs.Scheduling
/-!
# Where compaction stops

Compaction writes definitions out one after the other, and stops when no predicate is left that it has not tried, or at
a definition that cannot be written out because the rule that would come of it cannot be put in order
(`KnowledgeBase.compact_outcome`).  A definition that does not fit is passed over; one that closes a circle ends the
whole, and what has been written out until then stays.

Two rules in order may come to one that is not, since writing out makes variables the same.  It takes functions for
that: a literal that comes round to itself is fed by another and feeds another (`Clause.isFunction_of_transGen`).
-/
namespace Credence

variable {W : Type}

/-! ## What closes a circle -/

/-- A primitive that binds its first argument. -/
def Literal.IsFunction (r : Registry) (l : Literal W) : Prop := ∃ name, l.primitive? = some name ∧ r.kind name = .function

theorem Literal.isFunction_congr {r : Registry} {l l' : Literal W} (h : l'.predicate = l.predicate) :
    l'.IsFunction r ↔ l.IsFunction r := by
  rw [IsFunction, IsFunction, primitive?, primitive?, h]

namespace Flow

variable {r : Registry} {l : Literal W}

/-- Only a function is a primitive that feeds something. -/
theorem isFunction_of_produces (hrole : (Flow.of r l).role = .primitive) (h : (Flow.of r l).produces ≠ []) :
    l.IsFunction r := by
  delta Flow.of at hrole h
  cases hp : l.primitive? with
  | none =>
    rw [hp] at hrole
    dsimp only at hrole
    split at hrole <;> cases hrole
  | some name =>
    refine ⟨name, hp, ?_⟩
    rw [hp] at h
    dsimp only at h
    cases hk : r.kind name with
    | test =>
      rw [hk] at h
      exact absurd rfl h
    | function => rfl

/-- What runs before something is no negation, and a primitive only when it feeds it. -/
theorem of_precedes {f g : Flow} (h : f.precedes g = true) :
    f.role ≠ .negated ∧ g.role ≠ .ordinary ∧ (f.role = .primitive → f.produces ≠ []) := by
  unfold precedes at h
  have hfeeds : f.feeds g = true → f.produces ≠ [] := by
    intro hfg e
    simp [feeds, e] at hfg
  cases hf : f.role <;> cases hg : g.role <;> simp_all

end Flow

namespace Clause

variable {r : Registry} {c : Clause W}

/-- **A literal that comes round to itself is a function.** -/
theorem isFunction_of_transGen {i : Nat} (h : Relation.TransGen (c.Before r) i i) :
    ∃ l, c.body[i]? = some l ∧ l.IsFunction r := by
  obtain ⟨j, ⟨-, l, m, hl, -, hlm⟩, -⟩ := Relation.TransGen.head'_iff.1 h
  obtain ⟨k, -, ⟨-, n, l', -, hl', hnl⟩⟩ := Relation.TransGen.tail'_iff.1 h
  obtain rfl : l = l' := Option.some.inj (hl.symm.trans hl')
  obtain ⟨hneg, -, hproduces⟩ := Flow.of_precedes hlm
  obtain ⟨-, hord, -⟩ := Flow.of_precedes hnl
  have hrole : (Flow.of r l).role = .primitive := by
    revert hneg hord
    cases (Flow.of r l).role <;> simp
  exact ⟨l, hl, Flow.isFunction_of_produces hrole (hproduces hrole)⟩

theorem not_cyclic_of_body (h : ∀ l ∈ c.body, ¬ l.IsFunction r) : ¬ c.Cyclic r := by
  rintro ⟨i, hi⟩
  obtain ⟨l, hl, hfunction⟩ := isFunction_of_transGen hi
  exact h l (List.mem_of_getElem? hl) hfunction

end Clause

namespace KnowledgeBase

variable [Weight W] {kb kb' : KnowledgeBase W} {q : Predicate} {site : Site} {tried tried' : List Predicate}

/-- No rule has a function in its body. -/
def FunctionFree (kb : KnowledgeBase W) : Prop := ∀ c ∈ kb.rules.clauses, ∀ l ∈ c.body, ¬ l.IsFunction kb.registry

omit [Weight W] in
/-- What comes of rules without functions has none. -/
theorem FunctionFree.draft (h : kb.FunctionFree) {definition referrer m : Clause W} {i : Nat} {pool : VarPool}
    (hd : definition ∈ kb.rules.clauses) (hr : referrer ∈ kb.rules.clauses)
    (hm : draft? referrer (definition.rename pool).1 i = some m) : ∀ l ∈ m.body, ¬ l.IsFunction kb.registry := by
  obtain ⟨target, rest, s, hmerge⟩ := merges_of_draft? hm
  obtain ⟨f, -, -, hbody⟩ := definition.rename_spec pool
  intro l' hl'
  obtain ⟨l, hl | hl, rfl⟩ := (hmerge.body l').1 hl'
  · obtain ⟨l₀, hl₀, hcopy⟩ := forall₂_exists_left hbody hl
    rw [Literal.isFunction_congr (Literal.subst_predicate l s), Literal.isFunction_congr hcopy.predicate]
    exact h definition hd l₀ hl₀
  · rw [Literal.isFunction_congr (Literal.subst_predicate l s)]
    exact h referrer hr l ((hmerge.split l).2 (.inr hl))

theorem FunctionFree.inlineAt (h : kb.FunctionFree) (q : Predicate) (site : Site) : (kb.inlineAt q site).2.FunctionFree := by
  rcases kb.inlineAt_spec q site with ⟨pool, -, e⟩ | ⟨definition, referrer, m, hd, hr, hm, ⟨_, -, e⟩ | ⟨merged, hord, e⟩⟩
  · exact e ▸ h
  · exact e ▸ h
  · rw [e]
    intro c hc l hl
    rcases Shelf.mem_set hc with rfl | hc
    · exact h.draft (Shelf.mem_of_get hd) (Shelf.mem_of_get hr) hm l (((Clause.mem_reorder hord).2 l).1 hl)
    · exact h c hc l hl

/-! ## Steps -/

/-- The steps of compaction from `kb` to `kb'`: `n` definitions were written out, and all that was tried is `tried'`. -/
inductive Compacts : KnowledgeBase W → List Predicate → Nat → List Predicate → KnowledgeBase W → Prop
  | refl (kb : KnowledgeBase W) (tried : List Predicate) : Compacts kb tried 0 tried kb
  | head {kb kb₁ kb' : KnowledgeBase W} {tried tried' : List Predicate} {q : Predicate} {site : Site} {did : Bool} {n : Nat} :
    kb.nextInline? tried = some (q, site) → kb.inlineAt q site = (.ok did, kb₁) → Compacts kb₁ (q :: tried) n tried' kb' →
    Compacts kb tried (if did then n + 1 else n) tried' kb'

/-- The next definition would close a circle: the rule that comes of writing it out is `m`. -/
def Stuck (kb : KnowledgeBase W) (tried : List Predicate) (m : Clause W) : Prop :=
  ∃ q site definition referrer, kb.nextInline? tried = some (q, site) ∧ (kb.rules.get q)[0]? = some definition ∧
    (kb.rules.get site.predicate)[site.rule]? = some referrer ∧
    draft? referrer (definition.rename kb.pool).1 site.literal = some m ∧ m.Cyclic kb.registry

theorem Compacts.functionFree {n : Nat} (h : kb.Compacts tried n tried' kb') (hkb : kb.FunctionFree) : kb'.FunctionFree := by
  induction h with
  | refl kb tried => exact hkb
  | @head kb kb₁ kb' tried tried' q site did n hnext hstep _ ih =>
    have hfree := hkb.inlineAt q site
    rw [hstep] at hfree
    exact ih hfree

omit [Weight W] in
theorem FunctionFree.not_stuck (h : kb.FunctionFree) (m : Clause W) : ¬ kb.Stuck tried m := by
  rintro ⟨q, site, definition, referrer, -, hd, hr, hm, hcyclic⟩
  exact Clause.not_cyclic_of_body (h.draft (Shelf.mem_of_get hd) (Shelf.mem_of_get hr) hm) hcyclic

/-- A step is taken, or it is one that closes a circle. -/
theorem stuck_or_inlineAt (hnext : kb.nextInline? tried = some (q, site)) :
    (∃ did kb₁, kb.inlineAt q site = (.ok did, kb₁)) ∨
    ∃ m pool, kb.Stuck tried m ∧ kb.inlineAt q site = (.error (.cyclicBody m.text), { kb with pool := pool }) := by
  rcases kb.inlineAt_spec q site with ⟨pool, -, e⟩ | ⟨definition, referrer, m, hd, hr, hm, ⟨e', hord, e⟩ | ⟨merged, -, e⟩⟩
  · exact .inl ⟨_, _, e⟩
  · by_cases hcyclic : m.Cyclic kb.registry
    · rw [Clause.reorder_eq_error_iff.2 hcyclic] at hord
      obtain rfl := Except.error.inj hord
      exact .inr ⟨m, _, ⟨q, site, definition, referrer, hnext, hd, hr, hm, hcyclic⟩, e⟩
    · obtain ⟨order, hok, -⟩ := Clause.exists_order hcyclic
      rw [hok] at hord
      cases hord
  · exact .inl ⟨_, _, e⟩

/-! ## Enough tries -/

/-- What could be tried yet. -/
def untried (kb : KnowledgeBase W) (tried : List Predicate) : List Predicate :=
  kb.rules.predicates.filter (fun q => !tried.contains q)

omit [Weight W] in
theorem mem_untried (h : kb.nextInline? tried = some (q, site)) : q ∈ kb.untried tried := by
  obtain ⟨p, hp, e⟩ := List.exists_of_findSome?_eq_some h
  obtain ⟨site', -, e⟩ := Option.map_eq_some_iff.1 e
  obtain ⟨rfl, -⟩ := Prod.mk.inj e
  exact List.mem_mergeSort.1 hp

omit [Weight W] in
/-- What was tried is tried no more. -/
theorem length_untried_cons_lt (h : q ∈ kb.untried tried) : (kb.untried (q :: tried)).length < (kb.untried tried).length := by
  have hfilter : kb.untried (q :: tried) = (kb.untried tried).filter (fun p => p != q) := by
    rw [untried, untried, List.filter_filter]
    exact List.filter_congr (fun p _ => by rw [Bool.eq_iff_iff]; simp)
  rw [hfilter]
  exact List.length_filter_lt_length_iff_exists.2 ⟨q, h, by simp⟩

/-- Writing out adds no predicate and takes none away. -/
theorem predicates_inlineAt (kb : KnowledgeBase W) (q : Predicate) (site : Site) :
    (kb.inlineAt q site).2.rules.predicates = kb.rules.predicates := by
  rcases kb.inlineAt_spec q site with ⟨_, -, e⟩ | ⟨_, _, _, -, -, -, ⟨_, -, e⟩ | ⟨merged, -, e⟩⟩
  · rw [e]
  · rw [e]
  · rw [e]
    show (kb.rules.set site.predicate site.rule merged).entries.map Prod.fst = kb.rules.entries.map Prod.fst
    rw [Shelf.set, List.map_map]
    refine List.map_congr_left (fun p _ => ?_)
    simp only [Function.comp_apply]
    split <;> rfl

/-- **Compaction goes on to the end or to a circle**, when there is a try for each predicate that was not tried. -/
theorem compactWithin_outcome : ∀ (tries : Nat) (tried : List Predicate) (kb : KnowledgeBase W),
    (kb.untried tried).length ≤ tries → ∃ n tried' kb', kb.Compacts tried n tried' kb' ∧
      (kb'.nextInline? tried' = none ∧ compactWithin tries tried kb = (.ok n, kb') ∨
        ∃ m pool, kb'.Stuck tried' m ∧
          compactWithin tries tried kb = (.error (.cyclicBody m.text), { kb' with pool := pool }))
  | 0, tried, kb, hle => by
    refine ⟨0, tried, kb, .refl kb tried, .inl ⟨?_, rfl⟩⟩
    cases hnext : kb.nextInline? tried with
    | none => rfl
    | some p =>
      obtain ⟨q, site⟩ := p
      have hlt := length_untried_cons_lt (mem_untried hnext)
      omega
  | tries + 1, tried, kb, hle => by
    unfold compactWithin
    cases hnext : kb.nextInline? tried with
    | none => exact ⟨0, tried, kb, .refl kb tried, .inl ⟨hnext, rfl⟩⟩
    | some p =>
      obtain ⟨q, site⟩ := p
      dsimp only
      rcases stuck_or_inlineAt hnext with ⟨did, kb₁, e⟩ | ⟨m, pool, hstuck, e⟩
      · have hpredicates := predicates_inlineAt kb q site
        have hlt := length_untried_cons_lt (mem_untried hnext)
        rw [e] at hpredicates
        have hle₁ : (kb₁.untried (q :: tried)).length ≤ tries := by
          rw [untried, hpredicates]
          exact Nat.le_of_lt_succ (lt_of_lt_of_le hlt hle)
        obtain ⟨n, tried', kb', hrun, hend⟩ := compactWithin_outcome tries (q :: tried) kb₁ hle₁
        refine ⟨_, tried', kb', .head hnext e hrun, ?_⟩
        rw [e]
        dsimp only
        rcases hend with ⟨hnone, hrest⟩ | ⟨m, pool, hstuck, hrest⟩
        · exact .inl ⟨hnone, by rw [hrest]⟩
        · exact .inr ⟨m, pool, hstuck, by rw [hrest]⟩
      · refine ⟨0, tried, kb, .refl kb tried, .inr ⟨m, pool, hstuck, ?_⟩⟩
        rw [e]

/-- **Compaction writes out what it can, up to the first definition that would close a circle.**  It ends when nothing
that it has not tried can be written out; or at a definition whose place in the referring rule makes literals wait for
each other in a circle, with all steps up to there done.  The latter takes a rule with a function in its body. -/
theorem compact_outcome (kb : KnowledgeBase W) : ∃ n tried kb', kb.Compacts [] n tried kb' ∧
    (kb'.nextInline? tried = none ∧ kb.compact = (.ok n, kb') ∨
      ¬ kb.FunctionFree ∧ ∃ m pool, kb'.Stuck tried m ∧
        kb.compact = (.error (.cyclicBody m.text), { kb' with pool := pool })) := by
  obtain ⟨n, tried, kb', hrun, hend⟩ := compactWithin_outcome kb.rules.predicates.length [] kb (List.length_filter_le _ _)
  refine ⟨n, tried, kb', hrun, hend.imp_right ?_⟩
  rintro ⟨m, pool, hstuck, e⟩
  exact ⟨fun hfree => (hrun.functionFree hfree).not_stuck m hstuck, m, pool, hstuck, e⟩

-- `p` written out in `q` comes to `q(X, Y) :- e(X), fn_identity(Y, X), fn_identity(X, Y)`
example :
    let x : Term := .var ⟨0, false⟩
    let y : Term := .var ⟨1, false⟩
    let call (name : String) (ts : List Term) : Literal ℚ := ⟨1, ⟨name, ts.length⟩, ts⟩
    let definition : Clause ℚ := ⟨call "p" [x, y], [call "e" [x], call "fn_identity" [y, x]]⟩
    let referrer : Clause ℚ := ⟨call "q" [x, y], [call "p" [x, y], call "fn_identity" [x, y]]⟩
    definition.reorder .empty = .ok definition ∧ referrer.reorder .empty = .ok referrer ∧
      ∃ m, draft? referrer (definition.rename ⟨2⟩).1 0 = some m ∧ m.reorder .empty = .error (.cyclicBody m.text) :=
  ⟨rfl, rfl, _, rfl, rfl⟩

end KnowledgeBase
end Credence
