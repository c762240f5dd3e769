import Credence.Proofs.Inlining
/-!
# Compaction keeps chances

A step of compaction writes a definition out in a rule, and leaves the facts as they are.  When no rule carries a weight
and the renamed definition shares no variable with the rule, the chance of every literal stays the same
(`Conserves.of_inlineAt`), and so does every estimate (`Solver.probability_inlineAt`).  The variables are apart at every
step once the pool has issued those of the rules, so then all of compaction keeps chances (`Conserves.of_compact`).
-/
namespace Credence

variable {W : Type}

/-! ## A rule in the place of another -/

namespace Shelf

variable {s : Shelf W} {p : Predicate} {i : Nat} {c d : Clause W}

theorem mem_set_self (h : (s.get p)[i]? = some d) : c ∈ (s.set p i c).clauses := by
  unfold get at h
  cases hl : s.entries.lookup p with
  | none =>
    rw [hl] at h
    cases h
  | some cs =>
    rw [hl] at h
    obtain ⟨hi, -⟩ := List.getElem?_eq_some_iff.1 h
    have hmem : (p, cs.set i c) ∈ (s.set p i c).entries := List.mem_map.2 ⟨(p, cs), Renaming.mem_of_lookup hl, if_pos rfl⟩
    exact List.mem_flatMap.2 ⟨_, hmem, List.mem_set hi c⟩

theorem Sorted.mem_set_of_mem (hs : s.Sorted) (hd : (s.get p)[i]? = some d) {e : Clause W} (he : e ∈ s.clauses) :
    e = d ∨ e ∈ (s.set p i c).clauses := by
  obtain ⟨⟨q, cs⟩, hq, he⟩ := List.mem_flatMap.1 he
  have hset : (if q = p then (q, cs.set i c) else (q, cs)) ∈ (s.set p i c).entries := List.mem_map.2 ⟨(q, cs), hq, rfl⟩
  split at hset
  · rename_i hqp
    rw [← hqp, hs.get_of_mem hq] at hd
    obtain ⟨hi, hdi⟩ := List.getElem?_eq_some_iff.1 hd
    obtain ⟨j, hj, rfl⟩ := List.mem_iff_getElem.1 he
    by_cases hij : i = j
    · subst hij
      exact .inl hdi
    · have hkeep : cs[j] ∈ cs.set i c := by
        refine List.mem_iff_getElem.2 ⟨j, by simpa using hj, ?_⟩
        rw [List.getElem_set_of_ne hij]
      exact .inr (List.mem_flatMap.2 ⟨_, hset, hkeep⟩)
  · exact .inr (List.mem_flatMap.2 ⟨_, hset, he⟩)

theorem Sorted.set (hs : s.Sorted) (hc : c.head.predicate = p) : (s.set p i c).Sorted := by
  have hkey : ∀ e : Predicate × List (Clause W), (if e.1 = p then (e.1, e.2.set i c) else e).1 = e.1 := by
    intro e
    split <;> rfl
  constructor
  · show ((s.entries.map _).map Prod.fst).Nodup
    rw [List.map_map]
    exact (List.map_congr_left (fun e _ => hkey e)).symm ▸ hs.nodup
  · intro e he d hd
    obtain ⟨e', he', rfl⟩ := List.mem_map.1 he
    rw [hkey]
    split at hd
    · rename_i hp
      rcases List.mem_or_eq_of_mem_set hd with hd | rfl
      · exact hs.under e' he' d hd
      · exact hc.trans hp.symm
    · exact hs.under e' he' d hd

end Shelf

/-! ## Variables that are issued -/

/-- The variables of a renamed clause are issued by the renaming. -/
theorem Clause.varsIn_rename {c : Clause W} {pool : VarPool} {w : Var} (h : (c.rename pool).1.VarsIn w) :
    pool.issued ≤ w.id ∧ w.id < (c.rename pool).2.issued := by
  obtain ⟨f, hf, hhead, hbody⟩ := c.rename_spec pool
  have hvar : ∃ v, c.VarsIn v ∧ f v = w := by
    rcases h with h | ⟨l', hl', h⟩
    · obtain ⟨v, hv, e⟩ := (hhead.varsOf_iff hf (fun v hv => .inl hv)).1 h
      exact ⟨v, .inl hv, e⟩
    · obtain ⟨l, hl, hcopy⟩ := forall₂_exists_left hbody hl'
      obtain ⟨v, hv, e⟩ := (hcopy.varsOf_iff hf (fun v hv => .inr ⟨l, hl, hv⟩)).1 h
      exact ⟨v, .inr ⟨l, hl, hv⟩, e⟩
  obtain ⟨v, hv, rfl⟩ := hvar
  exact ⟨hf.low_le v hv, hf.lt_high v hv⟩

theorem Merges.id_lt {referrer definition merged : Clause W} {target : Literal W} {rest : List (Literal W)} {s : Subst}
    (h : Merges referrer definition merged target rest s) {n : Nat} (hr : ∀ v, referrer.VarsIn v → v.id < n)
    (hd : ∀ v, definition.VarsIn v → v.id < n) {w : Var} (hw : merged.VarsIn w) : w.id < n := by
  let P : Term → Prop := fun t => ∀ v : Var, v.wildcard = false → t = .var v → v.id < n
  have hterms : ∀ {l : Literal W}, (∀ v, VarsOf l.terms v → v.id < n) → ∀ t ∈ l.terms, P t :=
    fun hl t ht v hv e => hl v ⟨hv, e ▸ ht⟩
  have hbound : ∀ b ∈ s.bindings, P b.2 := Literal.unify_closed h.unify
    (hterms (fun v hv => hr v (.inr ⟨target, (h.split target).2 (.inl rfl), hv⟩))) (hterms (fun v hv => hd v (.inl hv)))
  have hsubst : ∀ {l : Literal W}, (∀ v, VarsOf l.terms v → v.id < n) → VarsOf (l.subst s).terms w → w.id < n :=
    fun hl hv => Literal.subst_closed h.triangular hbound (hterms hl) _ hv.2 w hv.1 rfl
  rcases hw with hw | ⟨m, hm, hw⟩
  · rw [h.head] at hw
    exact hsubst (fun v hv => hr v (.inl hv)) hw
  · obtain ⟨l, hl | hl, rfl⟩ := (h.body m).1 hm
    · exact hsubst (fun v hv => hd v (.inr ⟨l, hl, hv⟩)) hw
    · exact hsubst (fun v hv => hr v (.inr ⟨l, (h.split l).2 (.inr hl), hv⟩)) hw

/-! ## One step -/

namespace KnowledgeBase

theorem inlineSite?_spec {kb : KnowledgeBase W} {q : Predicate} {site : Site} (h : kb.inlineSite? q = some site) :
    (kb.rules.get q).length = 1 ∧ kb.facts.get q = [] ∧ site.predicate ≠ q := by
  unfold inlineSite? at h
  split at h
  · rename_i hone
    rw [Bool.and_eq_true, decide_eq_true_iff, List.isEmpty_iff] at hone
    split at h
    · split at h
      · rename_i hsite
        injection h with h
        subst h
        rw [Bool.and_eq_true, bne_iff_ne] at hsite
        exact ⟨hone.1, hone.2, hsite.2⟩
      · cases h
    · cases h
  · cases h

theorem inlineSite?_of_nextInline? {kb : KnowledgeBase W} {tried : List Predicate} {q : Predicate} {site : Site}
    (h : kb.nextInline? tried = some (q, site)) : kb.inlineSite? q = some site := by
  obtain ⟨p, -, hp⟩ := List.exists_of_findSome?_eq_some h
  obtain ⟨site', hsite, e⟩ := Option.map_eq_some_iff.1 hp
  injection e with e1 e2
  rw [← e1, ← e2]
  exact hsite

/-- The definition of `q`, renamed, shares no variable with the rule it is to be written out in. -/
def Apart (kb : KnowledgeBase W) (q : Predicate) (site : Site) : Prop :=
  ∀ definition referrer, (kb.rules.get q)[0]? = some definition →
    (kb.rules.get site.predicate)[site.rule]? = some referrer →
    ∀ v, (definition.rename kb.pool).1.VarsIn v → ¬ referrer.VarsIn v

/-- The pool has issued the variables of all rules. -/
def Issued (kb : KnowledgeBase W) : Prop := ∀ c ∈ kb.rules.clauses, ∀ v, c.VarsIn v → v.id < kb.pool.issued

theorem Issued.apart {kb : KnowledgeBase W} (h : kb.Issued) (q : Predicate) (site : Site) : kb.Apart q site := by
  intro definition referrer _ hr v hv hrv
  have hlow := (Clause.varsIn_rename hv).1
  have hlt := h referrer (Shelf.mem_of_get hr) v hrv
  omega

/-- **What a step does**: it writes a definition out, or changes at most the pool. -/
theorem inlineAt_cases [Weight W] {kb : KnowledgeBase W} (hf : kb.facts.Sorted) (hr : kb.rules.Sorted) {q : Predicate}
    {site : Site} (hsite : kb.inlineSite? q = some site) :
    ((kb.inlineAt q site).2.facts = kb.facts ∧ (kb.inlineAt q site).2.rules = kb.rules ∧
      kb.pool.issued ≤ (kb.inlineAt q site).2.pool.issued) ∨
    ∃ definition referrer merged, (kb.rules.get q)[0]? = some definition ∧
      (kb.rules.get site.predicate)[site.rule]? = some referrer ∧
      (kb.inlineAt q site).2.pool = (definition.rename kb.pool).2 ∧
      Inlines kb (kb.inlineAt q site).2 definition (definition.rename kb.pool).1 referrer merged := by
  obtain ⟨hone, hempty, hne⟩ := inlineSite?_spec hsite
  rcases kb.inlineAt_spec q site with
    ⟨pool, hpool, e⟩ | ⟨definition, referrer, m, hdef, href, hm, ⟨_, -, e⟩ | ⟨merged, hord, e⟩⟩
  · exact .inl (e ▸ ⟨rfl, rfl, hpool⟩)
  · obtain ⟨f, hren, -⟩ := definition.rename_spec kb.pool
    exact .inl (e ▸ ⟨rfl, rfl, hren.le⟩)
  · rw [e]
    obtain ⟨f, hren, hhead, hbody⟩ := definition.rename_spec kb.pool
    obtain ⟨target, rest, s, hdraft⟩ := merges_of_draft? hm
    have hmerge := hdraft.reorder hord
    obtain ⟨hdmem, hdq⟩ := hr.mem_get_iff.1 (List.mem_of_getElem? hdef)
    obtain ⟨hrmem, hrp⟩ := hr.mem_get_iff.1 (List.mem_of_getElem? href)
    have hmp : merged.head.predicate = site.predicate := by rw [hmerge.head, Literal.subst_predicate, hrp]
    refine .inr ⟨definition, referrer, merged, hdef, href, rfl, rfl, hr.set hmp, hdmem, hrmem,
      fun c hc => hr.mem_set_of_mem href hc, fun c hc => Shelf.mem_set hc, Shelf.mem_set_self href, fun c hc hp => ?_,
      fun c hc hp => ?_, ?_, ⟨f, _, _, hren, hhead, hbody⟩, ⟨target, rest, s, hmerge⟩⟩
    · obtain ⟨d, hd⟩ := List.length_eq_one_iff.1 hone
      have hc' := hr.mem_get_iff.2 ⟨hc, hp.trans hdq⟩
      have hd' := hr.mem_get_iff.2 ⟨hdmem, hdq⟩
      rw [hd, List.mem_singleton] at hc' hd'
      rw [hc', hd']
    · have := hf.mem_get_iff.2 ⟨hc, hp.trans hdq⟩
      rw [hempty] at this
      cases this
    · rw [hrp, hdq]
      exact hne

/-- The knowledge base `kb'` is as much in order as `kb`, and every literal has the chance that it has there. -/
structure Conserves (V : Vocabulary ℚ) (kb kb' : KnowledgeBase ℚ) : Prop where
  regular  : kb'.Regular V
  definite : kb'.Definite
  chance   : ∀ l, kb'.chance l = kb.chance l

variable {V : Vocabulary ℚ} {kb kb' kb'' : KnowledgeBase ℚ} {q : Predicate} {site : Site}

theorem Conserves.of_same (hkb : kb.Regular V) (hd : kb.Definite) (hf : kb'.facts = kb.facts) (hr : kb'.rules = kb.rules) :
    Conserves V kb kb' := by
  refine ⟨⟨hf ▸ hkb.facts, hr ▸ hkb.rules, hf ▸ hkb.fact, hr ▸ hkb.rule⟩,
    ⟨hr ▸ hd.positive, hf ▸ hd.fact, hr ▸ hd.rule⟩, fun l => ?_⟩
  have huncertain : kb'.uncertain = kb.uncertain := by rw [uncertain, uncertain, hf]
  have hworld : ∀ B, kb'.world B = kb.world B := by
    intro B
    simp only [world, States, hf, hr]
  rw [KnowledgeBase.chance, KnowledgeBase.chance, huncertain]
  exact mass_congr (fun B _ => by rw [HoldsIn, HoldsIn, hworld])

theorem Conserves.trans (h : Conserves V kb kb') (h' : Conserves V kb' kb'') : Conserves V kb kb'' :=
  ⟨h'.regular, h'.definite, fun l => (h'.chance l).trans (h.chance l)⟩

/-- **A step of compaction keeps chances.** -/
theorem Conserves.of_inlineAt (hkb : kb.Regular V) (hd : kb.Definite) (hsite : kb.inlineSite? q = some site)
    (hapart : kb.Apart q site) : Conserves V kb (kb.inlineAt q site).2 := by
  rcases inlineAt_cases hkb.facts hkb.rules hsite with ⟨hf, hr, -⟩ | ⟨definition, referrer, merged, hdef, href, -, h⟩
  · exact .of_same hkb hd hf hr
  · exact ⟨h.regular hd.positive hkb, h.definite hd, h.chance_eq hkb hd.positive (hapart definition referrer hdef href)⟩

/-! ## All steps -/

theorem Issued.inlineAt (h : kb.Issued) (hf : kb.facts.Sorted) (hr : kb.rules.Sorted)
    (hsite : kb.inlineSite? q = some site) : (kb.inlineAt q site).2.Issued := by
  rcases inlineAt_cases hf hr hsite with ⟨-, hrules, hpool⟩ | ⟨definition, referrer, merged, -, -, hpool, hi⟩
  · intro c hc v hv
    rw [hrules] at hc
    exact lt_of_lt_of_le (h c hc v hv) hpool
  · intro c hc v hv
    obtain ⟨_, hren, -⟩ := definition.rename_spec kb.pool
    rw [hpool]
    have hold : ∀ d ∈ kb.rules.clauses, ∀ w, d.VarsIn w → w.id < (definition.rename kb.pool).2.issued :=
      fun d hd w hw => lt_of_lt_of_le (h d hd w hw) hren.le
    rcases hi.holds c hc with rfl | hc
    · obtain ⟨target, rest, s, hm⟩ := hi.merges
      exact hm.id_lt (hold referrer hi.refers) (fun w hw => (Clause.varsIn_rename hw).2) hv
    · exact hold c hc v hv

/-- **Compaction keeps chances**, when the pool it takes fresh variables from has issued those of the rules. -/
theorem Conserves.of_compact (hkb : kb.Regular V) (hd : kb.Definite) (hi : kb.Issued) : Conserves V kb kb.compact.2 := by
  refine (compactWithin_induction (P := fun kb' => Conserves V kb kb' ∧ kb'.Issued) (fun h hnext => ?_) _ _
    ⟨.of_same hkb hd rfl rfl, hi⟩).1
  obtain ⟨h, hi⟩ := h
  have hsite := inlineSite?_of_nextInline? hnext
  exact ⟨h.trans (.of_inlineAt h.regular h.definite hsite (hi.apart _ _)), hi.inlineAt h.regular.facts h.regular.rules hsite⟩

end KnowledgeBase

namespace Solver

open KnowledgeBase

variable {s : Solver ℚ} {V : Vocabulary ℚ}

/-- Knowledge bases with the same chances have the same estimates. -/
theorem probability_conserved {kb : KnowledgeBase ℚ} (h : Conserves V s.kb kb) (hkb : s.kb.Regular V) (hd : s.kb.Definite)
    (hcap : s.storeCapacity = none) {n : Nat} {l : Literal ℚ} (hl : V.HasLiteral n l) (hn : l.isNegated = false) :
    ∃ steps before after, (∀ patience, steps ≤ patience →
        (({ s with patience := patience } : Solver ℚ).proofs l).1 = .ok before ∧
        (({ s with patience := patience, kb := kb } : Solver ℚ).proofs l).1 = .ok after) ∧
      ∀ settings, (Estimator.mk after settings).probability l none = (Estimator.mk before settings).probability l none := by
  obtain ⟨i, before, hbefore, hp⟩ := probability_positive hkb hd hcap hl hn
  obtain ⟨j, after, hafter, hp'⟩ := probability_positive (s := { s with kb := kb }) h.regular h.definite hcap hl hn
  refine ⟨max i j, before, after, fun patience hle => ⟨hbefore _ (by omega), hafter _ (by omega)⟩, fun settings => ?_⟩
  rw [hp, hp']
  exact h.chance l

/-- **A step of compaction keeps estimates**, when no rule carries a weight and the renamed definition shares no variable
with the rule it is written out in. -/
theorem probability_inlineAt (hkb : s.kb.Regular V) (hd : s.kb.Definite) (hcap : s.storeCapacity = none)
    {tried : List Predicate} {q : Predicate} {site : Site} (hnext : s.kb.nextInline? tried = some (q, site))
    (hapart : s.kb.Apart q site) {n : Nat} {l : Literal ℚ} (hl : V.HasLiteral n l) (hn : l.isNegated = false) :
    ∃ steps before after, (∀ patience, steps ≤ patience →
        (({ s with patience := patience } : Solver ℚ).proofs l).1 = .ok before ∧
        (({ s with patience := patience, kb := (s.kb.inlineAt q site).2 } : Solver ℚ).proofs l).1 = .ok after) ∧
      ∀ settings, (Estimator.mk after settings).probability l none = (Estimator.mk before settings).probability l none :=
  probability_conserved (.of_inlineAt hkb hd (inlineSite?_of_nextInline? hnext) hapart) hkb hd hcap hl hn

end Solver

/-! ## One edge that is visited -/

namespace OneEdge

/-- What has a path from it is visited; no other rule uses paths. -/
def visit : Clause ℚ :=
  ⟨⟨1, ⟨"visit", 1⟩, [.var ⟨5, false⟩]⟩, [⟨1, ⟨"path", 2⟩, [.var ⟨5, false⟩, .var ⟨6, false⟩]⟩]⟩

def visits (w : ℚ) : KnowledgeBase ℚ := (kb w).storeRule visit

/-- Is `a` visited? -/
def visited : Literal ℚ := ⟨1, ⟨"visit", 1⟩, [.const ⟨"a"⟩]⟩

theorem visits_facts (w : ℚ) : (visits w).facts = ⟨[(⟨"edge", 2⟩, [fact w])]⟩ := facts_eq w

theorem visits_rules (w : ℚ) : (visits w).rules = ⟨[(⟨"path", 2⟩, [rule]), (⟨"visit", 1⟩, [visit])]⟩ := by
  show (kb w).rules.push visit = _
  rw [rules_eq]
  rfl

theorem visits_pool (w : ℚ) : (visits w).pool = .empty := by
  simp only [visits, kb, KnowledgeBase.storeRule, KnowledgeBase.storeFact, KnowledgeBase.keepRule, KnowledgeBase.empty,
    Std.HashSet.contains_empty, Bool.false_eq_true, if_false]
  split
  · rfl
  · rfl

theorem mem_visits {w : ℚ} {c : Clause ℚ} (h : c ∈ (visits w).rules.clauses) : c = rule ∨ c = visit := by
  rw [visits_rules] at h
  exact (List.mem_cons.1 h).imp_right List.mem_singleton.1

section

variable {kb : KnowledgeBase ℚ} {w : ℚ} (hr : kb.rules = ⟨[(⟨"path", 2⟩, [rule]), (⟨"visit", 1⟩, [visit])]⟩)

include hr in
/-- Paths are written out first. -/
theorem nextInline?_path (hf : kb.facts = ⟨[(⟨"edge", 2⟩, [fact w])]⟩) :
    kb.nextInline? [] = some (⟨"path", 2⟩, ⟨⟨"visit", 1⟩, 0, 0, false⟩) := by
  have hsite : kb.inlineSite? ⟨"path", 2⟩ = some ⟨⟨"visit", 1⟩, 0, 0, false⟩ := by
    simp only [KnowledgeBase.inlineSite?, KnowledgeBase.sites, hr, hf]
    rfl
  have hsorted : (kb.rules.predicates.filter (fun q => !([] : List Predicate).contains q)).mergeSort
      Predicate.precedes = [⟨"path", 2⟩, ⟨"visit", 1⟩] := by
    rw [hr]
    exact List.mergeSort_of_pairwise (by decide)
  rw [KnowledgeBase.nextInline?]
  simp only [hsorted, List.findSome?_cons, hsite]
  rfl

include hr in
theorem apart_path (hp : kb.pool = .empty) : kb.Apart ⟨"path", 2⟩ ⟨⟨"visit", 1⟩, 0, 0, false⟩ := by
  intro definition referrer hd href v hv hrv
  rw [hr] at hd href
  rw [hp] at hv
  obtain rfl : rule = definition := Option.some.inj hd
  obtain rfl : visit = referrer := Option.some.inj href
  have hlt : v.id < 2 := (Clause.varsIn_rename hv).2
  have hge : v = ⟨5, false⟩ ∨ v = ⟨6, false⟩ := by
    rcases hrv with hrv | ⟨l, hl, hrv⟩
    · exact .inl (by simpa [visit] using hrv.2)
    · rw [List.mem_singleton.1 hl] at hrv
      simpa using hrv.2
  rcases hge with rfl | rfl
  · exact absurd hlt (by decide)
  · exact absurd hlt (by decide)

end

theorem visits_inlineAt (w : ℚ) : ((visits w).inlineAt ⟨"path", 2⟩ ⟨⟨"visit", 1⟩, 0, 0, false⟩).1 = .ok true := by
  simp only [KnowledgeBase.inlineAt, visits_rules, visits_pool]
  rfl

theorem visits_kept {w : ℚ} (hw : 0 < w ∧ w ≤ 1) : (visits w).Kept := by
  refine (built hw).kept.storeRule ⟨rfl, rfl, rfl, rfl, by decide, fun l hl => ?_, fun _ => ⟨fun v hv => ?_, ?_⟩⟩
  · rw [List.mem_singleton.1 hl]
  · refine ⟨_, List.mem_cons_self, rfl, hv.1, ?_⟩
    rw [List.mem_singleton.1 hv.2]
    exact List.mem_cons_self
  · intro pre n post hb hn
    have hmem : n ∈ visit.body := hb ▸ List.mem_append_right _ List.mem_cons_self
    rw [List.mem_singleton.1 hmem] at hn
    cases hn

end OneEdge

namespace Solver

/-- Writing paths out leaves the probability of a visit as it was. -/
theorem probability_inlineAt_visits :
    ((OneEdge.visits (1 / 3)).inlineAt ⟨"path", 2⟩ ⟨⟨"visit", 1⟩, 0, 0, false⟩).1 = .ok true ∧
    let s : Solver ℚ := Solver.new (OneEdge.visits (1 / 3)) .default
    ∃ steps before after, (∀ patience, steps ≤ patience →
        (({ s with patience := patience } : Solver ℚ).proofs OneEdge.visited).1 = .ok before ∧
        (({ s with patience := patience, kb := (s.kb.inlineAt ⟨"path", 2⟩ ⟨⟨"visit", 1⟩, 0, 0, false⟩).2 } : Solver ℚ).proofs
          OneEdge.visited).1 = .ok after) ∧
      ∀ settings, (Estimator.mk after settings).probability OneEdge.visited none =
        (Estimator.mk before settings).probability OneEdge.visited none := by
  refine ⟨OneEdge.visits_inlineAt _, ?_⟩
  obtain ⟨V, hreg, n, hlit⟩ := (OneEdge.visits_kept (w := 1 / 3) (by norm_num)).regular (q := OneEdge.visited)
    (fun c hc => by rcases OneEdge.mem_visits hc with rfl | rfl <;> decide)
    (fun c hc => by rcases OneEdge.mem_visits hc with rfl | rfl <;> decide) rfl rfl
  have hd : (OneEdge.visits (1 / 3)).Definite := by
    refine ⟨fun c hc => ?_, ?_, fun c hc => ?_⟩
    · rcases OneEdge.mem_visits hc with rfl | rfl <;> decide
    · rw [OneEdge.visits_facts]
      decide
    · rcases OneEdge.mem_visits hc with rfl | rfl <;> decide
  exact probability_inlineAt (s := Solver.new (OneEdge.visits (1 / 3)) .default) hreg hd rfl
    (OneEdge.nextInline?_path (OneEdge.visits_rules _) (OneEdge.visits_facts _))
    (OneEdge.apart_path (OneEdge.visits_rules _) (OneEdge.visits_pool _)) hlit rfl

end Solver
end Credence
