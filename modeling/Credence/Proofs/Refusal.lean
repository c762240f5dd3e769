import Credence.Proofs.Tracing
import Credence.Proofs.Upholding
/-!
# What stops a query

A program that was accepted leaves three ways to go wrong while a query is worked off.  A rule with a wildcard in its head
has facts that bind nothing, so a negation behind such a literal can come up with a variable; so can one behind a literal
with fewer terms than its predicate says, which no text is read as but which may be told; and a name with two marks in
front of a primitive is still negated when a mark is taken off.  Without any of them no query is refused
(`Solver.start_refused`).
-/
namespace Credence

variable {W : Type}

/-! ## Marks that cannot be taken off -/

namespace Predicate

/-- A primitive's name behind two marks or more. -/
def IsDoubled (p : Predicate) : Prop :=
  ∃ n rest, p.name.toList = List.replicate (n + 2) '~' ++ 'f' :: 'n' :: '_' :: rest

variable {p : Predicate}

theorem toList_name_of_isNegated (h : p.isNegated = true) : p.name.toList = '~' :: p.base.toList := by
  rw [name_of_isNegated h, String.toList_append]
  rfl

theorem IsDoubled.isNegated (h : p.IsDoubled) : p.isNegated = true := by
  obtain ⟨n, rest, h⟩ := h
  refine Text.startsWith_iff.2 ⟨String.ofList (List.replicate (n + 1) '~' ++ 'f' :: 'n' :: '_' :: rest), ?_⟩
  refine String.toList_injective ?_
  rw [h, String.toList_append, String.toList_ofList]
  rfl

theorem IsDoubled.of_base (hn : p.isNegated = true) (h : (⟨p.base, p.arity⟩ : Predicate).IsDoubled) : p.IsDoubled := by
  obtain ⟨n, rest, h⟩ := h
  refine ⟨n + 1, rest, ?_⟩
  rw [toList_name_of_isNegated hn, show p.base.toList = _ from h]
  rfl

theorem isPrimitive_of_check {p' : Predicate} (h : p.check = .ok p') (hn : p.isNegated = true) : p.isPrimitive = false := by
  rw [check, hn, Bool.true_and] at h
  split at h
  · cases h
  · rename_i hp
    exact Bool.eq_false_of_not_eq_true hp

/-- Only such a name has a mark that cannot be taken off. -/
theorem isDoubled_of_negate {e : Error} (hn : p.isNegated = true) (h : p.negate = .error e) :
    p.IsDoubled ∧ ∃ text, e = .negatedPrimitive text := by
  simp only [negate, hn, if_true, check] at h
  split at h
  · rename_i hc
    rw [Bool.and_eq_true] at hc
    injection h with h
    refine ⟨?_, _, h.symm⟩
    obtain ⟨rest, hrest⟩ := Text.startsWith_iff.1 hc.2
    refine ⟨0, rest.toList, ?_⟩
    rw [toList_name_of_isNegated hn, toList_name_of_isNegated (p := ⟨p.base, p.arity⟩) hc.1, hrest, String.toList_append]
    rfl
  · cases h

end Predicate

/-! ## Standards of accepted programs -/

variable [Weight W]

/-- An accepted program meets a standard that asks nothing of constants and keys. -/
theorem KnowledgeBase.Checked.meets {q : Query W} (h : q.kb.Checked) {name : Predicate → Prop} {fitted ground : Prop}
    (hfit : ground → fitted) (hbase : ∀ p, name p → p.isNegated = true → name ⟨p.base, p.arity⟩)
    (hpos : ∀ p : Predicate, p.isNegated = false → name p)
    (hbody : ∀ c ∈ q.kb.rules.clauses, ∀ l ∈ c.body, name l.predicate)
    (hfact : fitted → ∀ c ∈ q.kb.facts.clauses, c.head.isWellFormed = true)
    (hrule : fitted → ∀ c ∈ q.kb.rules.clauses, c.IsWellFormed)
    (hground : ground → ∀ c ∈ q.kb.rules.clauses, ∀ t ∈ c.head.terms, t.isWildcard = false) :
    q.Meets ⟨name, fun _ => True, fun _ => True, fitted, ground, False⟩ where
  fitted := hfit
  base := hbase
  fact c hc :=
    have hs := h.fact c hc
    ⟨hs.body, hs.grounded, hpos _ hs.positive, fun hf => hfact hf c hc, fun _ _ => trivial⟩
  rule c hc :=
    have hr := h.rule c hc
    ⟨hr.body, ⟨hpos _ hr.positive, fun hf => (hrule hf c hc).1, fun _ _ => trivial⟩, trivial,
      fun l hl => ⟨hbody c hc l hl, fun hf => (hrule hf c hc).2 l hl, fun _ _ => trivial⟩,
      fun hg => hr.timely (hground hg c hc)⟩
  answer _ _ _ _ _ _ := trivial
  legible h := h.elim

namespace Solver

variable {s : Solver W} {l : Literal W} {maxSamples : Option Nat}

/-- **What a query over an accepted program is refused for** while it is worked off. -/
theorem start_refused (hkb : s.kb.Checked) (hcheck : l.isNegated = true → l.isPrimitive = false)
    (hopen : l.isNegated = true → l.isSemiGrounded = true) {e : Error}
    (h : (s.start l maxSamples).1 = .error (.refused e)) :
    (∃ text, e = .openNegation text) ∧ ((∃ c ∈ s.kb.rules.clauses, ∃ t ∈ c.head.terms, t.isWildcard = true) ∨
        ∃ m ∈ s.kb.literals l, m.isWellFormed = false) ∨
      (∃ text, e = .negatedPrimitive text) ∧
        ∃ m, (m = l ∨ ∃ c ∈ s.kb.rules.clauses, m ∈ c.body) ∧ m.predicate.IsDoubled := by
  rcases s.start_cases l maxSamples with ⟨-, hn, hs⟩ | ⟨-, hstart⟩
  · rw [hopen hn] at hs
    cases hs
  · rw [hstart] at h
    let wild : Prop := ∃ c ∈ s.kb.rules.clauses, ∃ t ∈ c.head.terms, t.isWildcard = true
    let doubled : Prop := ∃ m, (m = l ∨ ∃ c ∈ s.kb.rules.clauses, m ∈ c.body) ∧ m.predicate.IsDoubled
    let short : Prop := ∃ m ∈ s.kb.literals l, m.isWellFormed = false
    have hterms : ¬ short → ∀ m ∈ s.kb.literals l, m.isWellFormed = true := fun hs m hm =>
      Bool.eq_true_of_not_eq_false (fun e => hs ⟨m, hm, e⟩)
    -- names are asked to be in order unless some are not, and facts to have no variables unless some head has a wildcard
    -- or some literal too few terms
    have hq : (s.asking maxSamples).Meets
        ⟨fun p => ¬ p.IsDoubled ∨ doubled, fun _ => True, fun _ => True, ¬ short, ¬ (wild ∨ short), False⟩ := by
      refine hkb.meets (q := s.asking maxSamples) (fun hg hs => hg (.inr hs))
        (fun p hp hn => hp.imp_left (fun hp hb => hp (hb.of_base hn)))
        (fun p hp => .inl (fun hb => ?_)) (fun c hc m hm => ?_) (fun hs c hc => ?_) (fun hs c hc => ?_)
        (fun hg c hc t ht => ?_)
      · rw [hb.isNegated] at hp
        cases hp
      · exact or_iff_not_imp_left.2 (fun hb => ⟨m, .inr ⟨c, hc, hm⟩, not_not.1 hb⟩)
      · exact hterms hs _ (KnowledgeBase.mem_literals_fact hc)
      · exact ⟨hterms hs _ (KnowledgeBase.mem_literals_rule hc (.inl rfl)),
          fun m hm => hterms hs _ (KnowledgeBase.mem_literals_rule hc (.inr hm))⟩
      · exact Bool.eq_false_of_not_eq_true (fun e => hg (.inl ⟨c, hc, t, ht, e⟩))
    have hname : ¬ l.predicate.IsDoubled ∨ doubled := or_iff_not_imp_left.2 (fun hb => ⟨l, .inl rfl, not_not.1 hb⟩)
    have hallows : Standard.Allows ⟨fun p => ¬ p.IsDoubled ∨ doubled, fun _ => True, fun _ => True, ¬ short,
        ¬ (wild ∨ short), False⟩ l := ⟨hname, fun hs => hterms hs l (List.mem_cons_self ..), fun _ _ => trivial⟩
    cases (execute_upholds hq hallows (fun hn => ⟨hopen hn, hcheck hn⟩)).2 e h with
    | openNegation hg => exact .inl ⟨⟨_, rfl⟩, not_not.1 hg⟩
    | negate hp hn he =>
      obtain ⟨hb, htext⟩ := Predicate.isDoubled_of_negate hn he
      exact .inr ⟨htext, hp.resolve_left (not_not.2 hb)⟩

/-- A query whose mark cannot be taken off is refused. -/
theorem start_marked (hn : l.isNegated = true) (hs : l.isSemiGrounded = true) {e : Error} (he : l.negate = .error e)
    (hsteps : s.patience ≠ 0) : (s.start l maxSamples).1 = .error (.refused e) := by
  have he' : (s.asked l).negate = .error e := by
    rw [Literal.negate, show (s.asked l).predicate = l.predicate from rfl]
    rw [Literal.negate] at he
    cases hp : l.predicate.negate with
    | error e' =>
      rw [hp] at he
      injection he with he
      rw [← he]
      rfl
    | ok p =>
      rw [hp] at he
      cases he
  obtain ⟨steps, hsteps⟩ := Nat.exists_eq_succ_of_ne_zero hsteps
  rcases s.start_cases l maxSamples with ⟨-, -, hopen⟩ | ⟨-, hstart⟩
  · rw [hs] at hopen
    cases hopen
  · have hroot : (s.opening l).table.goal? 0 = some (Run.newGoal s.query (s.asked l)) :=
      Run.addGoal_new (Run.start_index (W := W) _ _)
    have hstep := Run.search_marked (q := s.asking maxSamples) hroot hn (asked_isSemiGrounded hs) he'
    rw [hstart, hsteps, Run.execute_error hstep]

/-- **Nothing else goes wrong over an accepted program.**  A query that is admitted at all is refused only for a negation
with a variable, when a rule has a wildcard in its head or a literal of the program or the query has another number of
terms than its predicate says, or for a mark that cannot be taken off, when the query or a literal of a rule has a
primitive's name behind two marks. -/
theorem refused_query (hkb : s.kb.Accepted) (hcheck : l.predicate.check = .ok l.predicate)
    (hopen : l.isNegated = true → l.isSemiGrounded = true) {e : Error}
    (h : (s.solve l maxSamples).1 = .error (.refused e) ∨ (s.proofs l).1 = .error (.refused e)) :
    (∃ text, e = .openNegation text) ∧ ((∃ c ∈ s.kb.rules.clauses, ∃ t ∈ c.head.terms, t.isWildcard = true) ∨
        ∃ m ∈ s.kb.literals l, m.isWellFormed = false) ∨
      (∃ text, e = .negatedPrimitive text) ∧
        ∃ m, (m = l ∨ ∃ c ∈ s.kb.rules.clauses, m ∈ c.body) ∧ m.predicate.IsDoubled := by
  have hprim : l.isNegated = true → l.isPrimitive = false := Predicate.isPrimitive_of_check hcheck
  rcases h with h | h
  · exact start_refused hkb.checked hprim hopen (solve_eq_error_iff.1 h)
  · exact start_refused hkb.checked hprim hopen (proofs_eq_error_iff.1 h)

end Solver

/-! ## Facts that bind nothing

The first of two rules gives a fact with a wildcard, or a fact is told that has no terms.  Either leaves the variable of a
negation unbound that stands in a rule behind a literal with that fact. -/

theorem KnowledgeBase.rules_keepRule_certain {kb : KnowledgeBase W} {c : Clause W} (hc : c.head.isCertain = true)
    (hnew : kb.seen.contains c.key = false) : (kb.keepRule c).2.rules = kb.rules.push c := by
  simp only [keepRule, storeRule, hnew, Bool.false_eq_true, if_false, hc, if_true]

theorem KnowledgeBase.facts_keepRule_certain {kb : KnowledgeBase W} {c : Clause W} (hc : c.head.isCertain = true) :
    (kb.keepRule c).2.facts = kb.facts := by
  simp only [keepRule, storeRule, hc, if_true]
  split <;> rfl

namespace Blanket

def head : Literal ℚ := ⟨1, ⟨"h", 1⟩, [.const ⟨"a"⟩]⟩

def positive (n : Nat) : Literal ℚ := ⟨1, ⟨"h", 1⟩, [.var ⟨n, false⟩]⟩

def negative (n : Nat) : Literal ℚ := ⟨1, ⟨"~b", 1⟩, [.var ⟨n, false⟩]⟩

def exception : Clause ℚ := ⟨head, [positive 0, negative 0]⟩

theorem tell_exception {kb : KnowledgeBase ℚ} (hreg : kb.registry = .empty) :
    kb.tell exception = .ok (kb.keepRule exception) := by
  have hcheck : exception.checkRule kb.registry = .ok () := by rw [hreg]; rfl
  have hord : exception.reorder kb.registry = .ok exception := by rw [hreg]; rfl
  simp only [KnowledgeBase.tell, show exception.head.isPrimitive = false from rfl,
    show KnowledgeBase.refusal exception = none from rfl, show exception.body.isEmpty = false from rfl,
    Bool.false_eq_true, if_false, hcheck, hord]
  rfl

/-- A clause with another number of literals does not make the rule known. -/
theorem unseen {seen : Std.HashSet (Nat × String)} (hseen : seen.contains exception.key = false) {c : Clause ℚ}
    (hc : c.key.1 ≠ exception.key.1) : (seen.insert c.key).contains exception.key = false := by
  rw [Std.HashSet.contains_insert, hseen, Bool.or_false, beq_eq_false_iff_ne]
  exact fun e => hc (congrArg Prod.fst e)

/-- After a fact that binds nothing, the rule asks for a negation with a variable. -/
theorem gives_up {q : Query ℚ} {r : Run ℚ} {f : Literal ℚ}
    (hf : (⟨head, [positive 1, negative 1]⟩ : Clause ℚ).resolve f = some ⟨head, [negative 1]⟩)
    (h : r.Shows ⟨1⟩ (positive 0) [.fact f] []) (steps : Nat) :
    ∃ text, (Run.execute q (steps + 5) [.tryRules 0 [exception] true] r).1 = .error (.refused (.openNegation text)) := by
  let d : Derivation ℚ := .start ⟨head, [positive 1, negative 1]⟩
  obtain ⟨r1, e1, h1⟩ := h.tryRules_cons (q := q) (c := exception) (s := ⟨[(⟨0, false⟩, .const ⟨"a"⟩)]⟩) rfl [] true
  obtain ⟨r2, e2, h2⟩ := h1.advance_back (q := q) (d := d) rfl rfl rfl rfl rfl
  have e3 := h2.feed_cons (q := q) (d := d) (f := .fact f) []
  obtain ⟨node, r4, e4, h4⟩ :=
    h2.resolve_more (q := q) (d := d) (f := .fact f) (c := ⟨head, [negative 1]⟩) hf rfl rfl
  have e5 := Run.advance_open (q := q) (r := r4) (d := ⟨⟨head, [negative 1]⟩, node⟩) rfl rfl rfl rfl
  rw [Run.execute_ok e1]
  show ∃ text, (Run.execute q (steps + 4) (.advance 0 d :: _) r1).1 = _
  rw [Run.execute_ok e2]
  show ∃ text, (Run.execute q (steps + 3) (.feed 0 d [.fact f] :: _) r2).1 = _
  rw [Run.execute_ok e3]
  show ∃ text, (Run.execute q (steps + 2) (.resolve 0 d (.fact f) :: _) r2).1 = _
  rw [Run.execute_ok e4]
  show ∃ text, (Run.execute q (steps + 1) (.advance 0 ⟨⟨head, [negative 1]⟩, node⟩ :: _) r4).1 = _
  rw [Run.execute_error e5]
  exact ⟨_, rfl⟩

/-- So a query is refused whose run comes to such a fact and then to the rule. -/
theorem solve_refused {kb : KnowledgeBase ℚ} {f : Literal ℚ}
    (hf : (⟨head, [positive 1, negative 1]⟩ : Clause ℚ).resolve f = some ⟨head, [negative 1]⟩) {n : Nat}
    (hn : n + 5 ≤ Solver.manySteps)
    (h : ∀ r : Run ℚ, r.Shows ⟨1⟩ (positive 0) [] [] → ∀ steps, ∃ r', r'.Shows ⟨1⟩ (positive 0) [.fact f] [] ∧
      Run.execute ((Solver.new kb .default).asking none) (steps + n) [.search 0] r =
        Run.execute ((Solver.new kb .default).asking none) steps [.tryRules 0 [exception] true] r') :
    ∃ text, ((Solver.new kb .default).solve (positive 0) none).1 = .error (.refused (.openNegation text)) := by
  obtain ⟨k, hk⟩ := Nat.exists_eq_add_of_le hn
  obtain ⟨r, hr, e⟩ := h ((Solver.new kb .default).opening (positive 0)) (Run.shows_opening rfl _ _) (k + 5)
  obtain ⟨text, htext⟩ := gives_up (q := (Solver.new kb .default).asking none) hf hr k
  rcases (Solver.new kb .default).start_cases (positive 0) none with ⟨-, hneg, -⟩ | ⟨-, hstart⟩
  · cases hneg
  · refine ⟨text, Solver.solve_eq_error_iff.2 ?_⟩
    have hsteps : (Solver.new kb .default).patience = k + 5 + n := hk.trans (by omega)
    show ((Solver.new kb .default).start (positive 0) none).1 = _
    rw [hstart, hsteps]
    dsimp only
    rw [e]
    exact htext

/-! ### A fact for everything -/

def condition : Literal ℚ := ⟨1, ⟨"fn_is_true", 1⟩, [.const ⟨"true"⟩]⟩

def anything : Literal ℚ := ⟨1, ⟨"h", 1⟩, [.var ⟨0, true⟩]⟩

def everything : Clause ℚ := ⟨anything, [condition]⟩

def kb : KnowledgeBase ℚ := (((KnowledgeBase.empty .empty).keepRule everything).2.keepRule exception).2

theorem seen_everything : ((KnowledgeBase.empty .empty).keepRule everything).2.seen =
    ((∅ : Std.HashSet (Nat × String)).insert everything.key).insert everything.key := by
  simp only [KnowledgeBase.keepRule, KnowledgeBase.storeRule, KnowledgeBase.empty, Std.HashSet.contains_empty,
    Bool.false_eq_true, if_false, show everything.head.isCertain = true from rfl, if_true]

theorem rules : kb.rules = (Shelf.empty.push everything).push exception := by
  have hnew : (KnowledgeBase.empty .empty : KnowledgeBase ℚ).seen.contains everything.key = false :=
    Std.HashSet.contains_empty
  rw [kb, KnowledgeBase.rules_keepRule_certain rfl ?_, KnowledgeBase.rules_keepRule_certain rfl hnew]
  · rfl
  · rw [seen_everything]
    exact unseen (unseen Std.HashSet.contains_empty (by decide)) (by decide)

theorem facts : kb.facts = .empty := by
  rw [kb, KnowledgeBase.facts_keepRule_certain rfl, KnowledgeBase.facts_keepRule_certain rfl]
  rfl

theorem accepted : kb.Accepted := by
  have hcheck : everything.checkRule .empty = .ok () := rfl
  have hord : everything.reorder .empty = .ok everything := rfl
  have htell : (KnowledgeBase.empty .empty : KnowledgeBase ℚ).tell everything =
      .ok ((KnowledgeBase.empty .empty).keepRule everything) := by
    simp only [KnowledgeBase.tell, show everything.head.isPrimitive = false from rfl,
      show KnowledgeBase.refusal everything = none from rfl, show everything.body.isEmpty = false from rfl,
      Bool.false_eq_true, if_false, KnowledgeBase.empty, hcheck, hord]
    rfl
  exact .tell (.tell (.empty .empty) htell) (tell_exception (KnowledgeBase.registry_keepRule _ _))

/-- The query for everything, with no limit. -/
def query : Query ℚ := (Solver.new kb .default).asking none

theorem query_rules : query.kb.rulesFor (positive 0) = [everything, exception] := by
  show (kb.rules.get _).filter _ = _
  rw [rules]
  rfl

theorem query_facts : query.kb.factsFor (positive 0) = [] := by
  show (kb.facts.get _).filter _ = _
  rw [facts]
  rfl

/-- The first rule gives a fact with nothing but a wildcard in it. -/
theorem accepts_anything {r : Run ℚ} (h : r.Shows ⟨1⟩ (positive 0) [] []) (steps : Nat) :
    ∃ r', r'.Shows ⟨1⟩ (positive 0) [.fact anything] [] ∧
      Run.execute query (steps + 7) [.search 0] r = Run.execute query steps [.tryRules 0 [exception] true] r' := by
  obtain ⟨r1, e1, h1⟩ := h.tryRules_cons (q := query) (c := everything) (s := .empty) rfl [exception] false
  obtain ⟨r2, e2, h2⟩ := h1.advance_primitive (q := query) (d := .start everything) rfl rfl
  obtain ⟨r3, e3, h3⟩ :=
    h2.resolve_done (q := query) (d := .start everything) (f := .fact condition) (c := .fact anything) rfl rfl rfl rfl
  obtain ⟨r4, e4, h4⟩ := h3.accept (q := query) (f := .fact anything) rfl nofun .derived
  refine ⟨r4, h4, ?_⟩
  have e0 := h.search (q := query) rfl rfl
  have e0' := h.tryFacts_nil (q := query) false
  rw [query_facts] at e0
  rw [query_rules] at e0'
  rw [Run.execute_ok e0, List.append_nil, Run.execute_ok e0', List.append_nil, Run.execute_ok e1]
  show Run.execute query (steps + 4) (.advance 0 (.start everything) :: _) r1 = _
  rw [Run.execute_ok e2]
  show Run.execute query (steps + 3) (.resolve 0 (.start everything) (.fact condition) :: _) r2 = _
  rw [Run.execute_ok e3]
  show Run.execute query (steps + 2) (.accept 0 (.fact anything) .derived :: _) r3 = _
  rw [Run.execute_ok e4]
  rfl

theorem refused : ∃ text, ((Solver.new kb .default).solve (positive 0) none).1 = .error (.refused (.openNegation text)) :=
  solve_refused (f := anything) rfl (by decide) (fun _ h steps => accepts_anything h steps)

/-! ### A fact without terms -/

def bare : Literal ℚ := ⟨1, ⟨"h", 1⟩, []⟩

def bareKb : KnowledgeBase ℚ := (((KnowledgeBase.empty .empty).storeFact (.fact bare)).2.keepRule exception).2

theorem storeFact_bare : (KnowledgeBase.empty .empty).storeFact (.fact bare) =
    (true, ⟨.empty, Shelf.empty.push (.fact bare), .empty, (∅ : Std.HashSet (Nat × String)).insert (Clause.fact bare).key, 0,
      .empty⟩) := by
  simp only [KnowledgeBase.storeFact, KnowledgeBase.empty, Std.HashSet.contains_empty, Bool.false_eq_true, if_false]

theorem bareKb_facts : bareKb.facts = Shelf.empty.push (.fact bare) := by
  rw [bareKb, KnowledgeBase.facts_keepRule_certain rfl, storeFact_bare]

theorem bareKb_rules : bareKb.rules = Shelf.empty.push exception := by
  rw [bareKb, KnowledgeBase.rules_keepRule_certain rfl ?_, storeFact_bare]
  rw [storeFact_bare]
  exact unseen Std.HashSet.contains_empty (by decide)

theorem bareKb_accepted : bareKb.Accepted := by
  have htell : (KnowledgeBase.empty .empty : KnowledgeBase ℚ).tell (.fact bare) =
      .ok ((KnowledgeBase.empty .empty).storeFact (.fact bare)) := rfl
  rw [storeFact_bare] at htell
  rw [bareKb, storeFact_bare]
  exact .tell (.tell (.empty .empty) htell) (tell_exception rfl)

theorem bareKb_factsFor : bareKb.factsFor (positive 0) = [.fact bare] := by
  rw [KnowledgeBase.factsFor, bareKb_facts]
  rfl

theorem bareKb_rulesFor : bareKb.rulesFor (positive 0) = [exception] := by
  rw [KnowledgeBase.rulesFor, bareKb_rules]
  rfl

/-- The fact is taken as it is, for it has no term that the query does not match. -/
theorem accepts_bare {r : Run ℚ} (h : r.Shows ⟨1⟩ (positive 0) [] []) (steps : Nat) :
    ∃ r', r'.Shows ⟨1⟩ (positive 0) [.fact bare] [] ∧
      Run.execute ((Solver.new bareKb .default).asking none) (steps + 5) [.search 0] r =
        Run.execute ((Solver.new bareKb .default).asking none) steps [.tryRules 0 [exception] true] r' := by
  let q : Query ℚ := (Solver.new bareKb .default).asking none
  have e0 := h.search (q := q) rfl rfl
  have e1 := h.tryFacts_cons (q := q) (f := .fact bare) rfl [] false
  obtain ⟨r2, e2, h2⟩ := h.accept (q := q) (f := .fact bare) rfl nofun .asserted
  have e4 := h2.tryFacts_nil (q := q) true
  rw [show q.kb.factsFor (positive 0) = _ from bareKb_factsFor] at e0
  rw [show q.kb.rulesFor (positive 0) = _ from bareKb_rulesFor] at e4
  refine ⟨r2, h2, ?_⟩
  show Run.execute q (steps + 5) _ r = Run.execute q steps _ r2
  rw [Run.execute_ok e0, List.append_nil, Run.execute_ok e1]
  show Run.execute q (steps + 3) (.accept 0 (.fact bare) .asserted :: _) r = _
  rw [Run.execute_ok e2]
  show Run.execute q (steps + 1) [.tryFacts 0 [] true] r2 = _
  rw [Run.execute_ok e4]
  rfl

theorem bare_refused :
    ∃ text, ((Solver.new bareKb .default).solve (positive 0) none).1 = .error (.refused (.openNegation text)) :=
  solve_refused (f := bare) rfl (by decide) (fun _ h steps => accepts_bare h steps)

/-! ### A mark that stays -/

/-- A primitive's name behind two marks. -/
def marked : Literal ℚ := ⟨1, ⟨"~~fn_x", 1⟩, [.const ⟨"a"⟩]⟩

end Blanket

namespace Solver

/-- A negation with a variable comes up under a rule with a wildcard in its head. -/
theorem refused_query_blanket : ∃ text,
    ((Solver.new Blanket.kb .default).solve (Blanket.positive 0) none).1 = .error (.refused (.openNegation text)) ∧
      ((∃ c ∈ Blanket.kb.rules.clauses, ∃ t ∈ c.head.terms, t.isWildcard = true) ∨
        ∃ m ∈ Blanket.kb.literals (Blanket.positive 0), m.isWellFormed = false) := by
  obtain ⟨text, h⟩ := Blanket.refused
  rcases refused_query (s := Solver.new Blanket.kb .default) Blanket.accepted rfl (fun hn => by cases hn) (.inl h) with
    ⟨-, hw⟩ | ⟨⟨_, e⟩, -⟩
  · exact ⟨text, h, hw⟩
  · cases e

/-- Three admitted queries over accepted programs that are refused: two that come to a negation with a variable, one of
them without a wildcard in the program, and one with a mark that cannot be taken off. -/
theorem solve_refuses : Blanket.kb.Accepted ∧
    ((Blanket.positive 0).isWellFormed = true ∧ (Blanket.positive 0).predicate.check = .ok (Blanket.positive 0).predicate ∧
      (Blanket.positive 0).isNegated = false) ∧
    (∃ text, ((Solver.new Blanket.kb .default).solve (Blanket.positive 0) none).1 =
      .error (.refused (.openNegation text))) ∧
    (Blanket.bareKb.Accepted ∧ ∀ c ∈ Blanket.bareKb.rules.clauses, ∀ t ∈ c.head.terms, t.isWildcard = false) ∧
    (∃ text, ((Solver.new Blanket.bareKb .default).solve (Blanket.positive 0) none).1 =
      .error (.refused (.openNegation text))) ∧
    (KnowledgeBase.empty .empty : KnowledgeBase ℚ).Accepted ∧
    (Blanket.marked.isWellFormed = true ∧ Blanket.marked.predicate.check = .ok Blanket.marked.predicate ∧
      Blanket.marked.isNegated = true ∧ Blanket.marked.isSemiGrounded = true) ∧
    ∃ text, ((Solver.new (.empty .empty) .default).solve Blanket.marked none).1 =
      .error (.refused (.negatedPrimitive text)) := by
  refine ⟨Blanket.accepted, ⟨rfl, rfl, rfl⟩, Blanket.refused, ⟨Blanket.bareKb_accepted, ?_⟩, Blanket.bare_refused,
    .empty .empty, ⟨rfl, rfl, rfl, rfl⟩, _, solve_eq_error_iff.2 (start_marked rfl rfl rfl (by decide))⟩
  rw [Blanket.bareKb_rules]
  decide

end Solver
end Credence
