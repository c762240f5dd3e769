import Credence.Proofs.Making
import Credence.Proofs.Probability
/-!
# What writing a definition out keeps

A rule with the body of a definition in the place of a literal says what the rule and the definition say together
(`Merges.unfold`, `Merges.fold`), as long as the two share no variables.  Where the definition is all there is about its
predicate, every world has the same least model before and after (`Inlines.holds_iff`).

So compaction keeps probabilities in a program whose rules carry no weights (`Solver.probability_inlineAt`).  The weight
of a rule is drawn once for each instance of the rule that it stands in, and writing a definition out moves it, or
changes what instances there are.
-/
namespace Credence

variable {W : Type}

/-- Every literal says some atom: any constant will do for a wildcard. -/
theorem Literal.exists_admits (l : Literal W) (ν : Valuation) : ∃ a, l.Admits ν a := by
  refine ⟨⟨l.predicate, (l.values ν).map (fun x => x.getD ⟨""⟩)⟩, rfl, ?_⟩
  refine List.forall₂_map_right_iff.2 (List.forall₂_same.2 (fun x _ => ?_))
  cases x with
  | none => exact .inl rfl
  | some c => exact .inr rfl

theorem AgreeAll.symm {ν : Valuation} {ts us : List Term} (h : AgreeAll ν ts us) : AgreeAll ν us ts := by
  intro p hp
  have hp' : (p.2, p.1) ∈ ts.zip us := by
    rw [← List.zip_swap]
    exact List.mem_map.2 ⟨p, hp, rfl⟩
  rcases h _ hp' with e | e | e
  · exact .inr (.inl e)
  · exact .inl e
  · exact .inr (.inr e.symm)

/-! ## What a merged rule says -/

namespace Merges

variable {referrer definition merged : Clause W} {target : Literal W} {rest : List (Literal W)} {s : Subst}
  {ν κ : Valuation} {a b : Atom}

theorem triangular (h : Merges referrer definition merged target rest s) : Subst.Triangular s.bindings :=
  (Literal.unify_eq_some h.unify).2.1

theorem predicate (h : Merges referrer definition merged target rest s) : target.predicate = definition.head.predicate :=
  (Literal.unify_eq_some h.unify).1

/-- A valuation that makes the literal and the head say the same atom changes nothing else. -/
theorem fold (h : Merges referrer definition merged target rest s) (ht : target.Admits ν b)
    (hd : definition.head.Admits ν b) (l : Literal W) (x : Atom) : (l.subst s).Admits ν x ↔ l.Admits ν x := by
  have hs : Subst.Solves ν s := ((Literal.unify_eq_some h.unify).2.2 ν).2 (Literal.agreeAll_of_admits ht hd)
  rw [Literal.Admits, Literal.Admits, Literal.subst_predicate, Literal.values_subst_of_solves h.triangular hs]

/-- What a literal of the merged rule says, the literal it comes from says. -/
theorem unfold (h : Merges referrer definition merged target rest s) (l : Literal W) (x : Atom) :
    (l.subst s).Admits κ x ↔ l.Admits (s.extend κ) x := by
  rw [Literal.Admits, Literal.Admits, Literal.subst_predicate, Literal.values_subst h.triangular]

/-- The head of the definition says an atom, and so does the literal. -/
theorem exists_atom (h : Merges referrer definition merged target rest s) (ht : target.isWellFormed = true)
    (hd : definition.head.isWellFormed = true) (hc : ∀ t ∈ definition.head.terms, t.isWildcard = false) (κ : Valuation) :
    ∃ b, definition.head.Admits (s.extend κ) b ∧ target.Admits (s.extend κ) b := by
  have hag := ((Literal.unify_eq_some h.unify).2.2 _).1 (Subst.solves_extend h.triangular κ)
  obtain ⟨b, hb⟩ := definition.head.exists_admits (s.extend κ)
  exact ⟨b, hb, admits_of_agreeAll h.predicate.symm hd ht hc hag.symm hb⟩

/-- A variable of the literal that is left after the merge is left of a variable of the definition's head. -/
theorem exists_var (h : Merges referrer definition merged target rest s) (ht : target.isWellFormed = true)
    (hd : definition.head.isWellFormed = true) (hc : ∀ t ∈ definition.head.terms, t.isWildcard = false) {x y : Var}
    (hx : VarsOf target.terms x) (hy : s.chase (.var x) = .var y) :
    ∃ z, VarsOf definition.head.terms z ∧ s.chase (.var z) = .var y := by
  have hlen : target.terms.length = definition.head.terms.length := by
    rw [Literal.isWellFormed_iff.1 ht, Literal.isWellFormed_iff.1 hd, h.predicate]
  obtain ⟨i, hi, hxi⟩ := List.mem_iff_getElem.1 hx.2
  have hi' : i < definition.head.terms.length := hlen ▸ hi
  have hmem : definition.head.terms[i] ∈ definition.head.terms := List.getElem_mem hi'
  have hzip : (Term.var x, definition.head.terms[i]) ∈ target.terms.zip definition.head.terms := by
    refine List.mem_iff_getElem.2 ⟨i, by simp [hi, hi'], ?_⟩
    rw [List.getElem_zip, hxi]
  generalize definition.head.terms[i] = u at hmem hzip
  have hyw : y.wildcard = false := by
    have := Subst.resolve_isWildcard h.triangular (.var x)
    rw [← Subst.chase_eq_resolve h.triangular, hy] at this
    exact this.trans hx.1
  -- the term that faces `x` ends at `y` too: it has the value of `y`, whatever that is
  have hchase : s.chase u = .var y := by
    refine Term.eq_var_of_value? (fun κ => ?_)
    have hag := ((Literal.unify_eq_some h.unify).2.2 _).1 (Subst.solves_extend h.triangular κ) _ hzip
    have hxv : (Term.var x).value? (s.extend κ) = some (κ y) := by
      rw [Subst.value?_extend h.triangular, hy, Term.value?_var hyw]
    rw [← Subst.value?_extend h.triangular]
    rcases hag with e | e | e
    · rw [hxv] at e
      cases e
    · exact absurd e (Term.value?_ne_none (hc u hmem) _)
    · exact e.symm.trans hxv
  cases u with
  | const c =>
    rw [Subst.chase_eq_resolve h.triangular, Subst.resolve_const] at hchase
    cases hchase
  | var z => exact ⟨z, ⟨hc _ hmem, hmem⟩, hchase⟩

/-- The merged rule is written in the words of the other two. -/
theorem hasLiteral [Weight W] {V : Vocabulary W} {n : Nat} (h : Merges referrer definition merged target rest s)
    (ht : V.HasLiteral n target) (hd : V.HasLiteral n definition.head) {l : Literal W} (hl : V.HasLiteral n l) :
    V.HasLiteral n (l.subst s) :=
  hl.subst h.triangular (Literal.unify_closed h.unify ht.terms hd.terms)

/-- The variables of the merged rule are bound by what bound them in the other two. -/
theorem rangeRestricted (h : Merges referrer definition merged target rest s) (ht : target.isWellFormed = true)
    (hd : definition.head.isWellFormed = true) (hc : ∀ t ∈ definition.head.terms, t.isWildcard = false)
    (hpos : ∀ m ∈ merged.body, m.isNegated = false) (hr : referrer.RangeRestricted) (hdr : definition.RangeRestricted) :
    merged.RangeRestricted := by
  have hbind : ∀ {l : Literal W} {x y : Var}, (l ∈ definition.body ∨ l ∈ rest) → VarsOf l.terms x →
      s.chase (.var x) = .var y → y.wildcard = false → ∃ m ∈ merged.body, m.isNegated = false ∧ VarsOf m.terms y := by
    intro l x y hl hx hy hw
    have hm := (h.body (l.subst s)).2 ⟨l, hl, rfl⟩
    exact ⟨l.subst s, hm, hpos _ hm, (Literal.varsOf_subst_iff h.triangular).2 ⟨hw, x, hx, hy⟩⟩
  refine ⟨fun y hy => ?_, fun pre m post hb hn => ?_⟩
  · rw [h.head] at hy
    obtain ⟨hw, x, hx, hxy⟩ := (Literal.varsOf_subst_iff h.triangular).1 hy
    obtain ⟨l, hl, -, hlx⟩ := hr.head x hx
    rcases (h.split l).1 hl with rfl | hl
    · obtain ⟨z, hz, hzy⟩ := h.exists_var ht hd hc hlx hxy
      obtain ⟨k, hk, -, hkz⟩ := hdr.head z hz
      exact hbind (.inl hk) hkz hzy hw
    · exact hbind (.inr hl) hlx hxy hw
  · rw [hpos m (hb ▸ List.mem_append_right _ List.mem_cons_self)] at hn
    cases hn

end Merges

/-! ## What depends on variables -/

/-- Only its variables matter to what a literal says. -/
theorem Literal.values_congr {l : Literal W} {ν κ : Valuation} (h : ∀ v, VarsOf l.terms v → ν v = κ v) :
    l.values ν = l.values κ := by
  refine List.map_congr_left (fun t ht => ?_)
  cases t with
  | const c => rfl
  | var v =>
    cases hw : v.wildcard with
    | true => rw [Term.value?_wildcard hw, Term.value?_wildcard hw]
    | false => rw [Term.value?_var hw, Term.value?_var hw, h v ⟨hw, ht⟩]

theorem Relabeling.transport_other {S : Var → Prop} {f : Var → Var} {w : Var} (hw : ∀ v, S v → f v ≠ w)
    (μ κ : Valuation) : Relabeling.transport S f μ κ w = κ w := by
  rw [transport, dif_neg]
  rintro ⟨v, hv, e⟩
  exact hw v hv e

namespace KnowledgeBase

/-- The knowledge base `kb'` is `kb` with a definition, which is all it has about its predicate, written out in the rule
`referrer`; `copy` is the definition in variables of its own. -/
structure Inlines (kb kb' : KnowledgeBase W) (definition copy referrer merged : Clause W) : Prop where
  facts   : kb'.facts = kb.facts
  sorted  : kb'.rules.Sorted
  defined : definition ∈ kb.rules.clauses
  refers  : referrer ∈ kb.rules.clauses
  keeps   : ∀ c ∈ kb.rules.clauses, c = referrer ∨ c ∈ kb'.rules.clauses
  holds   : ∀ c ∈ kb'.rules.clauses, c = merged ∨ c ∈ kb.rules.clauses
  gains   : merged ∈ kb'.rules.clauses
  only    : ∀ c ∈ kb.rules.clauses, c.head.predicate = definition.head.predicate → c = definition
  unique  : ∀ c ∈ kb.facts.clauses, c.head.predicate ≠ definition.head.predicate
  other   : referrer.head.predicate ≠ definition.head.predicate
  copies  : ∃ f low high, Relabeling definition.VarsIn f low high ∧ Literal.Copy f definition.head copy.head ∧
    List.Forall₂ (Literal.Copy f) definition.body copy.body
  merges  : ∃ target rest s, Merges referrer copy merged target rest s

/-- The theories `T` and `T'` have the rules of `kb` and of `kb'`, and the same facts, all of which `kb` states. -/
structure Reads (kb kb' : KnowledgeBase W) (T T' : Theory W) : Prop where
  before : ∀ c, T.rule c ↔ c ∈ kb.rules.clauses
  after  : ∀ c, T'.rule c ↔ c ∈ kb'.rules.clauses
  fact   : ∀ a, T'.fact a ↔ T.fact a
  stated : ∀ a, T.fact a → ∃ w, kb.States a w

namespace Inlines

variable {kb kb' : KnowledgeBase W} {definition copy referrer merged : Clause W} {a b : Atom} {T T' : Theory W}

theorem reads_theory (h : Inlines kb kb' definition copy referrer merged)
    (denied denied' : Predicate → List (Option Constant) → Prop) : Reads kb kb' (kb.theory denied) (kb'.theory denied') :=
  ⟨fun _ => .rfl, fun _ => .rfl, fun a => by simp only [theory, States, h.facts], fun _ hf => hf⟩

/-- What the definition's head and body say, its copy says. -/
theorem definition_of_copy (h : Inlines kb kb' definition copy referrer merged) {ν : Valuation}
    (hh : copy.head.Admits ν b) {P : Atom → Prop} (hb : ∀ l ∈ copy.body, ∃ x, l.Admits ν x ∧ P x) :
    ∃ μ, definition.head.Admits μ b ∧ ∀ l ∈ definition.body, ∃ x, l.Admits μ x ∧ P x := by
  obtain ⟨f, low, high, hf, hhead, hbody⟩ := h.copies
  refine ⟨fun v => ν (f v), ⟨hhead.predicate ▸ hh.1, ?_⟩, fun l hl => ?_⟩
  · rw [← hhead.values_eq hf (fun v hv => .inl hv)]
    exact hh.2
  · obtain ⟨l', hl', hcopy⟩ := forall₂_exists_right hbody hl
    obtain ⟨x, hx, hp⟩ := hb l' hl'
    refine ⟨x, ⟨hcopy.predicate ▸ hx.1, ?_⟩, hp⟩
    rw [← hcopy.values_eq hf (fun v hv => .inr ⟨l, hl, hv⟩)]
    exact hx.2

/-- What the definition says next to what the referrer says, as they share no variables. -/
theorem copy_of_definition (h : Inlines kb kb' definition copy referrer merged)
    (hapart : ∀ v, copy.VarsIn v → ¬ referrer.VarsIn v) {μ : Valuation} (ν : Valuation)
    (hh : definition.head.Admits μ b) {P : Atom → Prop} (hb : ∀ l ∈ definition.body, ∃ x, l.Admits μ x ∧ P x) :
    ∃ κ, copy.head.Admits κ b ∧ (∀ l ∈ copy.body, ∃ x, l.Admits κ x ∧ P x) ∧
      ∀ l ∈ referrer.head :: referrer.body, ∀ x, l.Admits κ x ↔ l.Admits ν x := by
  obtain ⟨f, low, high, hf, hhead, hbody⟩ := h.copies
  refine ⟨Relabeling.transport definition.VarsIn f μ ν, ⟨hhead.predicate.trans hh.1, ?_⟩, fun l' hl' => ?_,
    fun l hl x => ?_⟩
  · rw [hhead.values_transport hf (fun v hv => .inl hv)]
    exact hh.2
  · obtain ⟨l, hl, hcopy⟩ := forall₂_exists_left hbody hl'
    obtain ⟨x, hx, hp⟩ := hb l hl
    refine ⟨x, ⟨hcopy.predicate.trans hx.1, ?_⟩, hp⟩
    rw [hcopy.values_transport hf (fun v hv => .inr ⟨l, hl, hv⟩)]
    exact hx.2
  · have hin : ∀ w, VarsOf l.terms w → referrer.VarsIn w := by
      intro w hw
      rcases List.mem_cons.1 hl with rfl | hl
      · exact .inl hw
      · exact .inr ⟨l, hl, hw⟩
    rw [Literal.Admits, Literal.Admits, Literal.values_congr (fun w hw => Relabeling.transport_other (fun v hv e => ?_) μ ν)]
    refine hapart w ?_ (hin w hw)
    rcases hv with hv | ⟨m, hm, hv⟩
    · exact .inl ((hhead.varsOf_iff hf (fun v hv => .inl hv)).2 ⟨v, hv, e⟩)
    · obtain ⟨m', hm', hcopy⟩ := forall₂_exists_right hbody hm
      exact .inr ⟨m', hm', (hcopy.varsOf_iff hf (fun v hv => .inr ⟨m, hm, hv⟩)).2 ⟨v, hv, e⟩⟩

variable (h : Inlines kb kb' definition copy referrer merged)
  (hpos : ∀ c ∈ kb.rules.clauses, ∀ l ∈ c.body, l.isNegated = false)

include h hpos in
theorem positive_copy : ∀ l ∈ copy.body, l.isNegated = false := by
  obtain ⟨f, low, high, -, -, hbody⟩ := h.copies
  intro l' hl'
  obtain ⟨l, hl, hcopy⟩ := forall₂_exists_left hbody hl'
  rw [Literal.isNegated, hcopy.predicate]
  exact hpos definition h.defined l hl

include h hpos in
theorem positive : ∀ c ∈ kb'.rules.clauses, ∀ l ∈ c.body, l.isNegated = false := by
  intro c hc m hm
  rcases h.holds c hc with rfl | hc
  · obtain ⟨target, rest, s, hmerge⟩ := h.merges
    obtain ⟨l, hl, rfl⟩ := (hmerge.body m).1 hm
    rw [Clause.subst_isNegated]
    rcases hl with hl | hl
    · exact h.positive_copy hpos l hl
    · exact hpos referrer h.refers l ((hmerge.split l).2 (.inr hl))
  · exact hpos c hc m hm

include h hpos in
/-- An atom of the defined predicate holds by the definition only. -/
theorem exists_definition (hT : Reads kb kb' T T') (hp : b.predicate = definition.head.predicate) (hb : T'.Holds b) :
    ∃ μ, definition.head.Admits μ b ∧ ∀ l ∈ definition.body, ∃ x, l.Admits μ x ∧ T'.Holds x := by
  cases hb with
  | fact hf =>
    obtain ⟨w, hs⟩ := hT.stated b ((hT.fact b).1 hf)
    exact absurd hp (h.unique _ hs)
  | @rule c μ pick _ hi hbody =>
    have hc' := (hT.after c).1 hi.rule
    have hc : c = definition := by
      rcases h.holds c hc' with rfl | hc
      · obtain ⟨target, rest, s, hm⟩ := h.merges
        have hsame : c.head.predicate = referrer.head.predicate := by rw [hm.head, Literal.subst_predicate]
        exact absurd (hsame.symm.trans (hi.head.1.trans hp)) h.other
      · exact h.only c hc (hi.head.1.trans hp)
    subst hc
    exact ⟨μ, hi.head, fun l hl =>
      ⟨pick l, hi.body l hl (h.positive hpos c hc' l hl), hbody l hl (h.positive hpos c hc' l hl)⟩⟩

include h hpos in
/-- What a rule gave before, a rule gives: an instance of the referrer has an atom of the defined predicate, and the
instance of the definition it comes from makes it an instance of the merged rule. -/
theorem fires_after_instance (hT : Reads kb kb' T T') (hapart : ∀ v, copy.VarsIn v → ¬ referrer.VarsIn v) {c : Clause W}
    {ν : Valuation} {pick : Literal W → Atom} (hc : c ∈ kb.rules.clauses) (hhead : c.head.Admits ν a)
    (hbody : ∀ l ∈ c.body, l.Admits ν (pick l) ∧ T'.Holds (pick l)) : T'.Fires a := by
  rcases h.keeps c hc with rfl | hc'
  · obtain ⟨target, rest, s, hm⟩ := h.merges
    obtain ⟨f, low, high, -, hsame, -⟩ := h.copies
    obtain ⟨htarget, hb⟩ := hbody target ((hm.split target).2 (.inl rfl))
    have hp : (pick target).predicate = definition.head.predicate := by
      rw [← htarget.1, hm.predicate, hsame.predicate]
    obtain ⟨μ, hdh, hdb⟩ := h.exists_definition hpos hT hp hb
    obtain ⟨κ, hch, hcb, hsame⟩ := h.copy_of_definition hapart ν hdh hdb
    have htκ := (hsame target (List.mem_cons_of_mem _ ((hm.split target).2 (.inl rfl))) _).2 htarget
    refine .of_body ((hT.after _).2 h.gains) (h.positive hpos merged h.gains) (ν := κ) ?_ (fun m hmb => ?_)
    · rw [hm.head, hm.fold htκ hch]
      exact (hsame _ List.mem_cons_self a).2 hhead
    · obtain ⟨l, hl, rfl⟩ := (hm.body m).1 hmb
      simp only [hm.fold htκ hch]
      rcases hl with hl | hl
      · exact hcb l hl
      · have hlb := (hm.split l).2 (.inr hl)
        exact ⟨pick l, (hsame l (List.mem_cons_of_mem _ hlb) _).2 (hbody l hlb).1, (hbody l hlb).2⟩
  · exact .of_body ((hT.after _).2 hc') (hpos c hc) hhead (fun l hl => ⟨pick l, hbody l hl⟩)

include h hpos in
theorem holds_after (hT : Reads kb kb' T T') (hapart : ∀ v, copy.VarsIn v → ¬ referrer.VarsIn v) (ha : T.Holds a) :
    T'.Holds a := by
  induction ha with
  | fact hf => exact .fact ((hT.fact _).2 hf)
  | @rule c ν pick a hi _ ih =>
    have hc := (hT.before c).1 hi.rule
    exact (h.fires_after_instance hpos hT hapart hc hi.head (fun l hl =>
      ⟨hi.body l hl (hpos c hc l hl), ih l hl (hpos c hc l hl)⟩)).holds

include h hpos in
theorem fires_after (hT : Reads kb kb' T T') (hapart : ∀ v, copy.VarsIn v → ¬ referrer.VarsIn v) (ha : T.Fires a) :
    T'.Fires a := by
  obtain ⟨c, ν, pick, hi, hbody⟩ := ha
  have hc := (hT.before c).1 hi.rule
  exact h.fires_after_instance hpos hT hapart hc hi.head (fun l hl =>
    ⟨hi.body l hl (hpos c hc l hl), h.holds_after hpos hT hapart (hbody l hl (hpos c hc l hl))⟩)

variable [Weight W] {V : Vocabulary W} (hkb : kb.Regular V)

include h hkb in
/-- The copy of the definition has a well-formed head without wildcards, and so is the literal it takes the place of. -/
theorem head_copy {target : Literal W} {rest : List (Literal W)} {s : Subst}
    (hm : Merges referrer copy merged target rest s) : target.isWellFormed = true ∧ copy.head.isWellFormed = true ∧
      ∀ t ∈ copy.head.terms, t.isWildcard = false := by
  obtain ⟨f, low, high, hf, hhead, -⟩ := h.copies
  obtain ⟨⟨n, ht⟩, -⟩ := (hkb.rule referrer h.refers).body target ((hm.split target).2 (.inl rfl))
  obtain ⟨k, hd⟩ := (hkb.rule definition h.defined).head
  refine ⟨ht.wellFormed, ?_, hhead.closed hf (fun v hv => .inl hv) (hkb.rule definition h.defined).closed⟩
  exact (hd.copy hhead hf (fun v hv => .inl hv)).wellFormed

include h hpos hkb in
/-- What a rule gives after the definition was written out, a rule gave before: the merged rule says what the referrer and
the definition say, one after the other. -/
theorem fires_of_instance (hT : Reads kb kb' T T') {c : Clause W} {κ : Valuation} (hc : c ∈ kb'.rules.clauses)
    (hhead : c.head.Admits κ a) (hbody : ∀ m ∈ c.body, ∃ x, m.Admits κ x ∧ T.Holds x) : T.Fires a := by
  rcases h.holds c hc with rfl | hc
  · obtain ⟨target, rest, s, hm⟩ := h.merges
    obtain ⟨htw, hdw, hdc⟩ := h.head_copy hkb hm
    obtain ⟨b, hdb, htb⟩ := hm.exists_atom htw hdw hdc κ
    have hpart : ∀ l, (l ∈ copy.body ∨ l ∈ rest) → ∃ x, l.Admits (s.extend κ) x ∧ T.Holds x := by
      intro l hl
      obtain ⟨x, hx, hold⟩ := hbody (l.subst s) ((hm.body _).2 ⟨l, hl, rfl⟩)
      exact ⟨x, (hm.unfold l x).1 hx, hold⟩
    have hb : T.Holds b := by
      obtain ⟨μ, hdef, hrest⟩ := h.definition_of_copy hdb (fun l hl => hpart l (.inl hl))
      exact .of_rule ((hT.before _).2 h.defined) (hpos definition h.defined) hdef hrest
    refine .of_body ((hT.before _).2 h.refers) (hpos referrer h.refers) ((hm.unfold _ _).1 (hm.head ▸ hhead))
      (fun l hl => ?_)
    rcases (hm.split l).1 hl with rfl | hl
    · exact ⟨b, htb, hb⟩
    · exact hpart l (.inr hl)
  · exact .of_body ((hT.before _).2 hc) (hpos c hc) hhead hbody

include h hpos hkb in
theorem holds_of_holds (hT : Reads kb kb' T T') (ha : T'.Holds a) : T.Holds a := by
  induction ha with
  | fact hf => exact .fact ((hT.fact _).1 hf)
  | @rule c κ pick a hi _ ih =>
    have hc := (hT.after c).1 hi.rule
    exact (h.fires_of_instance hpos hkb hT hc hi.head (fun m hm =>
      ⟨pick m, hi.body m hm (h.positive hpos c hc m hm), ih m hm (h.positive hpos c hc m hm)⟩)).holds

include h hpos hkb in
theorem fires_of_fires (hT : Reads kb kb' T T') (ha : T'.Fires a) : T.Fires a := by
  obtain ⟨c, κ, pick, hi, hbody⟩ := ha
  have hc := (hT.after c).1 hi.rule
  exact h.fires_of_instance hpos hkb hT hc hi.head (fun m hm =>
    ⟨pick m, hi.body m hm (h.positive hpos c hc m hm),
      h.holds_of_holds hpos hkb hT (hbody m hm (h.positive hpos c hc m hm))⟩)

include h hpos hkb in
/-- **What is stated has the same least model before and after.** -/
theorem holds_iff (hT : Reads kb kb' T T') (hapart : ∀ v, copy.VarsIn v → ¬ referrer.VarsIn v) (a : Atom) :
    T'.Holds a ↔ T.Holds a :=
  ⟨h.holds_of_holds hpos hkb hT, h.holds_after hpos hT hapart⟩

/-! ### The merged rule is in order -/

include h hkb in
theorem hasLiteral_copy : ∃ n, ∀ l ∈ copy.head :: copy.body, V.HasLiteral n l := by
  obtain ⟨f, low, high, hf, hhead, hbody⟩ := h.copies
  have hdef := hkb.rule definition h.defined
  refine ⟨high, fun l hl => ?_⟩
  rcases List.mem_cons.1 hl with rfl | hl
  · obtain ⟨n, hn⟩ := hdef.head
    exact hn.copy hhead hf (fun v hv => .inl hv)
  · obtain ⟨m, hm, hcopy⟩ := forall₂_exists_left hbody hl
    obtain ⟨⟨n, hn⟩, -⟩ := hdef.body m hm
    exact hn.copy hcopy hf (fun v hv => .inr ⟨m, hm, hv⟩)

include h hpos hkb in
theorem merged_regular : merged.Regular V := by
  obtain ⟨target, rest, s, hm⟩ := h.merges
  obtain ⟨f, low, high, hf, hhead, hbody⟩ := h.copies
  obtain ⟨htw, hdw, hdc⟩ := h.head_copy hkb hm
  obtain ⟨n, hcopy⟩ := h.hasLiteral_copy hkb
  have href := hkb.rule referrer h.refers
  have hdef := hkb.rule definition h.defined
  obtain ⟨⟨k, htarget⟩, -⟩ := href.body target ((hm.split target).2 (.inl rfl))
  have hword : ∀ {l : Literal W}, (∃ i, V.HasLiteral i l) → ∃ i, V.HasLiteral i (l.subst s) := by
    rintro l ⟨i, hi⟩
    exact ⟨n + k + i, hm.hasLiteral (htarget.mono (by omega)) ((hcopy _ List.mem_cons_self).mono (by omega))
      (hi.mono (by omega))⟩
  refine ⟨?_, ?_, ?_, ?_, fun e => ?_, fun m hmb => ?_, ?_⟩
  · rw [hm.head]
    exact hword href.head
  · rw [hm.head, Clause.subst_isNegated]
    exact href.positive
  · rw [hm.head, Literal.subst_weight]
    exact href.certain
  · rw [hm.head]
    exact subst_closed_wildcard hm.triangular href.closed
  · obtain ⟨l, hl⟩ := List.exists_mem_of_ne_nil _ hdef.nonempty
    obtain ⟨l', hl', -⟩ := forall₂_exists_right hbody hl
    have hin := (hm.body (l'.subst s)).2 ⟨l', .inl hl', rfl⟩
    rw [e] at hin
    cases hin
  · obtain ⟨l, hl, rfl⟩ := (hm.body m).1 hmb
    rw [Literal.subst_weight]
    rcases hl with hl | hl
    · obtain ⟨l₀, hl₀, hc⟩ := forall₂_exists_left hbody hl
      exact ⟨hword ⟨n, hcopy l (List.mem_cons_of_mem _ hl)⟩, hc.weight.trans (hdef.body l₀ hl₀).2⟩
    · obtain ⟨hhas, hone⟩ := href.body l ((hm.split l).2 (.inr hl))
      exact ⟨hword hhas, hone⟩
  · exact hm.rangeRestricted htw hdw hdc (h.positive hpos merged h.gains) href.restricted
      (hdef.restricted.copy hf hhead hbody)

include h hpos hkb in
theorem regular : kb'.Regular V := by
  refine ⟨h.facts ▸ hkb.facts, h.sorted, h.facts ▸ hkb.fact, fun c hc => ?_⟩
  rcases h.holds c hc with rfl | hc
  · exact h.merged_regular hpos hkb
  · exact hkb.rule c hc

end Inlines

/-! ## Chances -/

namespace Inlines

variable {kb kb' : KnowledgeBase ℚ} {V : Vocabulary ℚ} {definition copy referrer merged : Clause ℚ} {B : Finset (Clause ℚ)}
  (h : Inlines kb kb' definition copy referrer merged)

include h in
theorem reads_world (hB : ∀ c ∈ B, c ∈ kb.facts.clauses) : Reads kb kb' (kb.world B) (kb'.world B) := by
  refine ⟨fun _ => .rfl, fun _ => .rfl, fun a => by simp only [world, States, h.facts], fun a hf => ?_⟩
  rcases hf with hs | ⟨w, hs⟩
  · exact ⟨1, hs⟩
  · exact ⟨w, hB _ hs⟩

include h in
theorem chance_eq (hkb : kb.Regular V) (hpos : ∀ c ∈ kb.rules.clauses, ∀ l ∈ c.body, l.isNegated = false)
    (hapart : ∀ v, copy.VarsIn v → ¬ referrer.VarsIn v) (l : Literal ℚ) : kb'.chance l = kb.chance l := by
  rw [chance, chance, show kb'.uncertain = kb.uncertain by rw [uncertain, uncertain, h.facts]]
  refine mass_congr (fun B hB => exists_congr (fun a => and_congr_right (fun _ => ?_)))
  exact h.holds_iff hpos hkb (h.reads_world (fun c hc => (mem_uncertain.1 (hB hc)).1)) hapart a

include h in
theorem definite (hd : kb.Definite) : kb'.Definite := by
  refine ⟨h.positive hd.positive, h.facts ▸ hd.fact, fun c hc => ?_⟩
  rcases h.holds c hc with rfl | hc
  · obtain ⟨target, rest, s, hm⟩ := h.merges
    rw [← hd.rule referrer h.refers]
    exact Prover.isRuleWeight_congr (by rw [hm.head, Literal.subst_predicate])
  · exact hd.rule c hc

end Inlines
end KnowledgeBase
end Credence
