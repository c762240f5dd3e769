import Credence.Proofs.Keeping
/-!
# What loading a text leaves behind

A text is read as a whole before any of its clauses is told, and a clause that was read is refused for nothing but a
negated head: its weight is proper, a fact has no variables, and a rule that has passed the check and stands in order
passes the check and stands in order (`tell_isSaid`).  So a text is loaded as a whole or not at all, unless one of its
clauses has a negated head; then the clauses in front of the first of these are kept (`load_spec`).
-/
namespace Credence
namespace KnowledgeBase

variable {W : Type} [Weight W] {kb : KnowledgeBase W} {c : Clause W}

/-! ## Clauses that were read -/

theorem admissible_of_isSaid [LawfulWeight W] {r : Registry} (hc : c.IsSaid r) (hpos : c.head.isNegated = false) :
    Admissible c := by
  have hproper : Weight.isProper c.head.weight = true := by
    rcases hc.weight with h | h
    · rw [h]
      exact LawfulWeight.isProper_one
    · exact h
  exact ⟨hpos, hproper, fun l hl => (LawfulWeight.isCertain_iff _).2 (hc.body l hl).weight⟩

/-- **A clause that was read is refused for a negated head only.** -/
theorem tell_isSaid [LawfulWeight W] (hc : c.IsSaid kb.registry) (hpos : c.head.isNegated = false) :
    ∃ isNew kb', kb.tell c = .ok (isNew, kb') := by
  have hadm := admissible_of_isSaid hc hpos
  cases hprim : c.head.isPrimitive with
  | true => exact ⟨false, kb, tell_eq_ok_iff.2 (.inl ⟨hprim, rfl⟩)⟩
  | false =>
    by_cases hbody : c.body = []
    · exact ⟨_, _, tell_eq_ok_iff.2 (.inr ⟨hprim, hadm, .inl ⟨hbody, hc.fact hbody, rfl⟩⟩)⟩
    · obtain ⟨hcheck, hord⟩ := hc.rule hbody
      exact ⟨_, _, tell_eq_ok_iff.2 (.inr ⟨hprim, hadm, .inr ⟨hbody, hcheck, c, hord, rfl⟩⟩)⟩

/-- A negated head that passed its own check is refused. -/
theorem tell_negated (hc : c.head.predicate.check = .ok c.head.predicate) (hneg : c.head.isNegated = true) :
    kb.tell c = .error (.negatedHead c.text) := by
  have hprim : c.head.isPrimitive = false := by
    unfold Predicate.check at hc
    split at hc
    · cases hc
    · rename_i h
      rw [Bool.and_eq_true, not_and, Bool.not_eq_true] at h
      exact h hneg
  simp only [KnowledgeBase.tell, refusal, hprim, hneg, Bool.false_eq_true, if_false, if_true]

/-! ## Many of them -/

/-- What comes of telling some clauses: all of them are taken, or one is the first to be refused. -/
inductive Told (kb : KnowledgeBase W) (cs : List (Clause W)) : Prop
  | all (n : Nat) (kb' : KnowledgeBase W) : (∀ c ∈ cs, c.head.isNegated = false) → kb.tellAll cs = (.ok n, kb') → Told kb cs
  | some (pre : List (Clause W)) (c : Clause W) (post : List (Clause W)) (n : Nat) (kb' : KnowledgeBase W) :
    cs = pre ++ c :: post → (∀ d ∈ pre, d.head.isNegated = false) → c.head.isNegated = true →
    kb.tellAll pre = (.ok n, kb') → kb.tellAll cs = (.error (.negatedHead c.text), kb') → Told kb cs

/-- **Clauses that were read are taken up to the first with a negated head.** -/
theorem told_of_isSaid [LawfulWeight W] : ∀ (cs : List (Clause W)) {kb : KnowledgeBase W}, (∀ c ∈ cs, c.IsSaid kb.registry) →
    kb.Told cs
  | [],      kb, _ => .all 0 kb (fun _ hc => nomatch hc) rfl
  | c :: cs, kb, h => by
    obtain ⟨hc, hcs⟩ := List.forall_mem_cons.1 h
    cases hneg : c.head.isNegated with
    | true =>
      refine .some [] c cs 0 kb rfl (fun _ hd => nomatch hd) hneg rfl ?_
      unfold KnowledgeBase.tellAll
      rw [tell_negated hc.head.checked hneg]
    | false =>
      obtain ⟨isNew, kb₁, htell⟩ := tell_isSaid hc hneg
      have hrest : kb₁.Told cs := told_of_isSaid cs (fun d hd => registry_tell htell ▸ hcs d hd)
      cases hrest with
      | all n kb' hpos hall =>
        refine .all (if isNew then n + 1 else n) kb' (List.forall_mem_cons.2 ⟨hneg, hpos⟩) ?_
        exact tellAll_cons_eq_ok_iff.2 ⟨isNew, kb₁, n, htell, hall, rfl⟩
      | some pre d post n kb' hsplit hpos hd hpre hall =>
        refine .some (c :: pre) d post (if isNew then n + 1 else n) kb' (by rw [hsplit, List.cons_append])
          (List.forall_mem_cons.2 ⟨hneg, hpos⟩) hd ?_ ?_
        · exact tellAll_cons_eq_ok_iff.2 ⟨isNew, kb₁, n, htell, hpre, rfl⟩
        · unfold KnowledgeBase.tellAll
          rw [htell]
          dsimp only
          rw [hall]

/-! ## Texts -/

/-- **A text is loaded as a whole or not at all, but for negated heads.**  A text that cannot be read changes nothing.  One
whose clauses all have positive heads is taken with all its clauses.  Otherwise the first clause with a negated head is
refused, and the knowledge base is as if the clauses in front of it had been told. -/
theorem load_spec [LawfulWeight W] (kb : KnowledgeBase W) (text : String) :
    (∃ e, Program.read (W := W) kb.registry text = .error e ∧ kb.load text = (.error e, kb)) ∨
    ∃ p, Program.read kb.registry text = .ok p ∧
      ((∀ c ∈ p.clauses, c.head.isNegated = false) ∧
          (∃ n, kb.tellAll p.clauses = (.ok n, (kb.load text).2)) ∧ (kb.load text).1 = .ok p.queries ∨
        ∃ pre c post, p.clauses = pre ++ c :: post ∧ (∀ d ∈ pre, d.head.isNegated = false) ∧ c.head.isNegated = true ∧
          (∃ n, kb.tellAll pre = (.ok n, (kb.load text).2)) ∧ (kb.load text).1 = .error (.negatedHead c.text)) := by
  cases hp : Program.read (W := W) kb.registry text with
  | error e => exact .inl ⟨e, rfl, by rw [KnowledgeBase.load, hp]⟩
  | ok p =>
    refine .inr ⟨p, rfl, ?_⟩
    cases told_of_isSaid p.clauses (Program.isSaid_of_read hp).1 with
    | all n kb' hpos hall =>
      have hload : kb.load text = (.ok p.queries, kb') := by
        rw [KnowledgeBase.load, hp]
        dsimp only
        rw [hall]
      rw [hload]
      exact .inl ⟨hpos, ⟨n, hall⟩, rfl⟩
    | some pre c post n kb' hsplit hpos hneg hpre hall =>
      have hload : kb.load text = (.error (.negatedHead c.text), kb') := by
        rw [KnowledgeBase.load, hp]
        dsimp only
        rw [hall]
      rw [hload]
      exact .inr ⟨pre, c, post, hsplit, hpos, hneg, ⟨n, hpre⟩, rfl⟩

namespace NegatedFact

/-- A fact, and one with a negated head. -/
def text : String := "q(b).\n~p(a)."

def first : Clause ℚ := .fact ⟨1, ⟨"q", 1⟩, [.const ⟨"b"⟩]⟩
def second : Clause ℚ := .fact ⟨1, ⟨"~p", 1⟩, [.const ⟨"a"⟩]⟩

theorem read_text : Program.read (W := ℚ) .empty text = .ok ⟨[first, second], []⟩ := rfl

theorem tellAll_first {n : Nat} {kb : KnowledgeBase ℚ} (h : (empty .empty).tellAll [first] = (.ok n, kb)) :
    kb.facts.clauses = [first] := by
  obtain ⟨isNew, kb₁, m, htell, hrest, -⟩ := tellAll_cons_eq_ok_iff.1 h
  obtain rfl : kb₁ = kb := congrArg Prod.snd hrest
  rcases tell_eq_ok_iff.1 htell with ⟨hprim, -⟩ | ⟨-, -, ⟨-, -, e⟩ | ⟨hne, -⟩⟩
  · exact absurd hprim (by decide)
  · rw [show kb₁ = ((empty .empty).storeFact first).2 from congrArg Prod.snd e, storeFact, if_neg]
    · rfl
    · simp [empty]
  · exact absurd rfl hne

end NegatedFact

open NegatedFact in
/-- The fact in front of the refused one has been kept. -/
theorem load_spec_negatedFact : (load (empty .empty : KnowledgeBase ℚ) text).1 = .error (.negatedHead "~p(a)") ∧
    (load (empty .empty : KnowledgeBase ℚ) text).2.facts.clauses = [first] := by
  obtain ⟨e, he, -⟩ | ⟨p, hp, ⟨hpos, -⟩ | ⟨pre, c, post, hsplit, hpos, hneg, ⟨n, hpre⟩, herror⟩⟩ :=
    load_spec (empty .empty : KnowledgeBase ℚ) text
  · exact nomatch read_text.symm.trans he
  · obtain rfl := Except.ok.inj (read_text.symm.trans hp)
    exact nomatch hpos second (by simp)
  · obtain rfl := Except.ok.inj (read_text.symm.trans hp)
    match pre, hsplit with
    | [],           hsplit =>
      obtain rfl := (List.cons.inj hsplit).1
      exact nomatch hneg
    | [x],          hsplit =>
      obtain ⟨rfl, hrest⟩ := List.cons.inj hsplit
      obtain rfl := (List.cons.inj hrest).1
      exact ⟨herror, tellAll_first hpre⟩
    | x :: y :: ys, hsplit =>
      obtain ⟨-, hrest⟩ := List.cons.inj hsplit
      have hsecond := hpos y (by simp)
      rw [← (List.cons.inj hrest).1] at hsecond
      exact nomatch hsecond

end KnowledgeBase
end Credence
