import Credence.Proofs.Loading
import Credence.Proofs.Rereading
import Credence.Proofs.Scheduling
/-!
# Orders that stay

The order of a body comes of which positions wait for which and which are preferred to which.  Bodies that agree in that
(`Clause.Parallel`) are put into one order of positions, or are both refused (`Clause.Parallel.reorder`).  A renamed rule
agrees with the rule (`Clause.Copy.parallel`), and a rule in order is left as it stands.  So a rule that was read keeps
its body when it is told, and what may come behind is the literal that carries its weight (`Clause.reorder_stable`).
-/
namespace Credence

variable {W : Type}

/-! ## Bodies that are ordered alike -/

namespace Clause

variable {r : Registry} {c c' : Clause W}

/-- Position by position the bodies wait for the same, and prefer the same. -/
structure Parallel (r : Registry) (c c' : Clause W) : Prop where
  length  : c'.body.length = c.body.length
  before  : ∀ i j, c'.Before r i j ↔ c.Before r i j
  prefers : ∀ i j, c'.Prefers r i j ↔ c.Prefers r i j

namespace Parallel

theorem cyclic (h : Parallel r c c') : c'.Cyclic r ↔ c.Cyclic r := by
  have e : c'.Before r = c.Before r := funext₂ (fun i j => propext (h.before i j))
  rw [Cyclic, Cyclic, e]

theorem ready (h : Parallel r c c') {placed : List Nat} {i : Nat} : c'.Ready r placed i ↔ c.Ready r placed i := by
  simp only [Ready, h.length, h.before]

/-- **What is chosen for the one is chosen for the other**, from one placed position to the next. -/
theorem chooses (h : Parallel r c c') : ∀ {order placed : List Nat}, c'.Chooses r placed order ↔ c.Chooses r placed order
  | [],         placed => by simp only [Chooses, h.length]
  | i :: order, placed => by
    have ih : ∀ {placed : List Nat}, c'.Chooses r placed order ↔ c.Chooses r placed order := h.chooses
    simp only [Chooses, h.ready, h.prefers, ih]

variable [Weight W]

/-- **Bodies that are ordered alike are put into one order, or are both refused.** -/
theorem reorder (h : Parallel r c c') :
    (∃ order : List Nat, order.Perm (List.range c.body.length) ∧
      c.Chooses r [] order ∧ c.reorder r = .ok (c.arrange order) ∧
      c'.Chooses r [] order ∧ c'.reorder r = .ok (c'.arrange order)) ∨
    c.reorder r = .error (.cyclicBody c.text) ∧ c'.reorder r = .error (.cyclicBody c'.text) := by
  by_cases hc : c.Cyclic r
  · exact .inr ⟨reorder_eq_error_iff.2 hc, reorder_eq_error_iff.2 (h.cyclic.2 hc)⟩
  · obtain ⟨order, hok, hperm, -, hchooses⟩ := exists_order hc
    obtain ⟨order', hok', -, -, hchooses'⟩ := exists_order (mt h.cyclic.1 hc)
    obtain rfl : order' = order := hchooses.unique (h.chooses.1 hchooses')
    exact .inl ⟨order', hperm, hchooses, hok, hchooses', hok'⟩

end Parallel

/-- **A copy is ordered as the original is.** -/
theorem Copy.parallel {f : Var → Var} {low high : Nat} (h : Copy f c c') (hf : Relabeling c.VarsIn f low high) :
    Parallel r c c' := by
  have hright : ∀ {i : Nat} {a : Literal W}, c.body[i]? = some a →
      ∃ a', c'.body[i]? = some a' ∧ Flow.Copy c.VarsIn f (.of r a) (.of r a') := by
    intro i a ha
    obtain ⟨a', ha', hcopy⟩ := forall₂_getElem?_right h.body ha
    exact ⟨a', ha', Flow.of_copy hf hcopy (fun v hv => .inr ⟨a, List.mem_of_getElem? ha, hv⟩)⟩
  have hleft : ∀ {i : Nat} {a' : Literal W}, c'.body[i]? = some a' →
      ∃ a, c.body[i]? = some a ∧ Flow.Copy c.VarsIn f (.of r a) (.of r a') := by
    intro i a' ha'
    obtain ⟨a, ha, hcopy⟩ := forall₂_getElem?_left h.body ha'
    exact ⟨a, ha, Flow.of_copy hf hcopy (fun v hv => .inr ⟨a, List.mem_of_getElem? ha, hv⟩)⟩
  have hpreference : ∀ {a b : Flow}, Flow.Copy c.VarsIn f a b → ∀ i, b.preference i = a.preference i := by
    intro a b hab i
    simp only [Flow.preference, hab.role, hab.materializing]
  refine ⟨h.body.length_eq.symm, fun i j => ⟨?_, ?_⟩, fun i j => ⟨?_, ?_⟩⟩
  · rintro ⟨hne, a', b', ha', hb', hab⟩
    obtain ⟨a, ha, hca⟩ := hleft ha'
    obtain ⟨b, hb, hcb⟩ := hleft hb'
    exact ⟨hne, a, b, ha, hb, hca.precedes hcb hf.injective ▸ hab⟩
  · rintro ⟨hne, a, b, ha, hb, hab⟩
    obtain ⟨a', ha', hca⟩ := hright ha
    obtain ⟨b', hb', hcb⟩ := hright hb
    exact ⟨hne, a', b', ha', hb', (hca.precedes hcb hf.injective).trans hab⟩
  · rintro ⟨a', b', ha', hb', hab⟩
    obtain ⟨a, ha, hca⟩ := hleft ha'
    obtain ⟨b, hb, hcb⟩ := hleft hb'
    exact ⟨a, b, ha, hb, by rwa [hpreference hca, hpreference hcb] at hab⟩
  · rintro ⟨a, b, ha, hb, hab⟩
    obtain ⟨a', ha', hca⟩ := hright ha
    obtain ⟨b', hb', hcb⟩ := hright hb
    exact ⟨a', b', ha', hb', by rwa [hpreference hca, hpreference hcb]⟩

theorem parallel_rename (r : Registry) (c : Clause W) (pool : VarPool) : Parallel r c (c.rename pool).1 := by
  obtain ⟨f, hf, hhead, hbody⟩ := c.rename_spec pool
  exact Copy.parallel ⟨hhead, hbody⟩ hf

end Clause

/-! ## Rules that were read -/

namespace KnowledgeBase

variable [Weight W] {kb : KnowledgeBase W} {c : Clause W}

/-- Only the literal of a weight is put behind the body of a rule that is kept. -/
theorem rules_keepRule [LawfulWeight W] (kb : KnowledgeBase W) (c : Clause W) :
    (kb.keepRule c).1 = !kb.seen.contains c.key ∧
    (kb.keepRule c).2.rules = if kb.seen.contains c.key then kb.rules else
      kb.rules.push ⟨{ c.head with weight := 1 }, c.body ++ if c.head.isCertain then [] else [kb.weightLiteral 1]⟩ := by
  unfold keepRule
  cases kb.seen.contains c.key with
  | true => exact ⟨rfl, rfl⟩
  | false =>
    cases hcertain : c.head.isCertain with
    | true =>
      have hweight : c.head.weight = 1 := (LawfulWeight.isCertain_iff _).1 hcertain
      refine ⟨rfl, ?_⟩
      show kb.rules.push c = kb.rules.push ⟨{ c.head with weight := 1 }, c.body ++ []⟩
      rw [List.append_nil, ← hweight]
    | false =>
      refine ⟨rfl, ?_⟩
      simp only [storeRule, storeFact, Bool.false_eq_true, if_false]
      split <;> rfl

/-- **A rule that was read is told as it stands.** -/
theorem tell_rule_isSaid [LawfulWeight W] (hc : c.IsSaid kb.registry) (hne : c.body ≠ []) :
    c.head.isPrimitive = true ∧ kb.tell c = .ok (false, kb) ∨
    c.head.isNegated = true ∧ kb.tell c = .error (.negatedHead c.text) ∨
    c.head.isPrimitive = false ∧ c.head.isNegated = false ∧ kb.tell c = .ok (kb.keepRule c) := by
  cases hneg : c.head.isNegated with
  | true => exact .inr (.inl ⟨rfl, tell_negated hc.head.checked hneg⟩)
  | false =>
    cases hprim : c.head.isPrimitive with
    | true => exact .inl ⟨rfl, tell_eq_ok_iff.2 (.inl ⟨hprim, rfl⟩)⟩
    | false =>
      obtain ⟨hcheck, hord⟩ := hc.rule hne
      have hadm := admissible_of_isSaid hc hneg
      exact .inr (.inr ⟨rfl, rfl, tell_eq_ok_iff.2 (.inr ⟨hprim, hadm, .inr ⟨hne, hcheck, c, hord, rfl⟩⟩)⟩)

end KnowledgeBase

namespace Clause

variable [Weight W]

/-- **The order of a body is stable.**  A rule in order is left as it stands, and a renamed rule is put into the order of
positions that the rule is put into, or refused with it.  So a rule that was read under the registry of a knowledge base
is kept with its body as it was read, followed by the literal of its weight if it has one; or it is passed over for a
primitive in its head or as known, or refused for a negated head. -/
theorem reorder_stable (r : Registry) (c : Clause W) :
    (∀ d, c.reorder r = .ok d → d.reorder r = .ok d) ∧
    (∀ pool : VarPool,
      (∃ order : List Nat, order.Perm (List.range c.body.length) ∧
        c.Chooses r [] order ∧ c.reorder r = .ok (c.arrange order) ∧
        (c.rename pool).1.Chooses r [] order ∧ (c.rename pool).1.reorder r = .ok ((c.rename pool).1.arrange order)) ∨
      c.reorder r = .error (.cyclicBody c.text) ∧
        (c.rename pool).1.reorder r = .error (.cyclicBody (c.rename pool).1.text)) ∧
    ∀ [LawfulWeight W] (kb : KnowledgeBase W) (text : String), kb.registry = r →
      (Clause.read r text = .ok c ∨ ∃ p, Program.read r text = .ok p ∧ c ∈ p.clauses) → c.body ≠ [] →
      c.head.isPrimitive = true ∧ kb.tell c = .ok (false, kb) ∨
      c.head.isNegated = true ∧ kb.tell c = .error (.negatedHead c.text) ∨
      ∃ kb', kb.tell c = .ok (!kb.seen.contains c.key, kb') ∧
        kb'.rules = if kb.seen.contains c.key then kb.rules else
          kb.rules.push ⟨{ c.head with weight := 1 }, c.body ++ if c.head.isCertain then [] else [kb.weightLiteral 1]⟩ := by
  refine ⟨fun d => reorder_reorder, fun pool => (parallel_rename r c pool).reorder, ?_⟩
  rintro _ kb text rfl hread hne
  have hsaid : c.IsSaid kb.registry := by
    rcases hread with hread | ⟨p, hread, hc⟩
    · exact isSaid_of_read hread
    · exact (Program.isSaid_of_read hread).1 c hc
  obtain ⟨hnew, hrules⟩ := KnowledgeBase.rules_keepRule kb c
  rcases KnowledgeBase.tell_rule_isSaid hsaid hne with h | h | ⟨-, -, h⟩
  · exact .inl h
  · exact .inr (.inl h)
  · exact .inr (.inr ⟨(kb.keepRule c).2, by rw [h, ← hnew], hrules⟩)

end Clause

/-! ## Open doors -/

namespace OpenDoor

/-- A rule with a weight, its negation written first. -/
def text : String := "0.5::open(X) :- ~shut(X), door(X)."

/-- What an empty knowledge base keeps of a rule that it is told. -/
def kept (c : Clause Double) : Clause Double :=
  ⟨{ c.head with weight := 1 }, c.body ++ if c.head.isCertain then [] else [(KnowledgeBase.empty .empty).weightLiteral 1]⟩

theorem read_text : ∃ c : Clause Double, Clause.read .empty text = .ok c ∧ c.body ≠ [] ∧ c.head.isPrimitive = false ∧
    c.head.isNegated = false ∧ c.text = "0.5::open(V0) :- door(V0), ~shut(V0)" ∧
    (kept c).text = "open(V0) :- door(V0), ~shut(V0), proba_0(true)" := by
  have hread : (Clause.read (W := Double) .empty text).toOption.map (fun c =>
      (c.body.isEmpty || c.head.isPrimitive || c.head.isNegated, c.text, (kept c).text)) =
      some (false, "0.5::open(V0) :- door(V0), ~shut(V0)", "open(V0) :- door(V0), ~shut(V0), proba_0(true)") := by
    decide +kernel
  obtain ⟨c, hc, e⟩ := Option.map_eq_some_iff.1 hread
  have hc : Clause.read .empty text = .ok c := by
    revert hc
    cases Clause.read (W := Double) .empty text <;> simp [Except.toOption]
  simp only [Prod.mk.injEq, Bool.or_eq_false_iff] at e
  exact ⟨c, hc, by simpa using e.1.1.1, e.1.1.2, e.1.2, e.2⟩

end OpenDoor

open OpenDoor (kept) in
/-- The rule is read with its negation last, a renamed copy is put into the same order, and the literal of the weight is
put behind when it is told. -/
theorem Clause.reorder_stable_openDoor : ∃ c : Clause Double, Clause.read .empty OpenDoor.text = .ok c ∧
    c.text = "0.5::open(V0) :- door(V0), ~shut(V0)" ∧
    (∃ order, c.reorder .empty = .ok (c.arrange order) ∧ (c.arrange order).reorder .empty = .ok (c.arrange order) ∧
      (c.rename ⟨7⟩).1.reorder .empty = .ok ((c.rename ⟨7⟩).1.arrange order)) ∧
    ∃ kb', (KnowledgeBase.empty .empty).tell c = .ok (true, kb') ∧
      kb'.rules.clauses.map Clause.text = ["open(V0) :- door(V0), ~shut(V0), proba_0(true)"] := by
  obtain ⟨c, hc, hbody, hprim, hneg, htext, hkept⟩ := OpenDoor.read_text
  obtain ⟨hagain, hrename, htell⟩ := reorder_stable .empty c
  refine ⟨c, hc, htext, ?_, ?_⟩
  · rcases hrename ⟨7⟩ with ⟨order, -, -, hok, -, hok'⟩ | ⟨herror, -⟩
    · exact ⟨order, hok, hagain _ hok, hok'⟩
    · have hord := ((isSaid_of_read hc).rule hbody).2
      rw [herror] at hord
      cases hord
  · have hnew : (KnowledgeBase.empty .empty : KnowledgeBase Double).seen.contains c.key = false := by
      simp [KnowledgeBase.empty]
    rcases htell (.empty .empty) OpenDoor.text rfl (.inl hc) hbody with ⟨h, -⟩ | ⟨h, -⟩ | ⟨kb', htell, hrules⟩
    · rw [hprim] at h
      cases h
    · rw [hneg] at h
      cases h
    · rw [hnew] at htell hrules
      have hclauses : (Shelf.empty.push (kept c)).clauses = [kept c] := rfl
      have hrules : kb'.rules = Shelf.empty.push (kept c) := hrules.trans (if_neg Bool.false_ne_true)
      exact ⟨kb', htell, by rw [hrules, hclauses, List.map_singleton, hkept]⟩

end Credence
