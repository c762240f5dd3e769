import Credence.Proofs.Expansion
import Credence.Proofs.Keys
/-!
# Proofs of several targets

The proofs of several targets are collected, each once.  What is left out shares its key, hence all its ids, with a proof
that stays, so nothing is lost (`proofsOf_met`).  Where proofs rest on no negation, a proof set has none; and the proof
set of a negation is the negation with the proofs of what it stands against.
-/
namespace Credence
namespace Prover

variable {W : Type} [Weight W] {p : Prover W}

/-! ## Clauses without repetitions -/

/-- What is dropped shares its key with something seen or kept. -/
theorem distinctClauses_spec : ∀ (cs : List (Clause W)) (seen : Std.HashSet (Nat × String)),
    (∀ c ∈ distinctClauses seen cs, c ∈ cs) ∧
      ∀ c ∈ cs, seen.contains c.key = true ∨ ∃ d ∈ distinctClauses seen cs, d.key = c.key
  | [],      seen => ⟨(fun _ h => h), (fun _ h => nomatch h)⟩
  | c :: cs, seen => by
    unfold distinctClauses
    dsimp only
    split
    · rename_i hc
      obtain ⟨ih1, ih2⟩ := distinctClauses_spec cs seen
      refine ⟨fun d hd => List.mem_cons_of_mem _ (ih1 d hd), fun d hd => ?_⟩
      rcases List.mem_cons.1 hd with rfl | hd
      · exact .inl hc
      · exact ih2 d hd
    · obtain ⟨ih1, ih2⟩ := distinctClauses_spec cs (seen.insert c.key)
      refine ⟨fun d hd => ?_, fun d hd => ?_⟩
      · rcases List.mem_cons.1 hd with rfl | hd
        · exact List.mem_cons_self
        · exact List.mem_cons_of_mem _ (ih1 d hd)
      · rcases List.mem_cons.1 hd with rfl | hd
        · exact .inr ⟨d, List.mem_cons_self, rfl⟩
        · rcases ih2 d hd with hs | ⟨e, he, hk⟩
          · rw [Std.HashSet.contains_insert, Bool.or_eq_true, beq_iff_eq] at hs
            rcases hs with hs | hs
            · exact .inr ⟨c, List.mem_cons_self, hs⟩
            · exact .inl hs
          · exact .inr ⟨e, List.mem_cons_of_mem _ he, hk⟩

/-- A collected proof is a proof of some target. -/
theorem of_mem_proofsOf {targets : List (Literal W)} {c : Clause W} (h : c ∈ p.proofsOf targets) :
    c.head ∈ targets ∧ c.body ∈ p.expand c.head := by
  obtain ⟨t, ht, hc⟩ := List.mem_flatMap.1 ((distinctClauses_spec _ ∅).1 c h)
  obtain ⟨b, hb, rfl⟩ := List.mem_map.1 hc
  exact ⟨ht, hb⟩

/-- A literal of the language without variables. -/
def Closed (l : Literal W) : Prop := l.isPlain = true ∧ l.isSemiGrounded = true

omit [Weight W] in
theorem isPlain_of_closed {c : Clause W} (hh : Closed c.head) (hb : ∀ l ∈ c.body, Closed l) :
    c.isPlain = true ∧ c.isSemiGrounded = true := by
  rw [Clause.isPlain, Clause.isSemiGrounded, Bool.and_eq_true, Bool.and_eq_true, List.all_eq_true, List.all_eq_true]
  exact ⟨⟨hh.1, fun l hl => (hb l hl).1⟩, ⟨hh.2, fun l hl => (hb l hl).2⟩⟩

/-- **Some collected proof is met exactly when some target has an alternative that is.** -/
theorem proofsOf_met [LawfulWeight W] {targets : List (Literal W)} (ht : ∀ t ∈ targets, Closed t)
    (hb : ∀ t ∈ targets, ∀ b ∈ p.expand t, ∀ l ∈ b, Closed l) (S : String → Prop) :
    (∃ c ∈ p.proofsOf targets, Met S c.body) ↔ ∃ t ∈ targets, AnyMet S (p.expand t) := by
  constructor
  · rintro ⟨c, hc, hm⟩
    obtain ⟨hhead, hbody⟩ := of_mem_proofsOf hc
    exact ⟨c.head, hhead, c.body, hbody, hm⟩
  · rintro ⟨t, htm, b, hbm, hm⟩
    have hmem : (⟨t, b⟩ : Clause W) ∈ targets.flatMap p.proofs :=
      List.mem_flatMap.2 ⟨t, htm, List.mem_map_of_mem (f := fun b => (⟨t, b⟩ : Clause W)) hbm⟩
    rcases (distinctClauses_spec _ ∅).2 _ hmem with hs | ⟨d, hd, hk⟩
    · rw [Std.HashSet.contains_empty] at hs
      cases hs
    · obtain ⟨hdt, hde⟩ := of_mem_proofsOf hd
      obtain ⟨h1, h2⟩ := isPlain_of_closed (ht _ hdt) (hb _ hdt _ hde)
      obtain ⟨h3, h4⟩ := isPlain_of_closed (c := ⟨t, b⟩) (ht t htm) (hb t htm b hbm)
      have hids := Literal.map_id_of_map_form ((Clause.key_eq_iff h2 h4 h1 h3).1 hk).2
      refine ⟨d, hd, fun l hl => ?_⟩
      have hid : l.id ∈ b.map Literal.id := hids ▸ List.mem_map_of_mem hl
      obtain ⟨m, hmb, e⟩ := List.mem_map.1 hid
      exact e ▸ hm m hmb

/-! ## Proof sets -/

/-- No collected proof rests on a negation. -/
def RestsPositive (proofs : List (Clause W)) : Prop := ∀ c ∈ proofs, ∀ l ∈ c.body, l.isNegated = false

omit [Weight W] in
theorem negationLeaves_of_positive {proofs : List (Clause W)} (h : RestsPositive proofs) :
    ProofSet.negationLeaves proofs = [] := by
  refine List.flatMap_eq_nil_iff.2 (fun c hc => List.filter_eq_nil_iff.2 (fun l hl hn => ?_))
  rw [h c hc l hl] at hn
  cases hn

theorem closeNegations_nil (fuel : Nat) (known : Std.HashMap String (List (Clause W))) :
    p.closeNegations fuel [] known = known := by rw [closeNegations]

theorem proofSet_of_positive {targets : List (Literal W)} (h : RestsPositive (p.proofsOf targets)) :
    p.proofSet targets = .ofProofs (p.proofsOf targets) := by
  rw [proofSet, negationLeaves_of_positive h, closeNegations_nil]
  rfl

/-- A leaf without rules has itself as its only alternative. -/
theorem expand_of_none {l : Literal W} (h : p.rules[l.id]? = none) : p.expand l = [[l]] := by
  have hcanon : canonical [l] = [(l.id, l)] := by
    simp [canonical, dropRepeats]
  have hdist : distinct [] [[l]] = [[l]] := by
    simp [distinct, hcanon]
  have hnorm : normalize p.prune [[l]] = [[l]] := by
    unfold normalize
    rw [hdist]
    dsimp only
    split
    · rename_i n _ hs
      cases hc : isCertainBody [l] with
      | true =>
        have hn : 1 = n := by simpa [shortestCertain, hc] using hs
        simp [pruneTo, hc, hn]
      | false => simp [pruneTo, hc]
    · rfl
  unfold expand expandWithin
  simp only [List.idxOf?_nil, Std.HashMap.getElem?_empty, h, Option.isNone_none, Bool.true_or, if_true, Option.getD_none,
    expandRules, hnorm, Option.all_none]

theorem proofsOf_leaf {l : Literal W} (h : p.rules[l.id]? = none) : p.proofsOf [l] = [⟨l, [l]⟩] := by
  simp [proofsOf, proofs, expand_of_none h, distinctClauses]

theorem proofSet_of_leaf {l : Literal W} (hn : l.isNegated = false) (h : p.rules[l.id]? = none) :
    p.proofSet [l] = .ofProofs [⟨l, [l]⟩] := by
  have hproofs := proofsOf_leaf h
  have hpos : RestsPositive (p.proofsOf [l]) := by simp [hproofs, RestsPositive, hn]
  rw [proofSet_of_positive hpos, hproofs]

/-- **The proof set of a negation** that no rule gives, when what it stands against rests on no negation. -/
theorem proofSet_of_negation {leaf : Literal W} (hn : leaf.isNegated = true) (hnone : p.rules[leaf.id]? = none)
    (hpos : RestsPositive (p.proofsOf (p.snapshot.negationBases leaf))) :
    p.proofSet [leaf] = ⟨[⟨leaf, [leaf]⟩],
      (∅ : Std.HashMap String (List (Clause W))).insert leaf.id (p.proofsOf (p.snapshot.negationBases leaf))⟩ := by
  have hleaves : ProofSet.negationLeaves [(⟨leaf, [leaf]⟩ : Clause W)] = [leaf] := by
    simp [ProofSet.negationLeaves, hn]
  rw [proofSet, proofsOf_leaf hnone, hleaves, leafBound, closeNegations]
  simp only [Std.HashMap.contains_empty, Bool.false_eq_true, if_false, negationLeaves_of_positive hpos, List.append_nil,
    closeNegations_nil]

end Prover
end Credence
