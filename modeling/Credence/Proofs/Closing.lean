import Credence.Proofs.Lockstep
import Credence.Proofs.Targets
/-!
# The negations of a proof set

A proof set has the proofs behind every negation that its proofs rest on, and behind every negation that these rest on in
turn (`proofSet_negations`).  There are no more negations to be met than literals in the targets, the rules and the facts
that negations stand against, so the bound of the search is never used up.
-/
namespace Credence
namespace Prover

variable {W : Type} [Weight W] {p : Prover W} {targets : List (Literal W)} {id : String}

/-- The facts that a negation stands against, by its id. -/
def bases (p : Prover W) (id : String) : List (Literal W) := p.snapshot.negations.getD id []

/-- Some proof of the targets has a negation with this id as a leaf. -/
def NegationOf (p : Prover W) (targets : List (Literal W)) (id : String) : Prop :=
  ∃ c ∈ p.proofsOf targets, ∃ l ∈ c.body, l.isNegated = true ∧ l.id = id

/-- Proofs of the targets rest on the negation, themselves or through what they negate. -/
inductive Meets (p : Prover W) (targets : List (Literal W)) : String → Prop
  | direct {id : String} : p.NegationOf targets id → Meets p targets id
  | behind {id id' : String} : Meets p targets id → p.NegationOf (p.bases id) id' → Meets p targets id'

omit [Weight W] in
theorem mem_negationLeaves {proofs : List (Clause W)} {l : Literal W} :
    l ∈ ProofSet.negationLeaves proofs ↔ ∃ c ∈ proofs, l ∈ c.body ∧ l.isNegated = true := by
  simp only [ProofSet.negationLeaves, List.mem_flatMap, List.mem_filter]

theorem negationOf_iff : p.NegationOf targets id ↔
    ∃ l ∈ ProofSet.negationLeaves (p.proofsOf targets), l.id = id := by
  simp only [NegationOf, mem_negationLeaves]
  constructor
  · rintro ⟨c, hc, l, hl, hn, e⟩
    exact ⟨l, ⟨c, hc, hl, hn⟩, e⟩
  · rintro ⟨l, ⟨c, hc, hl, hn⟩, e⟩
    exact ⟨c, hc, l, hl, hn, e⟩

/-! ## Finitely many -/

/-- The ids that a negation can have. -/
def leafIds (p : Prover W) (targets : List (Literal W)) : List String :=
  (targets ++ p.snapshot.rules.toList.flatMap Clause.body ++ p.snapshot.negations.toList.flatMap Prod.snd).map Literal.id

theorem length_leafIds : (p.leafIds targets).length + 1 = p.leafBound targets := by
  simp only [leafIds, leafBound, List.length_map, List.length_append]

variable {s : Snapshot W} {prune : Bool}

/-- A negation in a rule of a prover stands in a rule of its snapshot: only weights of rules are marked. -/
theorem Occurs.of_isNegated {l : Literal W} (h : (ofSnapshot s prune).Occurs l) (hn : l.isNegated = true) :
    ∃ c ∈ s.rules, l ∈ c.body := by
  obtain ⟨id, body, hr, hl⟩ := h
  obtain ⟨c, n, hc, -, rfl⟩ := (ofSnapshot_rule s prune).1 hr
  obtain ⟨m, hm, rfl⟩ := List.mem_map.1 hl
  refine ⟨c, Array.mem_toList_iff.1 (mem_numberRules.1 ⟨n, hc⟩), ?_⟩
  cases hw : isRuleWeight m with
  | false =>
    rw [mark_of_not hw]
    exact hm
  | true =>
    have hname : (mark n m).isNegated = m.isNegated := by
      rw [mark, if_pos hw]
      rfl
    simp only [isRuleWeight, Bool.and_eq_true, Bool.not_eq_true'] at hw
    rw [hname, hw.1] at hn
    cases hn

theorem NegationOf.mem {ts : List (Literal W)} (h : (ofSnapshot s prune).NegationOf ts id)
    (hts : ∀ t ∈ ts, t.id ∈ (ofSnapshot s prune).leafIds targets) : id ∈ (ofSnapshot s prune).leafIds targets := by
  obtain ⟨c, hc, l, hl, hn, rfl⟩ := h
  obtain ⟨hhead, hbody⟩ := of_mem_proofsOf hc
  rcases expand_among hbody hl with rfl | ho
  · exact hts _ hhead
  · obtain ⟨c', hc', hl'⟩ := ho.of_isNegated hn
    refine List.mem_map_of_mem (List.mem_append_left _ (List.mem_append_right _ (List.mem_flatMap.2 ⟨c', ?_, hl'⟩)))
    exact Array.mem_toList_iff.2 hc'

/-- **The negations that can be met are among finitely many.** -/
theorem Meets.mem (h : (ofSnapshot s prune).Meets targets id) : id ∈ (ofSnapshot s prune).leafIds targets := by
  induction h with
  | direct h => exact h.mem (fun t ht => List.mem_map_of_mem (List.mem_append_left _ (List.mem_append_left _ ht)))
  | @behind id id' _ h _ =>
    refine h.mem (fun t ht => List.mem_map_of_mem (List.mem_append_right _ (List.mem_flatMap.2 ?_)))
    simp only [bases, Std.HashMap.getD_eq_getD_getElem?] at ht
    cases hb : s.negations[id]? with
    | none => simp [ofSnapshot, hb] at ht
    | some bs =>
      refine ⟨(id, bs), Std.HashMap.mem_toList_iff_getElem?_eq_some.2 hb, ?_⟩
      simpa [ofSnapshot, hb] using ht

/-! ## The search -/

/-- The recorded negations are met, each with the proofs of what it stands against. -/
def Records (p : Prover W) (targets : List (Literal W)) (known : Std.HashMap String (List (Clause W))) : Prop :=
  ∀ id base, known[id]? = some base → p.Meets targets id ∧ base = p.proofsOf (p.bases id)

theorem Records.insert {known : Std.HashMap String (List (Clause W))} (h : p.Records targets known)
    (hid : p.Meets targets id) : p.Records targets (known.insert id (p.proofsOf (p.bases id))) := by
  intro k base hb
  rw [Std.HashMap.getElem?_insert] at hb
  split at hb
  · rename_i e
    injection hb with hb
    rw [← eq_of_beq e]
    exact ⟨hid, hb.symm⟩
  · exact h k base hb

/-- No more negations are recorded than can be met. -/
theorem Records.size_le {known : Std.HashMap String (List (Clause W))} (h : (ofSnapshot s prune).Records targets known) :
    known.size < (ofSnapshot s prune).leafBound targets := by
  have hsub : known.keys ⊆ (ofSnapshot s prune).leafIds targets := by
    intro k hk
    obtain ⟨base, hb⟩ := Option.isSome_iff_exists.1 (Std.HashMap.mem_iff_isSome_getElem?.1 (Std.HashMap.mem_keys.1 hk))
    exact (h k base hb).1.mem
  rw [← Std.HashMap.length_keys, ← length_leafIds]
  exact Nat.lt_succ_of_le (List.subperm_of_subset Std.HashMap.nodup_keys hsub).length_le

/-- What the search comes to: everything pending and known is recorded, and with a negation those it rests on. -/
structure Closes (p : Prover W) (targets : List (Literal W)) (pending : List (Literal W))
    (known result : Std.HashMap String (List (Clause W))) : Prop where
  records : p.Records targets result
  takes   : ∀ l ∈ pending, l.id ∈ result
  keeps   : ∀ id ∈ known, id ∈ result
  closed  : ∀ id ∈ result, id ∈ known ∨ ∀ id', p.NegationOf (p.bases id) id' → id' ∈ result

/-- **The search for negations**, by induction along it: with every negation recorded the bound goes down by one. -/
theorem closeNegations_closes (fuel : Nat) (pending : List (Literal W)) (known : Std.HashMap String (List (Clause W)))
    (hknown : (ofSnapshot s prune).Records targets known) (hpending : ∀ l ∈ pending, (ofSnapshot s prune).Meets targets l.id)
    (hfuel : known.size + fuel = (ofSnapshot s prune).leafBound targets) :
    (ofSnapshot s prune).Closes targets pending known ((ofSnapshot s prune).closeNegations fuel pending known) := by
  fun_induction closeNegations (ofSnapshot s prune) fuel pending known with
  | case1 fuel known => exact ⟨hknown, (fun _ h => nomatch h), fun _ h => h, fun _ h => .inl h⟩
  | case2 fuel known leaf rest hmem ih =>
    obtain ⟨-, hrest⟩ := List.forall_mem_cons.1 hpending
    have h := ih hknown hrest hfuel
    refine ⟨h.records, List.forall_mem_cons.2 ⟨?_, h.takes⟩, h.keeps, h.closed⟩
    exact h.keeps _ (Std.HashMap.contains_iff_mem.1 hmem)
  | case3 known leaf rest hmem =>
    have := hknown.size_le
    omega
  | case4 known leaf rest hmem fuel base ih =>
    obtain ⟨hleaf, hrest⟩ := List.forall_mem_cons.1 hpending
    have hrec := hknown.insert hleaf
    have hsize : (known.insert leaf.id base).size + fuel = (ofSnapshot s prune).leafBound targets := by
      rw [Std.HashMap.size_insert, if_neg (by simpa using hmem)]
      omega
    have h := ih hrec (fun l hl => ?_) hsize
    · have hnew : leaf.id ∈ (ofSnapshot s prune).closeNegations fuel (ProofSet.negationLeaves base ++ rest)
          (known.insert leaf.id base) := h.keeps _ Std.HashMap.mem_insert_self
      refine ⟨h.records, List.forall_mem_cons.2 ⟨hnew, fun l hl => h.takes l (List.mem_append_right _ hl)⟩,
        fun id hid => h.keeps id (Std.HashMap.mem_insert.2 (.inr hid)), fun id hid => ?_⟩
      rcases h.closed id hid with hk | hk
      · rcases Std.HashMap.mem_insert.1 hk with e | hk
        · rw [← eq_of_beq e]
          refine .inr (fun id' hn => ?_)
          obtain ⟨l, hl, rfl⟩ := negationOf_iff.1 hn
          exact h.takes l (List.mem_append_left _ hl)
        · exact .inl hk
      · exact .inr hk
    · rcases List.mem_append.1 hl with hl | hl
      · exact .behind hleaf (negationOf_iff.2 ⟨l, hl, rfl⟩)
      · exact hrest l hl

/-- **The recorded negations of a proof set** are those that its proofs rest on, however indirectly. -/
theorem proofSet_negations {base : List (Clause W)} :
    ((ofSnapshot s prune).proofSet targets).negations[id]? = some base ↔
      (ofSnapshot s prune).Meets targets id ∧ base = (ofSnapshot s prune).proofsOf ((ofSnapshot s prune).bases id) := by
  have h : (ofSnapshot s prune).Closes targets _ ∅ ((ofSnapshot s prune).proofSet targets).negations :=
    closeNegations_closes _ (ProofSet.negationLeaves ((ofSnapshot s prune).proofsOf targets)) ∅
      (fun id base hb => by simp at hb) (fun l hl => .direct (negationOf_iff.2 ⟨l, hl, rfl⟩)) (by simp)
  refine ⟨h.records id base, ?_⟩
  rintro ⟨hmeets, rfl⟩
  have hmem : id ∈ ((ofSnapshot s prune).proofSet targets).negations := by
    induction hmeets with
    | direct hn =>
      obtain ⟨l, hl, rfl⟩ := negationOf_iff.1 hn
      exact h.takes l hl
    | behind _ hn ih => exact ((h.closed _ ih).resolve_left (by simp)) _ hn
  obtain ⟨base, hb⟩ := Option.isSome_iff_exists.1 (Std.HashMap.mem_iff_isSome_getElem?.1 hmem)
  rw [hb, (h.records id base hb).2]

end Prover
end Credence
