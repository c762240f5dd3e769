import Mathlib.Data.List.Sort
import Credence.Proofs.Snapshot
/-!
# Proofs of a target

The proofs that are found for a target say exactly when it is derivable: whatever leaves are true, the completed rules
lead from them to the target if and only if some proof has a true body (`Snapshot.proofs_iff_derivable`).  Every proof
rests on leaves, and no two proofs rest on the same ones.  Rules may depend on each other in any way.
-/
namespace Credence

variable {W : Type} [Weight W]

/-! ## Derivability -/

namespace Snapshot

/-- No rule gives the id, or it was asserted. -/
def IsLeaf (s : Snapshot W) (id : String) : Prop := (∀ c ∈ s.rules, c.head.id ≠ id) ∨ s.asserted.contains id = true

/-- Finitely many rules lead from the true leaves to the id.  The weight of a rule is one of its own in each instance. -/
inductive Derivable (s : Snapshot W) (S : String → Prop) : String → Prop
  | leaf {id : String} : s.IsLeaf id → S id → Derivable s S id
  | rule {c : Clause W} {n : Nat} : (c, n) ∈ Prover.numberRules s.rules.toList →
    (∀ l ∈ c.body, Derivable s S (Prover.mark n l).id) → Derivable s S c.head.id

/-- The rules are made of literals of the language, and none is about a rule weight. -/
structure Recorded (s : Snapshot W) : Prop where
  head   : ∀ c ∈ s.rules, c.head.isPlain = true
  body   : ∀ c ∈ s.rules, ∀ l ∈ c.body, l.isPlain = true
  weight : ∀ c ∈ s.rules, Prover.isRuleWeight c.head = false

theorem leaf_iff (s : Snapshot W) (prune : Bool) (id : String) : (Prover.ofSnapshot s prune).Leaf id ↔ s.IsLeaf id :=
  or_congr_left (Prover.ofSnapshot_none s prune)

/-- A prover derives what is derivable. -/
theorem derives_iff_derivable (s : Snapshot W) (prune : Bool) {S : String → Prop} {id : String} :
    (Prover.ofSnapshot s prune).Derives S [] id ↔ s.Derivable S id := by
  constructor
  · intro h
    induction h with
    | leaf _ hl hs => exact .leaf ((s.leaf_iff prune _).1 hl) hs
    | rule _ hr _ ih =>
      obtain ⟨c, n, hn, rfl, rfl⟩ := (Prover.ofSnapshot_rule s prune).1 hr
      exact .rule hn (fun l hl => ih _ (List.mem_map_of_mem hl))
  · intro h
    induction h with
    | leaf hl hs => exact .leaf List.not_mem_nil ((s.leaf_iff prune _).2 hl) hs
    | rule hn _ ih =>
      refine .rule List.not_mem_nil ((Prover.ofSnapshot_rule s prune).2 ⟨_, _, hn, rfl, rfl⟩) (fun m hm => ?_)
      obtain ⟨l, hl, rfl⟩ := List.mem_map.1 hm
      exact ih l hl

/-- No rule is about an instance of a rule weight, so the marks of the prover are right. -/
theorem Recorded.sound {s : Snapshot W} (h : s.Recorded) (prune : Bool) : (Prover.ofSnapshot s prune).Sound := by
  refine Prover.ofSnapshot_sound s prune (fun c hc l hl hw n d hd e => ?_)
  obtain ⟨hplain, hmark⟩ := Prover.isPlain_mark (h.body c hc l hl) n
  have := Prover.isRuleWeight_of_id_eq (h.head d hd) hplain e
  rw [h.weight d hd, hmark, hw] at this
  cases this

end Snapshot

/-! ## Bodies that are told apart -/

namespace Prover

omit [Weight W] in
/-- Neighbours in a sorted list that are not equal grow. -/
theorem dropRepeats_sorted (ps : List (String × Literal W)) (h : ps.Pairwise (fun a b => a.1 ≤ b.1)) :
    (dropRepeats ps).Pairwise (fun a b => a.1 < b.1) := by
  fun_induction dropRepeats ps with
  | case1 a b rest e ih =>
    obtain ⟨ha, h⟩ := List.pairwise_cons.1 h
    exact ih (List.pairwise_cons.2 ⟨fun c hc => ha c (List.mem_cons_of_mem b hc), (List.pairwise_cons.1 h).2⟩)
  | case2 a b rest e ih =>
    obtain ⟨ha, h⟩ := List.pairwise_cons.1 h
    refine List.pairwise_cons.2 ⟨fun c hc => ?_, ih h⟩
    have hab : a.1 < b.1 := String.not_le.1 (fun hba => e (String.le_antisymm (ha b List.mem_cons_self) hba))
    have hbc : b.1 ≤ c.1 := by
      rcases List.mem_cons.1 ((dropRepeats_sublist _).subset hc) with rfl | hc
      · exact String.le_refl _
      · exact (List.pairwise_cons.1 h).1 c hc
    exact String.not_le.1 (fun hca => String.not_le.2 hab (String.le_trans hbc hca))
  | case3 rest hrest =>
    rcases rest with - | ⟨a, - | ⟨b, rest⟩⟩
    · exact .nil
    · exact List.pairwise_singleton _ a
    · exact absurd rfl (hrest a b rest)

theorem ids_sorted (b : Body W) : (ids b).Pairwise (· < ·) := by
  have hsorted : ((b.map (fun l => (l.id, l))).mergeSort (fun a b => a.1 ≤ b.1)).Pairwise (fun a b => a.1 ≤ b.1) := by
    refine (List.pairwise_mergeSort (fun a b c hab hbc => ?_) (fun a b => ?_) _).imp of_decide_eq_true
    · exact decide_eq_true (String.le_trans (of_decide_eq_true hab) (of_decide_eq_true hbc))
    · simpa using String.le_total a.1 b.1
  exact List.pairwise_map.2 (dropRepeats_sorted _ hsorted)

/-- The same ids, whatever their order and number. -/
def SameIds (b c : Body W) : Prop := ∀ id, id ∈ b.map Literal.id ↔ id ∈ c.map Literal.id

/-- Bodies with the same ids have the same key. -/
theorem SameIds.ids_eq {b c : Body W} (h : SameIds b c) : ids b = ids c :=
  (ids_sorted b).eq_of_mem_iff (ids_sorted c) (fun id => (mem_canonical b id).trans ((h id).trans (mem_canonical c id).symm))

theorem sameIds_canonical (b : Body W) : SameIds ((canonical b).map Prod.snd) b := by
  intro id
  rw [← mem_canonical b id, List.map_map]
  have : (canonical b).map (Literal.id ∘ Prod.snd) = (canonical b).map Prod.fst :=
    List.map_congr_left (fun x hx => (canonical_pair hx).1.symm)
  rw [this]

/-- What is kept differs from what was seen and among itself. -/
theorem distinct_apart : ∀ (seen : List (List String)) (bs : List (Body W)),
    (∀ b ∈ distinct seen bs, ids b ∉ seen) ∧ (distinct seen bs).Pairwise (fun b c => ¬ SameIds b c)
  | _,    []      => ⟨(fun _ h => nomatch h), .nil⟩
  | seen, b :: bs => by
    have hdist : distinct seen (b :: bs) = if seen.contains (ids b) then distinct seen bs
        else (canonical b).map Prod.snd :: distinct (ids b :: seen) bs := rfl
    rw [hdist]
    split
    · exact distinct_apart seen bs
    · rename_i hseen
      obtain ⟨ih1, ih2⟩ := distinct_apart (ids b :: seen) bs
      have hids : ids ((canonical b).map Prod.snd) = ids b := (sameIds_canonical b).ids_eq
      refine ⟨fun c hc => ?_, List.pairwise_cons.2 ⟨fun c hc hs => ?_, ih2⟩⟩
      · rcases List.mem_cons.1 hc with rfl | hc
        · rw [hids]
          exact fun h => hseen (List.contains_iff_mem.2 h)
        · exact fun h => ih1 c hc (List.mem_cons_of_mem _ h)
      · refine ih1 c hc ?_
        rw [← hs.ids_eq, hids]
        exact List.mem_cons_self

/-- **No two alternatives of a target have the same ids.** -/
theorem expand_apart (p : Prover W) (hp : p.prune = false) (target : Literal W) :
    (p.expand target).Pairwise (fun b c => ¬ SameIds b c) := by
  have hnorm : ∀ bs : List (Body W), normalize p.prune bs = distinct [] bs := fun bs => by rw [hp]; rfl
  have hex : ∃ bs, p.expand target = distinct [] bs := by
    unfold expand expandWithin
    simp only [List.idxOf?_nil, Std.HashMap.getElem?_empty, hnorm]
    -- remembered or not, the bodies are the same
    exact ⟨_, (apply_ite (fun found : Expansion W × Memo W => found.1.bodies) _ _ _).trans (ite_self _)⟩
  obtain ⟨bs, e⟩ := hex
  rw [e]
  exact (distinct_apart [] bs).2

end Prover

/-! ## Proofs -/

namespace Snapshot

/-- **Proofs are found for what is derivable, and for nothing else.**  The target is derivable from the true leaves
exactly when some proof of it has a true body; proofs rest on leaves, and no two of them on the same. -/
theorem proofs_iff_derivable {s : Snapshot W} (hs : s.Recorded) (target : Literal W) :
    (∀ S : String → Prop, s.Derivable S target.id ↔
      ∃ c ∈ (Prover.ofSnapshot s false).proofs target, ∀ l ∈ c.body, S l.id) ∧
    (∀ c ∈ (Prover.ofSnapshot s false).proofs target, c.head = target ∧ ∀ l ∈ c.body, s.IsLeaf l.id) ∧
    ((Prover.ofSnapshot s false).proofs target).Pairwise (fun c d => ¬ Prover.SameIds c.body d.body) := by
  have hsound := hs.sound false
  refine ⟨fun S => ?_, fun c hc => ?_, ?_⟩
  · rw [← s.derives_iff_derivable false, ← Prover.expand_spec hsound (fun h => by cases h)]
    constructor
    · rintro ⟨b, hb, hm⟩
      exact ⟨⟨target, b⟩, List.mem_map_of_mem hb, hm⟩
    · rintro ⟨c, hc, hm⟩
      obtain ⟨b, hb, rfl⟩ := List.mem_map.1 hc
      exact ⟨b, hb, hm⟩
  · obtain ⟨b, hb, rfl⟩ := List.mem_map.1 hc
    exact ⟨rfl, fun l hl => (s.leaf_iff false _).1 (Prover.expand_consists hsound target b hb l hl).1⟩
  · exact List.pairwise_map.2 (Prover.expand_apart _ rfl target)

end Snapshot

/-! ## A way round

Two edges between `a` and `b`, and paths that go round: a path from `a` to itself passes the path to `b`, which may pass
the path from `a` to itself. -/

namespace Roundabout

def edge (x y : String) : Literal ℚ := ⟨1 / 2, ⟨"edge", 2⟩, [.const ⟨x⟩, .const ⟨y⟩]⟩

def path (x y : String) : Literal ℚ := ⟨1, ⟨"path", 2⟩, [.const ⟨x⟩, .const ⟨y⟩]⟩

def rules : List (Clause ℚ) :=
  [⟨path "a" "a", [path "a" "b", edge "b" "a"]⟩,
   ⟨path "a" "b", [path "a" "a", edge "a" "b"]⟩,
   ⟨path "a" "b", [edge "a" "b"]⟩]

def snapshot : Snapshot ℚ :=
  ⟨∅, ((∅ : Std.HashSet String).insert (edge "a" "b").id).insert (edge "b" "a").id, rules.toArray, ∅, ∅⟩

theorem recorded : snapshot.Recorded := by
  have hmem : ∀ c ∈ snapshot.rules, c ∈ rules := fun c hc => by simpa [snapshot] using hc
  have hplain : ∀ c ∈ rules, c.head.isPlain = true ∧ ∀ l ∈ c.body, l.isPlain = true := by decide
  have hweight : ∀ c ∈ rules, Prover.isRuleWeight c.head = false := by decide
  exact ⟨fun c hc => (hplain c (hmem c hc)).1, fun c hc => (hplain c (hmem c hc)).2, fun c hc => hweight c (hmem c hc)⟩

/-- The edges are true. -/
def Open (id : String) : Prop := id = (edge "a" "b").id ∨ id = (edge "b" "a").id

/-- A completed rule without rule weights can be used. -/
theorem derivable {c : Clause ℚ} (hc : c ∈ rules) (hd : ∀ l ∈ c.body, snapshot.Derivable Open l.id) :
    snapshot.Derivable Open c.head.id := by
  obtain ⟨n, hn⟩ := Prover.mem_numberRules.2 hc
  have hplain : ∀ c ∈ rules, ∀ l ∈ c.body, Prover.isRuleWeight l = false := by decide
  refine .rule (n := n) (by simpa [snapshot] using hn) (fun l hl => ?_)
  rw [Prover.mark_of_not (hplain c hc l hl)]
  exact hd l hl

theorem path_derivable : snapshot.Derivable Open (path "a" "a").id := by
  have hout : snapshot.Derivable Open (edge "a" "b").id := .leaf (.inr (by simp [snapshot])) (.inl rfl)
  have hback : snapshot.Derivable Open (edge "b" "a").id := .leaf (.inr (by simp [snapshot])) (.inr rfl)
  have hab : snapshot.Derivable Open (path "a" "b").id :=
    derivable (c := ⟨path "a" "b", [edge "a" "b"]⟩) (by simp [rules]) (by simpa using hout)
  exact derivable (c := ⟨path "a" "a", [path "a" "b", edge "b" "a"]⟩) (by simp [rules]) (by simpa using ⟨hab, hback⟩)

end Roundabout

namespace Snapshot

/-- Some proof of the way round rests on the two edges. -/
theorem proofs_iff_derivable_roundabout : Roundabout.snapshot.Recorded ∧
    ∃ c ∈ (Prover.ofSnapshot Roundabout.snapshot false).proofs (Roundabout.path "a" "a"),
      ∀ l ∈ c.body, l.id = (Roundabout.edge "a" "b").id ∨ l.id = (Roundabout.edge "b" "a").id :=
  ⟨Roundabout.recorded,
    ((proofs_iff_derivable Roundabout.recorded (Roundabout.path "a" "a")).1 Roundabout.Open).1 Roundabout.path_derivable⟩

end Snapshot
end Credence
