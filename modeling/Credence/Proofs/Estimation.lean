import Credence.Proofs.Compiling
import Credence.Proofs.Counting
import Credence.Proofs.Keys
/-!
# What an estimate is an estimate of

The compiled function of a literal is the formula of its proofs, whatever the settings (`Estimator.compile_means`): a
sift keeps what is referenced, and the root is.  So its weighted count is the mass of the sets of ids that make the
formula true, each id with the weight that it shows (`Estimator.compile_exact`).
-/
namespace Credence

section

variable {W : Type} [Weight W]

/-! ## The proofs of a literal -/

omit [Weight W] in
theorem Estimator.proofsFor_eq (e : Estimator W) (l : Literal W) :
    e.proofsFor l = e.set.proofs.filter (fun p => (l.unify p.head).isSome) := by
  refine List.filter_congr (fun p _ => ?_)
  cases h : (l.unify p.head).isSome with
  | false => exact Bool.and_false _
  | true => rw [Literal.isRelevant_of_unify h, Bool.and_true]

/-! ## The compiled function -/

/-- **The compiled formula of some proofs**: every variable stands for one id and has the weight of a literal with that
id, and the function is the formula. -/
structure Compiled.Means (set : ProofSet W) (proofs : List (Clause W)) (c : Compiled W) : Prop where
  nodup   : c.labels.toList.Nodup
  size    : c.weights.size = c.labels.size
  weights : ∀ (v : Nat) (id : String), c.labels[v]? = some id →
    ∃ l, set.Occurs l ∧ l.id = id ∧ c.weights[v]? = some l.weight
  formula : ∀ a neg, set.Values a neg →
    c.diagram.eval c.root (fun v => (c.labels[v]?).elim false a) = set.holds a neg proofs

theorem Compiler.valid_start (set : ProofSet W) (s : Settings) : (Compiler.start s : Compiler W).Valid set := by
  refine ⟨Diagram.ready_empty _ _, rfl, rfl, fun id v => ?_, fun v id h => ?_, fun id f h => ?_⟩
  · simp [Compiler.start]
  · simp [Compiler.start] at h
  · simp [Compiler.start] at h

/-- Each id has one variable. -/
theorem Compiler.Valid.nodup {set : ProofSet W} {c : Compiler W} (h : c.Valid set) : c.labels.toList.Nodup := by
  rw [List.nodup_iff_getElem?_ne_getElem?]
  intro i j hij hj e
  rw [List.getElem?_eq_getElem hj] at e
  have hi : c.labels[i]? = some (c.labels.toList.get ⟨j, hj⟩) := by simpa using e
  have hj : c.labels[j]? = some (c.labels.toList.get ⟨j, hj⟩) := by
    rw [← Array.getElem?_toList, List.getElem?_eq_getElem hj]
    rfl
  rw [← h.vars] at hi hj
  rw [hi] at hj
  injection hj with hj
  omega

namespace Estimator

variable {e : Estimator W} {l : Literal W}

/-- The function built for a literal, before sifting. -/
def built (e : Estimator W) (l : Literal W) : Handle × Compiler W :=
  Compiler.disjunction (Compiler.negation e.set (e.set.negations.size + 1) []) (e.proofsFor l) (.start e.settings)

theorem built_spec (ha : e.set.Acyclic) :
    Compiler.Compiles e.set (.start e.settings) (fun a neg => e.set.holds a neg (e.proofsFor l)) (e.built l) := by
  have hocc : ∀ p ∈ e.proofsFor l, ∀ m ∈ p.body, e.set.Occurs m := fun p hp _ hm => .inl ⟨p, (List.mem_filter.1 hp).1, hm⟩
  exact Compiler.disjunction_spec (Compiler.valid_start e.set e.settings) hocc (fun p hp m hm hneg _ hc =>
    Compiler.negation_spec ha _ ProofSet.nested_nil (Nat.zero_add _) hneg (hocc p hp m hm) hc)

/-- Sifting is not seen from outside. -/
theorem compile_diagram (ha : e.set.Acyclic) : (e.compile l).diagram.Ready ∧
    (e.compile l).diagram.varCount = (e.built l).2.diagram.varCount ∧
    ∀ b, (e.compile l).diagram.eval (e.compile l).root b = (e.built l).2.diagram.eval (e.built l).1 b := by
  have h := built_spec (l := l) ha
  have hroot : (e.compile l).root = (e.built l).1 := rfl
  have hdiagram : (e.compile l).diagram = if e.settings.siftBeforeCount && !(e.built l).1.isTerminal then
      ((e.built l).2.diagram.reference (e.built l).1).sift.2 else (e.built l).2.diagram := rfl
  rw [hroot, hdiagram]
  generalize e.built l = built at h
  obtain ⟨root, c⟩ := built
  split
  · -- the root is referenced, so it is still there after the sift
    have hr := Diagram.sift_spec (h.valid.ready.setRefs (Diagram.addRef root c.diagram.refs))
    have hmem : root ∈ (c.diagram.reference root).roots := Diagram.mem_addRef root c.diagram.refs
    refine ⟨hr.ready, hr.varCount, fun b => (hr.same root hmem h.live b).trans ?_⟩
    exact (Diagram.Within.eval (fun _ _ hn => hn) h.valid.ready.valid.sound
      (h.valid.ready.setRefs _).valid.sound h.valid.ready.valid.graded (h.valid.ready.setRefs _).valid.graded h.live)
  · exact ⟨h.valid.ready, rfl, fun _ => rfl⟩

/-- **What is compiled is the formula of the proofs**, with every setting. -/
theorem compile_means (ha : e.set.Acyclic) : (e.compile l).Means e.set (e.proofsFor l) := by
  have h := built_spec (l := l) ha
  refine ⟨h.valid.nodup, h.valid.size, h.valid.weights, fun a neg hv => ?_⟩
  rw [(compile_diagram ha).2.2]
  refine h.eval a neg _ hv (fun v id hid => ?_)
  rw [show (e.compile l).labels = (e.built l).2.labels from rfl, hid, Option.elim_some]

end Estimator
end

/-! ## Weights of ids -/

/-- Over the rationals an id shows the weight. -/
theorem Literal.weight_eq_of_id {l m : Literal ℚ} (h : l.id = m.id) : l.weight = m.weight :=
  Rational.text_injective (text_of_id h).1

open Classical in
/-- The weight that an id shows. -/
noncomputable def idWeight (id : String) : ℚ := if h : ∃ l : Literal ℚ, l.id = id then h.choose.weight else 1

theorem idWeight_id (l : Literal ℚ) : idWeight l.id = l.weight := by
  have h : ∃ m : Literal ℚ, m.id = l.id := ⟨l, rfl⟩
  rw [idWeight, dif_pos h]
  exact Literal.weight_eq_of_id h.choose_spec

/-! ## The count -/

namespace ProofSet

/-- The ids of the literals of all proofs. -/
def ids (set : ProofSet ℚ) : Finset String :=
  ((set.proofs ++ set.negations.toList.flatMap Prod.snd).flatMap (fun p => p.body.map Literal.id)).toFinset

theorem mem_ids {set : ProofSet ℚ} {l : Literal ℚ} (h : set.Occurs l) : l.id ∈ set.ids := by
  rw [ids, List.mem_toFinset, List.mem_flatMap]
  rcases h with ⟨p, hp, hl⟩ | ⟨id, base, hb, p, hp, hl⟩
  · exact ⟨p, List.mem_append_left _ hp, List.mem_map_of_mem hl⟩
  · refine ⟨p, List.mem_append_right _ (List.mem_flatMap.2 ⟨(id, base), ?_, hp⟩), List.mem_map_of_mem hl⟩
    exact Std.HashMap.mem_toList_iff_getElem?_eq_some.2 hb

/-- The ids in `A` make some of the proofs true. -/
def TrueIn (set : ProofSet ℚ) (proofs : List (Clause ℚ)) (A : Finset String) : Prop :=
  ∃ neg, set.Values (fun id => decide (id ∈ A)) neg ∧ set.holds (fun id => decide (id ∈ A)) neg proofs = true

/-- **The weighted count of the formula**: the mass of the sets of ids that make it true. -/
noncomputable def chance (set : ProofSet ℚ) (proofs : List (Clause ℚ)) : ℚ := mass set.ids idWeight (set.TrueIn proofs)

end ProofSet

namespace Compiled

variable {set : ProofSet ℚ} {proofs : List (Clause ℚ)} {c : Compiled ℚ}

/-- The ids of the variables. -/
def ids (c : Compiled ℚ) : Finset String := c.labels.toList.toFinset

theorem mem_ids {id : String} : id ∈ c.ids ↔ ∃ v : Nat, c.labels[v]? = some id := by
  rw [ids, List.mem_toFinset, List.mem_iff_getElem?]
  simp only [Array.getElem?_toList]

/-- A set of ids makes the formula true when it makes the function true. -/
theorem Means.trueIn_iff (h : c.Means set proofs) (ha : set.Acyclic) (A : Finset String) :
    set.TrueIn proofs A ↔ c.diagram.eval c.root (fun v => (c.labels[v]?).elim false (fun id => decide (id ∈ A))) = true := by
  constructor
  · rintro ⟨neg, hv, ht⟩
    rw [h.formula _ neg hv, ht]
  · intro ht
    obtain ⟨neg, hv⟩ := ha.exists_values (fun id => decide (id ∈ A))
    exact ⟨neg, hv, by rw [← h.formula _ neg hv, ht]⟩

/-- Ids without a variable do not matter. -/
theorem Means.trueIn_inter (h : c.Means set proofs) (ha : set.Acyclic) (A : Finset String) :
    set.TrueIn proofs A ↔ set.TrueIn proofs (A ∩ c.ids) := by
  rw [h.trueIn_iff ha, h.trueIn_iff ha]
  have : ∀ v : Nat, (c.labels[v]?).elim false (fun id => decide (id ∈ A)) =
      (c.labels[v]?).elim false (fun id => decide (id ∈ A ∩ c.ids)) := by
    intro v
    cases hv : c.labels[v]? with
    | none => rfl
    | some id =>
      have hid : id ∈ c.ids := mem_ids.2 ⟨v, hv⟩
      simp [hid]
  simp only [this]

theorem Means.chance_eq (h : c.Means set proofs) (ha : set.Acyclic) :
    set.chance proofs = mass c.ids idWeight (set.TrueIn proofs) := by
  refine mass_eq_of_subset (fun id hid => ?_) (fun A _ => h.trueIn_inter ha A)
  obtain ⟨v, hv⟩ := mem_ids.1 hid
  obtain ⟨l, hl, rfl, -⟩ := h.weights v id hv
  exact ProofSet.mem_ids hl

/-- The id of a variable. -/
def label (c : Compiled ℚ) (v : Nat) : String := c.labels.getD v ""

theorem label_eq {v : Nat} {id : String} (h : c.labels[v]? = some id) : c.label v = id := by
  rw [label, Array.getD_eq_getD_getElem?, h, Option.getD_some]

theorem getElem?_labels {v : Nat} (h : v < c.labels.size) : c.labels[v]? = some (c.label v) := by
  have := Array.getElem?_eq_getElem h
  rw [label_eq this, this]

theorem Means.label_injOn (h : c.Means set proofs) : Set.InjOn c.label (Finset.range c.labels.size) := by
  have hne : ∀ {v w : Nat}, v < w → w < c.labels.size → c.label v ≠ c.label w := by
    intro v w hvw hw e
    have hv' := getElem?_labels (Nat.lt_trans hvw hw)
    have hw' := getElem?_labels hw
    rw [← Array.getElem?_toList] at hv' hw'
    exact List.nodup_iff_getElem?_ne_getElem?.1 h.nodup v w hvw (by simpa using hw) (by rw [hv', hw', e])
  intro v hv w hw e
  rw [Finset.mem_coe, Finset.mem_range] at hv hw
  rcases Nat.lt_trichotomy v w with hlt | heq | hgt
  · exact absurd e (hne hlt hw)
  · exact heq
  · exact absurd e.symm (hne hgt hv)

theorem ids_eq_image : c.ids = (Finset.range c.labels.size).image c.label := by
  ext id
  rw [mem_ids, Finset.mem_image]
  constructor
  · rintro ⟨v, hv⟩
    exact ⟨v, Finset.mem_range.2 (Array.getElem?_eq_some_iff.1 hv).1, label_eq hv⟩
  · rintro ⟨v, hv, rfl⟩
    exact ⟨v, getElem?_labels (Finset.mem_range.1 hv)⟩

/-- **The count of a compiled formula.** -/
theorem Means.probability_eq (h : c.Means set proofs) (ha : set.Acyclic) (hd : c.diagram.Ready)
    (hcount : c.diagram.varCount = c.labels.size) : c.probability = set.chance proofs := by
  rw [h.chance_eq ha, ids_eq_image, mass_image h.label_injOn, Compiled.probability, hd.valid.probability_eq_mass,
    Diagram.chance, hcount]
  have hweights : ∀ v ∈ Finset.range c.labels.size, c.weights.getD v 1 = idWeight (c.label v) := by
    intro v hv
    obtain ⟨l, -, hid, hw⟩ := h.weights v _ (getElem?_labels (Finset.mem_range.1 hv))
    rw [← hid, idWeight_id, Array.getD_eq_getD_getElem?, hw, Option.getD_some]
  rw [mass_congr_weight hweights]
  refine mass_congr (fun B hB => ?_)
  rw [h.trueIn_iff ha, hd.valid.graded.eval_congr c.root (fun v hv => ?_)]
  have hlt : v < c.labels.size := by
    rw [← hcount]
    exact (hd.valid.le_of_tests hv).1
  rw [getElem?_labels hlt, Option.elim_some, Diagram.among, decide_eq_decide]
  refine ⟨Finset.mem_image_of_mem _, fun hm => ?_⟩
  obtain ⟨w, hw, e⟩ := Finset.mem_image.1 hm
  rw [← h.label_injOn (hB hw) (Finset.mem_coe.2 (Finset.mem_range.2 hlt)) e]
  exact hw

end Compiled

theorem Estimator.compile_probability {e : Estimator ℚ} {l : Literal ℚ} (ha : e.set.Acyclic) :
    (e.compile l).probability = e.set.chance (e.proofsFor l) := by
  obtain ⟨hd, hcount, -⟩ := compile_diagram (l := l) ha
  exact (compile_means ha).probability_eq ha hd (hcount.trans (built_spec ha).valid.count)

/-- **The estimate of a literal.**  For every weight type the compiled function is the formula of the proofs whose heads
unify with the literal, and there is a way to say which negations hold; over the rationals, its count is the weighted
count of the formula, in which no setting has a part. -/
theorem Estimator.compile_exact :
    (∀ {W : Type} [Weight W] (e : Estimator W) (l : Literal W), e.set.Acyclic →
      (∀ a, ∃ neg, e.set.Values a neg) ∧
      (e.compile l).Means e.set (e.set.proofs.filter (fun p => (l.unify p.head).isSome))) ∧
    ∀ (e : Estimator ℚ) (l : Literal ℚ), e.set.Acyclic →
      (e.compile l).probability = e.set.chance (e.set.proofs.filter (fun p => (l.unify p.head).isSome)) := by
  refine ⟨fun e l ha => ⟨ha.exists_values, ?_⟩, fun e l ha => ?_⟩
  · rw [← e.proofsFor_eq]
    exact compile_means ha
  · rw [← e.proofsFor_eq]
    exact compile_probability ha

/-! ## A negation within a negation

It is dry unless it is wet, and wet when it rains where there is no roof. -/

namespace Shelter

def atom (w : ℚ) (name : String) : Literal ℚ := ⟨w, ⟨name, 0⟩, []⟩

def estimator (s : Settings) : Estimator ℚ :=
  ⟨⟨[⟨atom 1 "dry", [atom 1 "~wet"]⟩],
    ((∅ : Std.HashMap String (List (Clause ℚ))).insert (atom 1 "~wet").id
      [⟨atom 1 "wet", [atom (1 / 2) "rain", atom 1 "~roof"]⟩]).insert (atom 1 "~roof").id
      [⟨atom 1 "roof", [atom (1 / 3) "built"]⟩]⟩, s⟩

def settings : Settings := { Settings.default with cacheCapacity := 0, siftBeforeCount := true }

theorem acyclic (s : Settings) : (estimator s).set.Acyclic := by
  have hne : (atom 1 "~roof").id ≠ (atom 1 "~wet").id := by decide
  refine ProofSet.acyclic_of_rank (fun id => if id = (atom 1 "~wet").id then 1 else 0) (fun id id' hr => ?_)
  obtain ⟨base, hb, p, hp, l, hl, hneg, rfl⟩ := hr
  simp only [estimator, Std.HashMap.getElem?_insert, beq_iff_eq] at hb
  split at hb
  · -- no negation stands behind the roof
    injection hb with hb
    subst hb
    obtain rfl : p = _ := List.mem_singleton.1 hp
    obtain rfl : l = _ := List.mem_singleton.1 hl
    exact absurd hneg (by decide)
  · split at hb
    · rename_i hid
      injection hb with hb
      subst hb
      obtain rfl : p = _ := List.mem_singleton.1 hp
      rcases List.mem_cons.1 hl with rfl | hl
      · exact absurd hneg (by decide)
      · obtain rfl : l = _ := List.mem_singleton.1 hl
        rw [if_neg hne, if_pos hid.symm]
        exact Nat.zero_lt_one
    · simp at hb

end Shelter

/-- The estimate counts the formula with its two negations, also without a memo and after a sift. -/
theorem Estimator.compile_exact_shelter : (Shelter.estimator Shelter.settings).set.Acyclic ∧
    ((Shelter.estimator Shelter.settings).compile (Shelter.atom 1 "dry")).Means (Shelter.estimator Shelter.settings).set
      ((Shelter.estimator Shelter.settings).set.proofs.filter (fun p => ((Shelter.atom 1 "dry").unify p.head).isSome)) ∧
    ((Shelter.estimator Shelter.settings).compile (Shelter.atom 1 "dry")).probability =
      (Shelter.estimator Shelter.settings).set.chance
        ((Shelter.estimator Shelter.settings).set.proofs.filter (fun p => ((Shelter.atom 1 "dry").unify p.head).isSome)) :=
  ⟨Shelter.acyclic _, (Estimator.compile_exact.1 _ _ (Shelter.acyclic _)).2, Estimator.compile_exact.2 _ _ (Shelter.acyclic _)⟩

end Credence
