import Credence.Proofs.Table
import Mathlib.Data.Nat.Bitwise
/-!
# What a filter leaves alone

A mark is one bit of one word and changes no other, so the marked positions of a filter are those that were marked at
first and those of the texts that were put in (`Bloom.isMarked_foldl`), and a text that was put in is never taken for new.
A goal asks its filter before it looks a fact up.  As every fact of the goal is in the filter, that saves the look-up for
new facts only: what the goal keeps, turns away and takes for asserted is the same whatever the filter
(`Subgoal.addFacts_spec`).
-/
namespace Credence

namespace Bloom

/-! ## Bits -/

section

variable {bits : Nat} {words : Vector UInt64 (wordsFor bits)} {p q : Fin bits}

theorem toNat_bit (p : Fin bits) : (bit p).toNat = 2 ^ (p.val % 64) := by
  have hlt : p.val % 64 < 64 := Nat.mod_lt _ (by decide)
  have hoffset : (UInt64.ofNat (p.val % 64)).toNat = p.val % 64 :=
    UInt64.toNat_ofNat_of_lt' (Nat.lt_trans hlt (by decide))
  rw [bit, UInt64.toNat_shiftLeft, hoffset, Nat.mod_eq_of_lt hlt]
  show 1 <<< (p.val % 64) % 2 ^ 64 = _
  rw [Nat.one_shiftLeft, Nat.mod_eq_of_lt (Nat.pow_lt_pow_right (by decide) hlt)]

/-- The word of a position. -/
def word (words : Vector UInt64 (wordsFor bits)) (p : Fin bits) : UInt64 :=
  have := word_lt p
  words[p.val / 64]

theorem isMarked_iff : isMarked words p = true ↔ (word words p).toNat.testBit (p.val % 64) = true := by
  have hzero : word words p &&& bit p = 0 ↔ (word words p &&& bit p).toNat = 0 := UInt64.toNat_inj.symm
  show (word words p &&& bit p != 0) = true ↔ _
  rw [bne_iff_ne, ne_eq, hzero, UInt64.toNat_and, toNat_bit, Nat.and_two_pow]
  cases (word words p).toNat.testBit (p.val % 64) <;> simp

theorem word_mark :
    word (mark words p) q = if p.val / 64 = q.val / 64 then word words p ||| bit p else word words q := by
  simp only [word, mark, Vector.getElem_set]

/-- **A mark is set at its position and nowhere else.** -/
theorem isMarked_mark : isMarked (mark words p) q = true ↔ isMarked words q = true ∨ p = q := by
  rw [isMarked_iff, isMarked_iff, word_mark]
  by_cases hword : p.val / 64 = q.val / 64
  · have hpq : p = q ↔ p.val % 64 = q.val % 64 := by rw [Fin.ext_iff]; omega
    have hsame : word words p = word words q := by simp only [word, hword]
    rw [if_pos hword, UInt64.toNat_or, Nat.testBit_or, toNat_bit, Nat.testBit_two_pow, Bool.or_eq_true, decide_eq_true_eq,
      hpq, hsame]
  · rw [if_neg hword, or_iff_left]
    rintro rfl
    exact hword rfl

theorem isMarked_foldl (ps : List (Fin bits)) : ∀ words : Vector UInt64 (wordsFor bits),
    isMarked (ps.foldl mark words) q = true ↔ isMarked words q = true ∨ q ∈ ps := by
  induction ps with
  | nil => simp
  | cons p ps ih =>
    intro words
    rw [List.foldl_cons, ih, isMarked_mark, or_assoc, List.mem_cons, @eq_comm _ p q]

end

/-! ## Texts -/

variable {b : Bloom} {key : String}

/-- **A text is taken for known exactly when each of its positions was marked before or is one of the text put in.** -/
theorem mightContain_insert_iff (key' : String) : (b.insert key).mightContain key' = true ↔
    ∀ p ∈ b.positions key', isMarked b.words p = true ∨ p ∈ b.positions key := by
  show ((b.positions key').all (isMarked ((b.positions key).foldl mark b.words))) = true ↔ _
  simp only [List.all_eq_true, isMarked_foldl]

theorem mightContain_insert (b : Bloom) (key : String) : (b.insert key).mightContain key = true :=
  (mightContain_insert_iff key).2 (fun _ hp => .inr hp)

theorem mightContain_insert_of (h : b.mightContain key = true) (key' : String) :
    (b.insert key').mightContain key = true :=
  (mightContain_insert_iff key).2 (fun p hp => .inl (List.all_eq_true.1 h p hp))

/-- **What was put into a filter is never taken for new.** -/
theorem mightContain_foldl : ∀ (keys : List String) (b : Bloom), (b.mightContain key = true ∨ key ∈ keys) →
    (keys.foldl insert b).mightContain key = true
  | [],         _, h => h.resolve_right (List.not_mem_nil)
  | key' :: keys, b, h => by
    rw [List.foldl_cons]
    refine mightContain_foldl keys _ ?_
    rcases h with h | h
    · exact .inl (mightContain_insert_of h key')
    · rcases List.mem_cons.1 h with rfl | h
      · exact .inl (mightContain_insert b key)
      · exact .inr h

end Bloom

variable {W : Type} [Weight W]

theorem Clause.alike_iff {c d : Clause W} : c.alike d = true ↔ c.key = d.key := beq_iff_eq

/-! ## Facts behind a filter -/

namespace Subgoal

/-- A goal whose store is in order, and whose filter knows what is in the store. -/
structure Gated (g : Subgoal W) : Prop where
  store  : g.store.Sound
  filter : ∀ c ∈ g.facts, g.bloom.mightContain c.fingerprint = true

/-- Adds facts one after the other, each with its origin. -/
def addFacts (g : Subgoal W) (calls : List (Clause W × Origin)) : Subgoal W :=
  calls.foldl (fun g call => ((g.addFact call.1 call.2).map Prod.snd).getD g) g

/-- The calls whose clause is not like that of an earlier one. -/
def firstCalls (calls : List (Clause W × Origin)) : List (Clause W × Origin) :=
  calls.eraseDupsBy (fun call earlier => earlier.1.alike call.1)

/-- The calls whose clause is like none of a goal's facts, and like none of an earlier call. -/
def freshCalls (g : Subgoal W) (calls : List (Clause W × Origin)) : List (Clause W × Origin) :=
  firstCalls (calls.filter (fun call => g.facts.all (fun c => !c.alike call.1)))

variable {g g' : Subgoal W} {f : Clause W} {origin : Origin} {calls : List (Clause W × Origin)}

theorem gated_new (l : Literal W) (b : Bloom) : (new l (.empty none) b).Gated where
  store  := ⟨rfl, fun k => by simp [new, Store.empty, Store.toList], List.nodup_nil⟩
  filter := fun _ hc => nomatch hc

theorem addFact_fast {fast : Bool} (hs : g.addFact f origin = some (fast, g')) :
    fast = !g.bloom.mightContain f.fingerprint := by
  simp only [addFact] at hs
  split at hs
  · cases hs
  · split at hs
    · cases hs
    · exact (Prod.mk.inj (Option.some.inj hs)).1.symm

/-- **The filter is right when it says that a fact is new.** -/
theorem Gated.not_alike (h : g.Gated) (hfast : g.bloom.mightContain f.fingerprint = false) : ∀ c ∈ g.facts, c.key ≠ f.key := by
  intro c hc hkey
  have hin := h.filter c hc
  rw [show c.fingerprint = f.fingerprint from congrArg Prod.snd hkey, hfast] at hin
  cases hin

theorem Gated.addFact (h : g.Gated) {fast : Bool} (hs : g.addFact f origin = some (fast, g')) : g'.Gated := by
  refine ⟨(addFact_eq_some h.store hs).store, fun c hc => ?_⟩
  rw [addFact_facts hs, List.mem_append, List.mem_singleton] at hc
  rw [(addFact_store hs).2]
  rcases hc with hc | rfl
  · exact Bloom.mightContain_insert_of (h.filter c hc) _
  · exact Bloom.mightContain_insert _ _

theorem freshCalls_of_known (h : ∃ c ∈ g.facts, c.key = f.key) : g.freshCalls ((f, origin) :: calls) = g.freshCalls calls := by
  rw [freshCalls, List.filter_cons_of_neg, freshCalls]
  obtain ⟨c, hc, hkey⟩ := h
  intro hall
  have := List.all_eq_true.1 hall c hc
  rw [Clause.alike_iff.2 hkey] at this
  cases this

theorem freshCalls_of_new (h : ∀ c ∈ g.facts, c.key ≠ f.key) (hfacts : g'.facts = g.facts ++ [f]) :
    g.freshCalls ((f, origin) :: calls) = (f, origin) :: g'.freshCalls calls := by
  have hall : (g.facts.all (fun c => !c.alike f)) = true := by
    refine List.all_eq_true.2 (fun c hc => ?_)
    simpa [← Bool.not_eq_true, Clause.alike_iff] using h c hc
  rw [freshCalls, List.filter_cons, if_pos hall, firstCalls, List.eraseDupsBy_cons, List.filter_filter, freshCalls, firstCalls,
    hfacts]
  congr 3
  funext call
  simp [Bool.and_comm]

/-- **What one call of some does**: a clause that is known changes nothing, and a new one is the first of those kept. -/
theorem Gated.addFacts_cons (h : g.Gated) (f : Clause W) (origin : Origin) (calls : List (Clause W × Origin)) :
    ((∃ c ∈ g.facts, c.key = f.key) ∧ g.addFacts ((f, origin) :: calls) = g.addFacts calls ∧
      g.freshCalls ((f, origin) :: calls) = g.freshCalls calls) ∨
    ∃ g', g.Added f origin g' ∧ g'.Gated ∧ g.addFacts ((f, origin) :: calls) = g'.addFacts calls ∧
      g.freshCalls ((f, origin) :: calls) = (f, origin) :: g'.freshCalls calls := by
  cases hadd : g.addFact f origin with
  | none =>
    have hknown := (addFact_eq_none h.store).1 hadd
    exact .inl ⟨hknown, by rw [addFacts, List.foldl_cons, hadd]; rfl, freshCalls_of_known hknown⟩
  | some p =>
    obtain ⟨fast, g'⟩ := p
    have hnew : ∀ c ∈ g.facts, c.key ≠ f.key := fun c hc e => by
      rw [(addFact_eq_none h.store).2 ⟨c, hc, e⟩] at hadd
      cases hadd
    exact .inr ⟨g', addFact_eq_some h.store hadd, h.addFact hadd, by rw [addFacts, List.foldl_cons, hadd]; rfl,
      freshCalls_of_new hnew (addFact_facts hadd)⟩

/-- **What some calls leave behind**: a goal in order, whose facts are those it had and the new ones in the order of their
first calls, and which takes for asserted what it took so and the new ones whose first calls said so. -/
theorem Gated.addFacts : ∀ (calls : List (Clause W × Origin)) {g : Subgoal W}, g.Gated →
    (g.addFacts calls).Gated ∧
    (g.addFacts calls).facts = g.facts ++ (g.freshCalls calls).map Prod.fst ∧
    (∀ id, (g.addFacts calls).asserted.contains id = true ↔
      g.asserted.contains id = true ∨ ∃ call ∈ g.freshCalls calls, call.2 = .asserted ∧ call.1.head.id = id) ∧
    ∀ k, (∃ c ∈ (g.addFacts calls).facts, c.key = k) ↔ (∃ c ∈ g.facts, c.key = k) ∨ ∃ call ∈ calls, call.1.key = k
  | [], g, h => ⟨h, by simp [Subgoal.addFacts, freshCalls, firstCalls], by simp [Subgoal.addFacts, freshCalls, firstCalls],
      by simp [Subgoal.addFacts]⟩
  | (f, origin) :: calls, g, h => by
    rcases h.addFacts_cons f origin calls with ⟨⟨c, hc, hkey⟩, erun, efresh⟩ | ⟨g', hadded, hg', erun, efresh⟩
    · obtain ⟨hgated, hfacts, hasserted, hkeys⟩ := Gated.addFacts calls h
      rw [erun, efresh]
      refine ⟨hgated, hfacts, hasserted, fun k => ?_⟩
      rw [hkeys, List.exists_mem_cons_iff, ← or_assoc]
      refine or_congr_left (or_iff_left_of_imp ?_).symm
      rintro rfl
      exact ⟨c, hc, hkey⟩
    · obtain ⟨hgated, hfacts, hasserted, hkeys⟩ := Gated.addFacts calls hg'
      rw [erun, efresh]
      refine ⟨hgated, ?_, fun id => ?_, fun k => ?_⟩
      · rw [hfacts, hadded.facts, List.map_cons, List.append_assoc, List.singleton_append]
      · rw [hasserted, hadded.asserted, List.exists_mem_cons_iff, or_assoc]
      · rw [hkeys, hadded.facts, List.exists_mem_cons_iff, ← or_assoc]
        simp only [List.mem_append, List.mem_singleton, or_and_right, exists_or, exists_eq_left]

/-- **A filter never changes what is stored.**  Whatever its size, the number of its hashes and where they send a text, each
position that a filter looks at is one of its bits and lies in one of its words, and a text that was put in is never taken
for new.  So for every sequence of calls, a goal that keeps its facts in memory keeps the clauses that are not like an
earlier one, in the order of their first calls, and takes for asserted what their first calls said; it turns a fact away
exactly when one like it was given before; and it says that a fact was new without a look-up only when the filter says so,
and none like it is stored. -/
theorem addFacts_spec (b : Bloom) :
    (∀ key, ∀ p ∈ b.positions key, p.val < b.bits ∧ p.val / 64 < b.words.toArray.size) ∧
    (∀ keys : List String, ∀ key ∈ keys, (keys.foldl Bloom.insert b).mightContain key = true) ∧
    ∀ (l : Literal W) (calls : List (Clause W × Origin)),
      let g := (new l (.empty none) b).addFacts calls
      g.facts = (firstCalls calls).map Prod.fst ∧
      g.facts.Pairwise (fun c d => c.alike d = false) ∧
      (∀ m : Literal W, g.isAsserted m = true ↔
        ∃ call ∈ firstCalls calls, call.2 = .asserted ∧ call.1.head.id = m.id) ∧
      (∀ f origin, g.addFact f origin = none ↔ ∃ call ∈ calls, call.1.alike f = true) ∧
      (∀ f origin g', g.addFact f origin = some (true, g') →
        g.bloom.mightContain f.fingerprint = false ∧ ∀ c ∈ g.facts, c.alike f = false) ∧
      (∀ f, g.bloom.mightContain f.fingerprint = false → ∀ c ∈ g.facts, c.alike f = false) ∧
      ∀ b', ((new l (.empty none) b').addFacts calls).facts = g.facts := by
  refine ⟨fun key p _ => ⟨p.isLt, ?_⟩, fun keys key hkey => Bloom.mightContain_foldl keys b (.inr hkey), fun l calls => ?_⟩
  · rw [b.words.size_toArray]
    exact Bloom.word_lt p
  · have hfresh : ∀ b, (new l (.empty none) b).freshCalls calls = firstCalls calls := fun b => by
      exact congrArg firstCalls (List.filter_eq_self.2 (fun _ _ => rfl))
    have hfacts : ∀ b, ((new l (.empty none) b).addFacts calls).facts = (firstCalls calls).map Prod.fst := fun b => by
      rw [(Gated.addFacts calls (gated_new l b)).2.1, hfresh]
      rfl
    obtain ⟨hgated, -, hasserted, hkeys⟩ := Gated.addFacts calls (gated_new l b)
    intro g
    have hnot : ∀ f, g.bloom.mightContain f.fingerprint = false → ∀ c ∈ g.facts, c.alike f = false := fun f hf c hc =>
      Bool.eq_false_iff.2 (fun ha => hgated.not_alike hf c hc (Clause.alike_iff.1 ha))
    refine ⟨hfacts b, ?_, fun m => ?_, fun f origin => ?_, fun f origin g' hadd => ?_, hnot, fun b' => ?_⟩
    · refine (List.pairwise_map.1 hgated.store.nodup).imp (fun hne => ?_)
      exact Bool.eq_false_iff.2 (fun ha => hne (Clause.alike_iff.1 ha))
    · rw [isAsserted, hasserted, hfresh]
      exact or_iff_right (by simp [new])
    · rw [addFact_eq_none hgated.store, hkeys]
      simp only [Clause.alike_iff]
      exact or_iff_right (by simp [new, facts, Store.empty, Store.toList])
    · have hfast : g.bloom.mightContain f.fingerprint = false := by simpa using (addFact_fast hadd).symm
      exact ⟨hfast, hnot f hfast⟩
    · rw [hfacts b', hfacts b]

namespace Repeated

def rain : Clause ℚ := .fact ⟨1, ⟨"rain", 0⟩, []⟩
def wind : Clause ℚ := .fact ⟨1, ⟨"wind", 0⟩, []⟩

/-- A fact that is stated, another, and the first one again when it is derived. -/
def reports : List (Clause ℚ × Origin) := [(rain, .asserted), (wind, .derived), (rain, .derived)]

theorem firstCalls_reports : firstCalls reports = [(rain, .asserted), (wind, .derived)] := by
  have hrain : rain.alike rain = true := Clause.alike_iff.2 rfl
  have hwind : rain.alike wind = false := by decide +kernel
  simp [firstCalls, reports, List.eraseDupsBy_cons, hrain, hwind]

end Repeated

open Repeated in
/-- Behind a filter for a thousand facts, one that was stated first is not derived again, and stays asserted. -/
theorem addFacts_spec_repeated :
    let g := (new rain.head (.empty none) (.sized 1000 0.01)).addFacts reports
    g.facts = [rain, wind] ∧ g.isAsserted rain.head = true ∧ g.addFact rain .derived = none ∧
      (∀ g', g.addFact wind .derived ≠ some (true, g')) := by
  obtain ⟨-, -, h⟩ := addFacts_spec (W := ℚ) (.sized 1000 0.01)
  obtain ⟨hfacts, -, hasserted, hnone, hfast, -, -⟩ := h rain.head reports
  rw [firstCalls_reports] at hfacts hasserted
  refine ⟨hfacts, (hasserted _).2 ⟨_, List.mem_cons_self, rfl, rfl⟩,
    (hnone _ _).2 ⟨_, List.mem_cons_self, Clause.alike_iff.2 rfl⟩, fun g' hadd => ?_⟩
  have := (hfast _ _ g' hadd).2 wind (by rw [hfacts]; simp)
  exact absurd (Clause.alike_iff.2 rfl) (Bool.eq_false_iff.1 this)

end Subgoal
end Credence
