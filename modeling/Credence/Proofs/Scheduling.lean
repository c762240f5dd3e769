import Credence.Proofs.Standing
import Mathlib.Data.Prod.Lex
import Mathlib.Data.Set.Finite.List
import Mathlib.Order.WellFoundedSet
/-!
# Which order a body is put in

Which literal of a body has to run before which is a graph on the positions of the body (`Clause.Before`).  The order is
built from the front, with the least of the positions that wait for nothing else (`Clause.Chooses`), and that leaves no
choice (`Clause.Chooses.unique`).  It stops before the end only at positions each of which waits for another of them, and
among finitely many such positions some wait for each other in a circle.  So a rule is refused when its graph has a
circle, and otherwise put into that one order (`Clause.reorder_spec`).
-/
namespace Credence

variable {W : Type}

/-- Where everything has something before it, something comes before itself. -/
theorem exists_transGen_self {α : Type} {R : α → α → Prop} {xs : List α} (hne : xs ≠ [])
    (h : ∀ x ∈ xs, ∃ y ∈ xs, R y x) : ∃ x, Relation.TransGen R x x := by
  by_contra hno
  -- without a circle the graph is an order, and an order on finitely many elements has a least one
  have : IsStrictOrder α (Relation.TransGen R) :=
    { irrefl := fun x hx => hno ⟨x, hx⟩, trans := fun _ _ _ => Relation.TransGen.trans }
  have hwf := Set.Finite.wellFoundedOn (r := Relation.TransGen R) (List.finite_toSet xs)
  obtain ⟨x, hx⟩ := List.exists_mem_of_ne_nil xs hne
  obtain ⟨⟨m, hm⟩, -, hleast⟩ := WellFounded.has_min hwf Set.univ ⟨⟨x, hx⟩, trivial⟩
  obtain ⟨y, hy, hym⟩ := h m hm
  exact hleast ⟨y, hy⟩ trivial (.single hym)

/-! ## The steps of a schedule -/

/-- What decides between literals that could run: the role, then whether nothing is materialized, then the position. -/
def Flow.preference (f : Flow) (position : Nat) : Nat ×ₗ Bool ×ₗ Nat :=
  toLex (f.role.rank, toLex (!f.materializing, position))

namespace Step

theorem not_goesBefore_iff {s t : Step W} :
    t.goesBefore s = false ↔ s.flow.preference s.position ≤ t.flow.preference t.position := by
  obtain ⟨i, -, role, materializing, -, -⟩ := s
  obtain ⟨j, -, role', materializing', -, -⟩ := t
  simp only [goesBefore, Flow.rank, Flow.preference, Prod.Lex.toLex_le_toLex, Bool.or_eq_false_iff,
    Bool.and_eq_false_iff, decide_eq_false_iff_not, beq_eq_false_iff_ne]
  cases materializing <;> cases materializing' <;> simp [Bool.lt_iff] <;> omega

theorem mem_number_iff {r : Registry} {s : Step W} : ∀ {i : Nat} {ls : List (Literal W)},
    s ∈ number r i ls ↔ ∃ k, s.position = i + k ∧ ls[k]? = some s.literal ∧ s.flow = .of r s.literal
  | i, []      => by simp [number]
  | i, l :: ls => by
    rw [number, List.mem_cons, mem_number_iff]
    constructor
    · rintro (rfl | ⟨k, hp, hl, hf⟩)
      · exact ⟨0, rfl, rfl, rfl⟩
      · exact ⟨k + 1, by omega, hl, hf⟩
    · rintro ⟨k, hp, hl, hf⟩
      cases k with
      | zero =>
        obtain rfl : l = s.literal := Option.some.inj hl
        exact .inl (by rw [← hf]; cases s; cases hp; rfl)
      | succ k => exact .inr ⟨k, by omega, hl, hf⟩

theorem number_position (r : Registry) : ∀ (i : Nat) (ls : List (Literal W)),
    (number r i ls).map position = List.range' i ls.length
  | _, []      => rfl
  | i, l :: ls => by rw [number, List.map_cons, number_position, List.length_cons, List.range'_succ]

theorem least_eq_none : ∀ {ss : List (Step W)}, least ss = none → ss = []
  | [],      _ => rfl
  | s :: ss, h => by
    rw [least] at h
    split at h <;> cases h

/-- **Where no schedule is found, some steps are left each of which waits for another of them.** -/
theorem exists_stuck : ∀ (count : Nat) (pending : List (Step W)), pending.length ≤ count → schedule count pending = none →
    ∃ stuck, stuck ≠ [] ∧ (∀ s ∈ stuck, s ∈ pending) ∧
      ∀ s ∈ stuck, ∃ t ∈ stuck, t.position ≠ s.position ∧ t.flow.precedes s.flow = true
  | count,     [],      _,    h => by cases count <;> cases h
  | 0,         _ :: _,  hlen, _ => absurd hlen (by simp)
  | count + 1, x :: xs, hlen, h => by
    rw [schedule] at h
    cases hnext : next? (x :: xs) with
    | none =>
      refine ⟨x :: xs, by simp, fun s hs => hs, fun s hs => ?_⟩
      have hbusy : isFree (x :: xs) s = false := by
        simpa using List.filter_eq_nil_iff.1 (least_eq_none hnext) s hs
      obtain ⟨t, ht, hts⟩ := List.all_eq_false.1 hbusy
      simp only [Bool.or_eq_true, beq_iff_eq, Bool.not_eq_true', not_or, Bool.not_eq_false] at hts
      exact ⟨t, ht, hts⟩
    | some t =>
      rw [hnext, Option.bind_some, Option.map_eq_none_iff] at h
      have hmem := (List.mem_filter.1 (mem_of_least hnext)).1
      have hshort : ((x :: xs).filter (fun u => u.position != t.position)).length ≤ count := by
        have hlt := List.length_filter_lt_length_iff_exists (p := fun u => u.position != t.position).2
          ⟨t, hmem, by simp⟩
        omega
      obtain ⟨stuck, hne, hsub, hwait⟩ := exists_stuck count _ hshort h
      exact ⟨stuck, hne, fun s hs => (List.mem_filter.1 (hsub s hs)).1, hwait⟩

end Step

/-! ## The graph of a body -/

namespace Clause

/-- The rule with the literals at some positions for its body. -/
def arrange (c : Clause W) (order : List Nat) : Clause W := { c with body := order.filterMap (fun i => c.body[i]?) }

/-- The literal at `i` has to run before the one at `j`. -/
def Before (r : Registry) (c : Clause W) (i j : Nat) : Prop :=
  i ≠ j ∧ ∃ a b, c.body[i]? = some a ∧ c.body[j]? = some b ∧ (Flow.of r a).precedes (Flow.of r b) = true

/-- Some literals wait for each other in a circle. -/
def Cyclic (r : Registry) (c : Clause W) : Prop := ∃ i, Relation.TransGen (c.Before r) i i

/-- A position that can be placed next: all that it waits for has been placed. -/
def Ready (r : Registry) (c : Clause W) (placed : List Nat) (i : Nat) : Prop :=
  i < c.body.length ∧ i ∉ placed ∧ ∀ j, c.Before r j i → j ∈ placed

/-- The literal at `i` is preferred to the one at `j`, or the same. -/
def Prefers (r : Registry) (c : Clause W) (i j : Nat) : Prop :=
  ∃ a b, c.body[i]? = some a ∧ c.body[j]? = some b ∧ (Flow.of r a).preference i ≤ (Flow.of r b).preference j

/-- An order that goes on from the positions already placed with the least of those that are ready, to the end. -/
def Chooses (r : Registry) (c : Clause W) : List Nat → List Nat → Prop
  | placed, []        => ∀ i < c.body.length, i ∈ placed
  | placed, i :: rest => c.Ready r placed i ∧ (∀ j, c.Ready r placed j → c.Prefers r i j) ∧ Chooses r c (placed ++ [i]) rest

variable {r : Registry} {c : Clause W}

theorem Prefers.antisymm {i j : Nat} (h : c.Prefers r i j) (h' : c.Prefers r j i) : i = j := by
  obtain ⟨a, b, ha, hb, hab⟩ := h
  obtain ⟨b', a', hb', ha', hba⟩ := h'
  obtain rfl := Option.some.inj (ha.symm.trans ha')
  obtain rfl := Option.some.inj (hb.symm.trans hb')
  have e := le_antisymm hab hba
  simp only [Flow.preference, EmbeddingLike.apply_eq_iff_eq, Prod.mk.injEq] at e
  exact e.2.2

/-- **The choice is never open**: there is one such order at most. -/
theorem Chooses.unique : ∀ {placed order other : List Nat}, c.Chooses r placed order → c.Chooses r placed other →
    other = order
  | _, [],     [],     _, _  => rfl
  | _, [],     j :: _, h, h' => absurd (h j h'.1.1) h'.1.2.1
  | _, i :: _, [],     h, h' => absurd (h' i h.1.1) h.1.2.1
  | _, i :: _, j :: _, h, h' => by
    obtain rfl : i = j := (h.2.1 j h'.1).antisymm (h'.2.1 i h.1)
    rw [h.2.2.unique h'.2.2]

/-- A step of the body stands for the literal at its position. -/
theorem mem_steps_iff {s : Step W} :
    s ∈ Step.number r 0 c.body ↔ c.body[s.position]? = some s.literal ∧ s.flow = .of r s.literal := by
  rw [Step.mem_number_iff]
  constructor
  · rintro ⟨k, hp, hl⟩
    rw [Nat.zero_add] at hp
    exact hp ▸ hl
  · exact fun h => ⟨s.position, (Nat.zero_add _).symm, h⟩

theorem exists_step {i : Nat} (hi : i < c.body.length) : ∃ s ∈ Step.number r 0 c.body, s.position = i :=
  ⟨⟨i, c.body[i], .of r c.body[i]⟩, mem_steps_iff.2 ⟨List.getElem?_eq_getElem hi, rfl⟩, rfl⟩

theorem before_iff {s t : Step W} (hs : s ∈ Step.number r 0 c.body) (ht : t ∈ Step.number r 0 c.body) :
    c.Before r s.position t.position ↔ s.position ≠ t.position ∧ s.flow.precedes t.flow = true := by
  obtain ⟨hs, hfs⟩ := mem_steps_iff.1 hs
  obtain ⟨ht, hft⟩ := mem_steps_iff.1 ht
  simp [Before, hs, ht, hfs, hft]

theorem prefers_iff {s t : Step W} (hs : s ∈ Step.number r 0 c.body) (ht : t ∈ Step.number r 0 c.body) :
    c.Prefers r s.position t.position ↔ t.goesBefore s = false := by
  obtain ⟨hs, hfs⟩ := mem_steps_iff.1 hs
  obtain ⟨ht, hft⟩ := mem_steps_iff.1 ht
  simp [Prefers, Step.not_goesBefore_iff, hs, ht, hfs, hft]

/-! ## Orders and circles -/

section Scheduled

variable {count : Nat} {steps : List (Step W)}

/-- **A schedule goes on with the least of what is ready**, from wherever it has got to. -/
theorem chooses_of_schedule (h : Step.schedule count (Step.number r 0 c.body) = some steps) :
    ∀ (post pre : List (Step W)), steps = pre ++ post → c.Chooses r (pre.map Step.position) (post.map Step.position) := by
  have hnodup := (Step.number_spec r 0 c.body).2.2
  have hperm := (Step.schedule_spec _ _ h hnodup).1
  have hpos : (steps.map Step.position).Nodup := (hperm.map _).nodup_iff.2 hnodup
  have hpairs := (Step.schedule_spec _ _ h hnodup).2
  have hstep : ∀ s ∈ steps, s ∈ Step.number r 0 c.body := fun s hs => hperm.mem_iff.1 hs
  have hexists : ∀ i < c.body.length, ∃ s ∈ steps, s.position = i := fun i hi => by
    obtain ⟨s, hs, e⟩ := exists_step (r := r) hi
    exact ⟨s, hperm.mem_iff.2 hs, e⟩
  intro post
  induction post with
  | nil =>
    rintro pre rfl i hi
    obtain ⟨s, hs, rfl⟩ := hexists i hi
    exact List.mem_map_of_mem (by simpa using hs)
  | cons s post ih =>
    rintro pre rfl
    have hs := hstep s (by simp)
    obtain ⟨-, hpost, hbehind⟩ := List.nodup_append.1 (List.map_append ▸ hpos)
    refine ⟨⟨?_, fun hi => ?_, fun j hj => ?_⟩, fun j hj => ?_, ?_⟩
    · exact (List.getElem?_eq_some_iff.1 (mem_steps_iff.1 hs).1).1
    · exact hbehind _ hi _ (List.mem_map_of_mem List.mem_cons_self) rfl
    · -- a step that has to run before `s` does not stand behind it
      obtain ⟨hne, a, b, ha, -⟩ := id hj
      obtain ⟨t, ht, rfl⟩ := hexists j (List.getElem?_eq_some_iff.1 ha).1
      have hts := ((before_iff (hstep t ht) hs).1 hj).2
      rcases List.mem_append.1 ht with ht | ht
      · exact List.mem_map_of_mem ht
      · rcases List.mem_cons.1 ht with rfl | ht
        · exact absurd rfl hne
        · rw [List.rel_of_pairwise_cons (List.pairwise_append.1 hpairs).2.1 ht] at hts
          cases hts
    · -- a position that is ready is one of those left, and waits for none of these
      obtain ⟨hlt, hnot, hwait⟩ := hj
      obtain ⟨t, ht, rfl⟩ := hexists j hlt
      have hleft : t ∈ s :: post := (List.mem_append.1 ht).resolve_left (fun h => hnot (List.mem_map_of_mem h))
      refine (prefers_iff hs (hstep t ht)).2 (Step.not_goesBefore_of_schedule _ _ h hnodup pre s post rfl t hleft ?_)
      intro u hu
      by_cases e : u.position = t.position
      · exact .inl e
      · refine .inr (Bool.eq_false_iff.2 (fun hut => ?_))
        have hplaced := hwait _ ((before_iff (hstep u (List.mem_append_right _ hu)) (hstep t ht)).2 ⟨e, hut⟩)
        exact hbehind _ hplaced _ (List.mem_map_of_mem hu) rfl
    · rw [← List.map_singleton, ← List.map_append]
      exact ih (pre ++ [s]) (by simp)

end Scheduled

/-- What has to run first stands first. -/
theorem idxOf_lt_of_before {order : List Nat} (hall : ∀ i < c.body.length, i ∈ order)
    (hpairs : order.Pairwise (fun i j => ¬ c.Before r j i)) {i j : Nat} (h : c.Before r i j) :
    order.idxOf i < order.idxOf j := by
  obtain ⟨hne, a, b, ha, hb, -⟩ := id h
  have hi := hall i (List.getElem?_eq_some_iff.1 ha).1
  have hj := hall j (List.getElem?_eq_some_iff.1 hb).1
  by_contra hle
  have hlt : order.idxOf j < order.idxOf i := by
    refine Nat.lt_of_le_of_ne (Nat.le_of_not_lt hle) (fun e => hne ?_)
    rw [← List.getElem_idxOf (List.idxOf_lt_length_of_mem hi), ← List.getElem_idxOf (List.idxOf_lt_length_of_mem hj)]
    simp only [e]
  have := List.pairwise_iff_getElem.1 hpairs _ _ (List.idxOf_lt_length_of_mem hj) (List.idxOf_lt_length_of_mem hi) hlt
  rw [List.getElem_idxOf, List.getElem_idxOf] at this
  exact this h

/-- An order that keeps to the graph shows that there is no circle. -/
theorem not_cyclic_of_idxOf_lt {order : List Nat} (h : ∀ i j, c.Before r i j → order.idxOf i < order.idxOf j) :
    ¬ c.Cyclic r := by
  rintro ⟨i, hi⟩
  have hlt : ∀ {j}, Relation.TransGen (c.Before r) i j → order.idxOf i < order.idxOf j := by
    intro j hj
    induction hj with
    | single hij => exact h _ _ hij
    | tail _ hjk ih => exact ih.trans (h _ _ hjk)
  exact lt_irrefl _ (hlt hi)

theorem cyclic_of_schedule (h : Step.schedule c.body.length (Step.number r 0 c.body) = none) : c.Cyclic r := by
  have hlen : (Step.number r 0 c.body).length = c.body.length := by
    rw [← List.length_map (f := Step.literal), (Step.number_spec r 0 c.body).1]
  obtain ⟨stuck, hne, hsub, hwait⟩ := Step.exists_stuck _ _ (Nat.le_of_eq hlen) h
  have hpositions : stuck.map Step.position ≠ [] := by simpa using hne
  refine exists_transGen_self hpositions (fun i hi => ?_)
  obtain ⟨s, hs, rfl⟩ := List.mem_map.1 hi
  obtain ⟨t, ht, hts⟩ := hwait s hs
  exact ⟨t.position, List.mem_map_of_mem ht, (before_iff (hsub t ht) (hsub s hs)).2 hts⟩

/-- **A body that is scheduled is put into the order of the schedule**, which has every position once, keeps to the graph,
and goes on with the least of what is ready. -/
theorem arrange_of_schedule {steps : List (Step W)}
    (h : Step.schedule c.body.length (Step.number r 0 c.body) = some steps) : ∃ order : List Nat,
    steps.map Step.literal = order.filterMap (fun i => c.body[i]?) ∧ order.Perm (List.range c.body.length) ∧
      (∀ i j, c.Before r i j → order.idxOf i < order.idxOf j) ∧ c.Chooses r [] order := by
  have hnodup := (Step.number_spec r 0 c.body).2.2
  have hperm := (Step.schedule_spec _ _ h hnodup).1
  have horder : (steps.map Step.position).Perm (List.range c.body.length) := by
    rw [List.range_eq_range', ← Step.number_position r 0 c.body]
    exact hperm.map _
  have hstep : ∀ s ∈ steps, s ∈ Step.number r 0 c.body := fun s hs => hperm.mem_iff.1 hs
  refine ⟨steps.map Step.position, ?_, horder, fun i j => idxOf_lt_of_before (fun i hi => ?_) ?_,
    chooses_of_schedule h steps [] rfl⟩
  · rw [List.filterMap_map, ← List.filterMap_eq_map]
    exact List.filterMap_congr (fun s hs => (mem_steps_iff.1 (hstep s hs)).1.symm)
  · exact horder.mem_iff.2 (List.mem_range.2 hi)
  · refine List.pairwise_map.2 ((Step.schedule_spec _ _ h hnodup).2.imp_of_mem (fun hs ht hst hts => ?_))
    rw [((before_iff (hstep _ ht) (hstep _ hs)).1 hts).2] at hst
    cases hst

variable [Weight W]

/-- **A rule is refused exactly when its literals wait for each other in a circle.** -/
theorem reorder_eq_error_iff : c.reorder r = .error (.cyclicBody c.text) ↔ c.Cyclic r := by
  unfold reorder
  cases h : Step.schedule c.body.length (Step.number r 0 c.body) with
  | none => exact ⟨fun _ => cyclic_of_schedule h, fun _ => rfl⟩
  | some steps =>
    obtain ⟨order, -, -, hbefore, -⟩ := arrange_of_schedule h
    exact ⟨fun e => (nomatch e), fun hc => absurd hc (not_cyclic_of_idxOf_lt hbefore)⟩

theorem exists_order (h : ¬ c.Cyclic r) : ∃ order : List Nat, c.reorder r = .ok (c.arrange order) ∧
    order.Perm (List.range c.body.length) ∧ (∀ i j, c.Before r i j → order.idxOf i < order.idxOf j) ∧
    c.Chooses r [] order := by
  unfold reorder
  cases hs : Step.schedule c.body.length (Step.number r 0 c.body) with
  | none => exact absurd (cyclic_of_schedule hs) h
  | some steps =>
    obtain ⟨order, hbody, horder⟩ := arrange_of_schedule hs
    exact ⟨order, by rw [arrange, ← hbody], horder⟩

/-- **A rule is put in order unless its literals wait for each other in a circle.**  The order has every position of the
body once, whatever has to run before a literal stands before it, and it is the one order that always goes on with the
least of the positions that wait for nothing else. -/
theorem reorder_spec (r : Registry) (c : Clause W) :
    (c.reorder r = .error (.cyclicBody c.text) ↔ c.Cyclic r) ∧
    (c.Cyclic r ∨ ∃ order : List Nat, c.reorder r = .ok (c.arrange order) ∧ order.Perm (List.range c.body.length) ∧
      (∀ i j, c.Before r i j → order.idxOf i < order.idxOf j) ∧
      c.Chooses r [] order ∧ ∀ other, c.Chooses r [] other → other = order) := by
  refine ⟨reorder_eq_error_iff, or_iff_not_imp_left.2 (fun hc => ?_)⟩
  obtain ⟨order, hok, hperm, hbefore, hchooses⟩ := exists_order hc
  exact ⟨order, hok, hperm, hbefore, hchooses, fun other hother => hchooses.unique hother⟩

end Clause
end Credence
