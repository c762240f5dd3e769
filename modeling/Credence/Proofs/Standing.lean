import Credence.Proofs.Derivation
import Credence.Proofs.Ordering
/-!
# Bodies that stand in running order

A body is in order when, from the front on, every literal waits for none behind it and comes before whatever could have
been placed instead (`Flow.InOrder`).  The order always ends in such a body (`Step.inOrder_of_schedule`) and leaves it as
it is (`Step.schedule_of_inOrder`), so putting a rule in order twice is putting it in order once
(`Clause.reorder_reorder`).  The check of a rule looks at which literals there are and not at their order.  Neither
depends on what the variables are called (`Clause.checkRule_copy`, `Flow.InOrder.copy`).
-/
namespace Credence

variable {W : Type}

/-! ## The least of some steps -/

namespace Step

theorem not_goesBefore_symm {s t : Step W} (h : t.goesBefore s = true) : s.goesBefore t = false := by
  simp only [goesBefore, Bool.or_eq_true, Bool.and_eq_true, decide_eq_true_eq, beq_iff_eq] at h
  simp only [goesBefore, Bool.or_eq_false_iff, Bool.and_eq_false_iff, decide_eq_false_iff_not, beq_eq_false_iff_ne]
  omega

theorem not_goesBefore_trans {s t u : Step W} (h : s.goesBefore t = false) (h' : t.goesBefore u = false) :
    s.goesBefore u = false := by
  simp only [goesBefore, Bool.or_eq_false_iff, Bool.and_eq_false_iff, decide_eq_false_iff_not, beq_eq_false_iff_ne] at h h' ⊢
  omega

theorem rank_le_of_not_goesBefore {s t : Step W} (h : s.goesBefore t = false) : t.flow.rank ≤ s.flow.rank := by
  simp only [goesBefore, Bool.or_eq_false_iff, decide_eq_false_iff_not] at h
  omega

/-- Nothing goes before the least. -/
theorem not_goesBefore_least : ∀ {ss : List (Step W)} {s : Step W}, least ss = some s → ∀ t ∈ ss, t.goesBefore s = false
  | [],      _, h => nomatch h
  | u :: us, s, h => by
    rw [least] at h
    cases hl : least us with
    | none =>
      rw [hl] at h
      obtain rfl : u = s := Option.some.inj h
      cases us with
      | nil => exact fun t ht => by rw [List.mem_singleton.1 ht]; simp [goesBefore]
      | cons x xs =>
        rw [least] at hl
        split at hl
        · cases hl
        · cases hl
    | some v =>
      have ih := not_goesBefore_least hl
      rw [hl] at h
      have h := Option.some.inj h
      split at h
      · rename_i hvu
        subst h
        intro t ht
        rcases List.mem_cons.1 ht with rfl | ht
        · exact not_goesBefore_symm hvu
        · exact ih t ht
      · rename_i hvu
        subst h
        intro t ht
        rcases List.mem_cons.1 ht with rfl | ht
        · simp [goesBefore]
        · exact not_goesBefore_trans (ih t ht) (by simpa using hvu)

theorem least_cons {s : Step W} {ss : List (Step W)} (h : ∀ t ∈ ss, t.goesBefore s = false) : least (s :: ss) = some s := by
  rw [least]
  cases hl : least ss with
  | none => rfl
  | some t => simp [h t (mem_of_least hl)]

end Step

/-! ## Order -/

/-- From the front on, everything waits for nothing behind it, and what could have stood there as well is not preferred. -/
def Flow.InOrder : List Flow → Prop
  | []      => True
  | f :: fs => (∀ g ∈ fs, g.precedes f = false) ∧
    (∀ before g after, fs = before ++ g :: after → (∀ h ∈ f :: (before ++ after), h.precedes g = false) → f.rank ≤ g.rank) ∧
    InOrder fs

namespace Step

/-- **At every place of a schedule stands the least of what could stand there**: nothing that follows and waits for
nothing that follows goes before it. -/
theorem not_goesBefore_of_schedule : ∀ (count : Nat) (pending : List (Step W)) {out : List (Step W)},
    schedule count pending = some out → (pending.map position).Nodup → ∀ (pre : List (Step W)) (s : Step W)
    (post : List (Step W)), out = pre ++ s :: post → ∀ t ∈ s :: post,
    (∀ u ∈ s :: post, u.position = t.position ∨ u.flow.precedes t.flow = false) → t.goesBefore s = false
  | count,     [],      out, h, _ => by
    intro pre s post e
    have : out = [] := by
      cases count <;> (injection h with h; exact h.symm)
    rw [this] at e
    simp at e
  | 0,         _ :: _,  _,   h, _ => nomatch h
  | count + 1, x :: xs, out, h, hp => by
    intro pre s post e t ht hfree
    have hperm := (schedule_spec (count + 1) (x :: xs) h hp).1
    rw [schedule] at h
    obtain ⟨u, hu, h⟩ := Option.bind_eq_some_iff.1 h
    obtain ⟨rest, hrest, rfl⟩ := Option.map_eq_some_iff.1 h
    cases pre with
    | nil =>
      obtain ⟨rfl, rfl⟩ := List.cons.inj e
      refine not_goesBefore_least hu t (List.mem_filter.2 ⟨hperm.mem_iff.1 ht, List.all_eq_true.2 (fun v hv => ?_)⟩)
      rcases hfree v (hperm.mem_iff.2 hv) with e | e
      · simp [e]
      · simp [e]
    | cons y pre =>
      obtain ⟨rfl, rfl⟩ := List.cons.inj e
      exact not_goesBefore_of_schedule count _ hrest (hp.sublist (List.filter_sublist.map _)) pre s post rfl t ht hfree

/-- **What is scheduled is in order**, from any place in it to the end. -/
theorem inOrder_of_schedule {count : Nat} {pending out : List (Step W)} (h : schedule count pending = some out)
    (hp : (pending.map position).Nodup) : ∀ (post pre : List (Step W)), out = pre ++ post → Flow.InOrder (post.map flow) := by
  intro post
  induction post with
  | nil => exact fun _ _ => trivial
  | cons s post ih =>
    intro pre e
    have hpairs := (schedule_spec _ _ h hp).2
    rw [e] at hpairs
    refine ⟨fun g hg => ?_, fun before g after hsplit hfree => ?_, ih (pre ++ [s]) (by simp [e])⟩
    · obtain ⟨u, hu, rfl⟩ := List.mem_map.1 hg
      exact List.rel_of_pairwise_cons (List.pairwise_append.1 hpairs).2.1 hu
    · obtain ⟨front, tl, rfl, rfl, htl⟩ := List.map_eq_append_iff.1 hsplit
      obtain ⟨u, back, rfl, rfl, rfl⟩ := List.map_eq_cons_iff.1 htl
      refine rank_le_of_not_goesBefore (not_goesBefore_of_schedule _ _ h hp pre s _ e u (by simp) (fun v hv => ?_))
      by_cases hvu : v = u
      · exact .inl (by rw [hvu])
      · refine .inr (hfree _ ?_)
        rw [← List.map_append, ← List.map_cons]
        refine List.mem_map_of_mem ?_
        simp only [List.mem_cons, List.mem_append, hvu, false_or] at hv ⊢
        exact hv

theorem number_flow (r : Registry) : ∀ (i : Nat) (ls : List (Literal W)), (number r i ls).map flow = ls.map (Flow.of r)
  | _, []      => rfl
  | i, l :: ls => congrArg (Flow.of r l :: ·) (number_flow r (i + 1) ls)

/-- Of literals in order the first is placed next: it is the least of those that are free. -/
theorem next?_of_inOrder {r : Registry} {i : Nat} {l : Literal W} {ls : List (Literal W)}
    (h : Flow.InOrder ((l :: ls).map (Flow.of r))) :
    next? (⟨i, l, Flow.of r l⟩ :: number r (i + 1) ls) = some ⟨i, l, Flow.of r l⟩ := by
  obtain ⟨hfirst, hleast, -⟩ := h
  obtain ⟨-, hlater, hnodup⟩ := number_spec r (i + 1) ls
  have hpos : ∀ t ∈ number r (i + 1) ls, i < t.position := fun t ht => (hlater t ht).1
  have hfree : isFree (⟨i, l, Flow.of r l⟩ :: number r (i + 1) ls) ⟨i, l, Flow.of r l⟩ = true := by
    refine List.all_eq_true.2 (fun t ht => ?_)
    rcases List.mem_cons.1 ht with rfl | ht
    · simp
    · have hflow : t.flow ∈ ls.map (Flow.of r) := number_flow r (i + 1) ls ▸ List.mem_map_of_mem ht
      simp [hfirst _ hflow]
  rw [next?, List.filter_cons_of_pos hfree]
  refine least_cons (fun t ht => ?_)
  obtain ⟨ht, htfree⟩ := List.mem_filter.1 ht
  obtain ⟨pre, post, hsplit⟩ := List.append_of_mem ht
  -- no other step has the position of `t`, so none of them has to run before it
  have hothers : ∀ u ∈ (⟨i, l, Flow.of r l⟩ : Step W) :: (pre ++ post), u.flow.precedes t.flow = false := by
    intro u hu
    have hne : u.position ≠ t.position := by
      rcases List.mem_cons.1 hu with rfl | hu
      · exact Nat.ne_of_lt (hpos t ht)
      · rw [hsplit, List.map_append, List.map_cons] at hnodup
        intro e
        refine (List.nodup_cons.1 (List.nodup_middle.1 hnodup)).1 ?_
        rw [← List.map_append, ← e]
        exact List.mem_map_of_mem hu
    have hmem : u ∈ (⟨i, l, Flow.of r l⟩ : Step W) :: number r (i + 1) ls := by
      rw [hsplit]
      simp only [List.mem_cons, List.mem_append] at hu ⊢
      rcases hu with hu | hu | hu
      · exact .inl hu
      · exact .inr (.inl hu)
      · exact .inr (.inr (.inr hu))
    simpa [hne] using List.all_eq_true.1 htfree u hmem
  have hrank : (Flow.of r l).rank ≤ t.flow.rank := by
    refine hleast (pre.map flow) t.flow (post.map flow) ?_ (fun g hg => ?_)
    · rw [← number_flow r (i + 1) ls, hsplit, List.map_append, List.map_cons]
    · rw [← List.map_append] at hg
      rcases List.mem_cons.1 hg with rfl | hg
      · exact hothers _ List.mem_cons_self
      · obtain ⟨u, hu, rfl⟩ := List.mem_map.1 hg
        exact hothers u (List.mem_cons_of_mem _ hu)
  have hlt := hpos t ht
  simp only [goesBefore, Bool.or_eq_false_iff, Bool.and_eq_false_iff, decide_eq_false_iff_not, beq_eq_false_iff_ne]
  omega

/-- **What is in order is scheduled as it stands.** -/
theorem schedule_of_inOrder (r : Registry) : ∀ (i : Nat) (ls : List (Literal W)), Flow.InOrder (ls.map (Flow.of r)) →
    schedule ls.length (number r i ls) = some (number r i ls)
  | _, [],      _ => rfl
  | i, l :: ls, h => by
    have hfilter : (⟨i, l, Flow.of r l⟩ :: number r (i + 1) ls).filter (fun u => u.position != i) = number r (i + 1) ls := by
      rw [List.filter_cons_of_neg (by simp), List.filter_eq_self]
      intro t ht
      have hlt := ((number_spec r (i + 1) ls).2.1 t ht).1
      simp only [bne_iff_ne, ne_eq]
      omega
    rw [List.length_cons, number, schedule, next?_of_inOrder h, Option.bind_some, hfilter,
      schedule_of_inOrder r (i + 1) ls h.2.2]
    rfl

end Step

/-! ## Rules in order -/

namespace Clause

variable [Weight W] {r : Registry} {c d : Clause W}

theorem inOrder_of_reorder (h : c.reorder r = .ok d) : Flow.InOrder (d.body.map (Flow.of r)) := by
  obtain ⟨steps, hs, -, hflows⟩ := exists_schedule h
  rw [hflows]
  exact Step.inOrder_of_schedule hs (Step.number_spec r 0 c.body).2.2 steps [] rfl

theorem reorder_of_inOrder (h : Flow.InOrder (c.body.map (Flow.of r))) : c.reorder r = .ok c := by
  unfold reorder
  rw [Step.schedule_of_inOrder r 0 c.body h]
  simp only [(Step.number_spec r 0 c.body).1]

/-- **A rule that was put in order is in order.** -/
theorem reorder_reorder (h : c.reorder r = .ok d) : d.reorder r = .ok d := reorder_of_inOrder (inOrder_of_reorder h)

/-- The order does not matter to the check. -/
theorem checkRule_congr (hhead : d.head = c.head) (hmem : ∀ l, l ∈ d.body ↔ l ∈ c.body) :
    d.checkRule r = .ok () ↔ c.checkRule r = .ok () := by
  simp only [checkRule_ok_iff, hhead, hmem]

theorem checkRule_reorder (h : c.reorder r = .ok d) : d.checkRule r = .ok () ↔ c.checkRule r = .ok () :=
  checkRule_congr (mem_reorder h).1 (mem_reorder h).2

end Clause

/-! ## Copies -/

section Copies

variable {S : Var → Prop} {f : Var → Var} {low high : Nat} {r : Registry} {a a' b b' : Flow} {l l' : Literal W}

/-- The same flow with its variables renamed. -/
structure Flow.Copy (S : Var → Prop) (f : Var → Var) (a b : Flow) : Prop where
  role          : b.role = a.role
  materializing : b.materializing = a.materializing
  produces      : b.produces = a.produces.map f
  consumes      : b.consumes = a.consumes.map f
  within        : ∀ v, v ∈ a.produces ∨ v ∈ a.consumes → S v

theorem varsOf_copy (hf : Relabeling S f low high) {ts us : List Term} (h : List.Forall₂ (Relabeled f) ts us)
    (hS : ∀ v, VarsOf ts v → S v) : Flow.varsOf us = (Flow.varsOf ts).map f := by
  induction h with
  | nil => rfl
  | @cons t u ts us htu _ ih =>
    have ih := ih (fun v hv => hS v ⟨hv.1, List.mem_cons_of_mem _ hv.2⟩)
    unfold Flow.varsOf at ih ⊢
    cases t with
    | const c =>
      rw [show u = .const c from htu]
      exact ih
    | var v =>
      cases hw : v.wildcard with
      | true =>
        simp only [Relabeled, hw, if_true] at htu
        obtain ⟨w, hw', rfl⟩ := htu
        rw [List.filterMap_cons_none (by simp [Term.named?, Term.var?, hw']),
          List.filterMap_cons_none (by simp [Term.named?, Term.var?, hw]), ih]
      | false =>
        simp only [Relabeled, hw, Bool.false_eq_true, if_false] at htu
        subst htu
        have hnamed := hf.named v (hS v ⟨hw, List.mem_cons_self⟩)
        rw [List.filterMap_cons_some (b := f v) (by simp [Term.named?, Term.var?, hnamed]),
          List.filterMap_cons_some (b := v) (by simp [Term.named?, Term.var?, hw]), ih, List.map_cons]

theorem filter_map_injOn {xs ys : List Var} (hxs : ∀ v ∈ xs, S v) (hys : ∀ v ∈ ys, S v)
    (hinj : ∀ u v, S u → S v → f u = f v → u = v) :
    (xs.map f).filter (fun v => !(ys.map f).contains v) = (xs.filter (fun v => !ys.contains v)).map f := by
  rw [List.filter_map]
  refine congrArg (List.map f) (List.filter_congr (fun v hv => ?_))
  have hiff : (ys.map f).contains (f v) = ys.contains v := by
    rw [Bool.eq_iff_iff, List.contains_iff_mem, List.contains_iff_mem]
    constructor
    · intro h
      obtain ⟨u, hu, e⟩ := List.mem_map.1 h
      exact hinj u v (hys u hu) (hxs v hv) e ▸ hu
    · exact List.mem_map_of_mem
  rw [Function.comp_apply, hiff]

/-- **A copy flows as the original does.** -/
theorem Flow.of_copy (hf : Relabeling S f low high) (h : Literal.Copy f l l') (hS : ∀ v, VarsOf l.terms v → S v) :
    Flow.Copy S f (Flow.of r l) (Flow.of r l') := by
  have hvars : l'.vars = l.vars.map f := varsOf_copy hf h.terms hS
  have hwithin : ∀ v ∈ l.vars, S v := fun v hv => hS v (Literal.mem_vars_iff.1 hv)
  have hprimitive : l'.primitive? = l.primitive? := congrArg Predicate.primitive? h.predicate
  have hnegated : l'.isNegated = l.isNegated := congrArg Predicate.isNegated h.predicate
  delta Flow.of
  rw [hprimitive, hnegated]
  cases l.primitive? with
  | none =>
    dsimp only
    split
    · exact ⟨rfl, rfl, rfl, hvars, fun v hv => hwithin v (by simpa using hv)⟩
    · exact ⟨rfl, rfl, hvars, rfl, fun v hv => hwithin v (by simpa using hv)⟩
  | some name =>
    dsimp only
    cases r.kind name with
    | test => exact ⟨rfl, rfl, rfl, hvars, fun v hv => hwithin v (by simpa using hv)⟩
    | function =>
      dsimp only
      have hterms := h.terms
      revert hterms hS
      generalize l.terms = ts
      generalize l'.terms = us
      intro hS hterms
      cases hterms with
      | nil => exact ⟨rfl, rfl, rfl, rfl, fun v hv => by simp [ofFunction] at hv⟩
      | @cons t u ts us htu hrest =>
        have hout : Flow.varsOf [u] = (Flow.varsOf [t]).map f :=
          varsOf_copy hf (.cons htu .nil) (fun v hv => hS v ⟨hv.1, by simpa using .inl (by simpa using hv.2)⟩)
        have hins : Flow.varsOf us = (Flow.varsOf ts).map f :=
          varsOf_copy hf hrest (fun v hv => hS v ⟨hv.1, List.mem_cons_of_mem _ hv.2⟩)
        have hSout : ∀ v ∈ Flow.varsOf [t], S v := fun v hv => by
          obtain ⟨hw, hm⟩ := mem_varsOf.1 hv
          exact hS v ⟨hw, List.mem_singleton.1 hm ▸ List.mem_cons_self⟩
        have hSins : ∀ v ∈ Flow.varsOf ts, S v := fun v hv => by
          obtain ⟨hw, hm⟩ := mem_varsOf.1 hv
          exact hS v ⟨hw, List.mem_cons_of_mem _ hm⟩
        refine ⟨rfl, rfl, hout, ?_, fun v hv => ?_⟩
        · simp only [ofFunction, hout, hins]
          exact filter_map_injOn hSins hSout hf.injective
        · rcases hv with hv | hv
          · exact hSout v hv
          · exact hSins v (List.mem_of_mem_filter hv)

theorem Flow.Copy.feeds (ha : Flow.Copy S f a a') (hb : Flow.Copy S f b b')
    (hinj : ∀ u v, S u → S v → f u = f v → u = v) : a'.feeds b' = a.feeds b := by
  rw [Bool.eq_iff_iff, Flow.feeds, Flow.feeds, ha.produces, hb.consumes, List.any_eq_true, List.any_eq_true]
  constructor
  · rintro ⟨w, hw, hc⟩
    obtain ⟨v, hv, rfl⟩ := List.mem_map.1 hw
    obtain ⟨u, hu, e⟩ := List.mem_map.1 (List.contains_iff_mem.1 hc)
    exact ⟨v, hv, List.contains_iff_mem.2 (hinj u v (hb.within u (.inr hu)) (ha.within v (.inl hv)) e ▸ hu)⟩
  · rintro ⟨v, hv, hc⟩
    exact ⟨f v, List.mem_map_of_mem hv, List.contains_iff_mem.2 (List.mem_map_of_mem (List.contains_iff_mem.1 hc))⟩

theorem Flow.Copy.precedes (ha : Flow.Copy S f a a') (hb : Flow.Copy S f b b')
    (hinj : ∀ u v, S u → S v → f u = f v → u = v) : a'.precedes b' = a.precedes b := by
  simp only [Flow.precedes, ha.role, hb.role, ha.feeds hb hinj]

theorem Flow.Copy.rank (ha : Flow.Copy S f a a') : a'.rank = a.rank := by
  simp only [Flow.rank, ha.role, ha.materializing]

/-- Order does not depend on what the variables are called. -/
theorem Flow.InOrder.copy (hinj : ∀ u v, S u → S v → f u = f v → u = v) {fs gs : List Flow}
    (hc : List.Forall₂ (Flow.Copy S f) fs gs) (h : Flow.InOrder fs) : Flow.InOrder gs := by
  induction hc with
  | nil => trivial
  | @cons a a' fs gs ha hrest ih =>
    obtain ⟨hfirst, hleast, hlater⟩ := h
    refine ⟨fun g hg => ?_, fun before g after hsplit hfree => ?_, ih hlater⟩
    · obtain ⟨b, hb, hbg⟩ := forall₂_exists_left hrest hg
      rw [hbg.precedes ha hinj]
      exact hfirst b hb
    · rw [hsplit] at hrest
      obtain ⟨before', b, after', rfl, hbefore, hbg, hafter⟩ := forall₂_split hrest
      rw [ha.rank, hbg.rank]
      refine hleast before' b after' rfl (fun k hk => ?_)
      have hothers : List.Forall₂ (Flow.Copy S f) (a :: (before' ++ after')) (a' :: (before ++ after)) :=
        .cons ha (List.rel_append hbefore hafter)
      obtain ⟨k', hk', hkk⟩ := forall₂_exists_right hothers hk
      rw [← hkk.precedes hbg hinj]
      exact hfree k' hk'

namespace Clause

variable {c c' : Clause W}

theorem Copy.flows (h : Copy f c c') (hf : Relabeling c.VarsIn f low high) :
    List.Forall₂ (Flow.Copy c.VarsIn f) (c.body.map (Flow.of r)) (c'.body.map (Flow.of r)) := by
  have hS : ∀ l ∈ c.body, ∀ v, VarsOf l.terms v → c.VarsIn v := fun l hl v hv => .inr ⟨l, hl, hv⟩
  have hbody := h.body
  revert hS hbody
  generalize c'.body = ms
  generalize c.body = ls
  intro hS hbody
  induction hbody with
  | nil => exact .nil
  | @cons l m ls ms hlm _ ih =>
    exact .cons (Flow.of_copy hf hlm (hS l List.mem_cons_self)) (ih (fun k hk => hS k (List.mem_cons_of_mem _ hk)))

variable [Weight W]

/-- **A copy passes the check that the original passes.** -/
theorem checkRule_copy (h : Copy f c c') (hf : Relabeling c.VarsIn f low high) (hc : c.checkRule r = .ok ()) :
    c'.checkRule r = .ok () := by
  obtain ⟨hsafe, hfed⟩ := checkRule_ok_iff.1 hc
  refine checkRule_ok_iff.2 ⟨fun w hw => ?_, fun l' hl' w hw => ?_⟩
  · obtain ⟨v, hv, rfl⟩ := (h.head.varsOf_iff hf (fun v hv => .inl hv)).1 (Literal.mem_vars_iff.1 hw)
    obtain ⟨l, hl, hvl⟩ := hsafe v (Literal.mem_vars_iff.2 hv)
    obtain ⟨l', hl', hcp⟩ := forall₂_exists_right h.body hl
    refine ⟨l', hl', Literal.mem_vars_iff.2 ((hcp.varsOf_iff hf (fun v hv => .inr ⟨l, hl, hv⟩)).2 ⟨v, ?_, rfl⟩)⟩
    exact Literal.mem_vars_iff.1 hvl
  · obtain ⟨l, hl, hcp⟩ := forall₂_exists_left h.body hl'
    rw [(Flow.of_copy hf hcp (fun v hv => .inr ⟨l, hl, hv⟩)).consumes] at hw
    obtain ⟨v, hv, rfl⟩ := List.mem_map.1 hw
    obtain ⟨m, hm, hvm⟩ := hfed l hl v hv
    obtain ⟨m', hm', hcp'⟩ := forall₂_exists_right h.body hm
    refine ⟨m', hm', ?_⟩
    rw [(Flow.of_copy hf hcp' (fun v hv => .inr ⟨m, hm, hv⟩)).produces]
    exact List.mem_map_of_mem hvm

/-- **A copy of a rule in order is in order.** -/
theorem reorder_copy (h : Copy f c c') (hf : Relabeling c.VarsIn f low high) (hc : c.reorder r = .ok c) :
    c'.reorder r = .ok c' :=
  reorder_of_inOrder ((inOrder_of_reorder hc).copy hf.injective (h.flows hf))

end Clause

end Copies

end Credence
