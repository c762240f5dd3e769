import Credence.Body.Order
import Credence.Proofs.Vocabulary
/-!
# Bodies in running order

The order places every literal of the body once and none after a literal that had to wait for it (`schedule_spec`).  A
literal takes some of its arguments as inputs and binds some as outputs (`Literal.inputs`, `Literal.outputs`), and what
binds a variable has to run before what needs it (`Flow.precedes_of_produces`).  So a rule that passed the check and was
put in order has every input bound in front of the literal that needs it and not behind it (`Clause.inputs_bound`).

That leaves out one kind of input.  A variable that a function both takes and gives counts as given only, so nothing is
asked of it.  Such a function may stand in front of the literal that could have bound the variable, or be all that is
said to bind it; when it runs its input is not bound, and it fails.
-/
namespace Credence

variable {W : Type}

namespace Step

theorem mem_of_least : ∀ {ss : List (Step W)} {s : Step W}, least ss = some s → s ∈ ss
  | [], _, h => nomatch h
  | t :: ts, s, h => by
    rw [least] at h
    split at h
    · injection h with h
      exact h ▸ List.mem_cons_self
    · rename_i u hu
      injection h with h
      split at h
      · exact h ▸ List.mem_cons_of_mem _ (mem_of_least hu)
      · exact h ▸ List.mem_cons_self

theorem number_spec (r : Registry) : ∀ (i : Nat) (ls : List (Literal W)),
    (number r i ls).map literal = ls ∧ (∀ s ∈ number r i ls, i ≤ s.position ∧ s.flow = .of r s.literal) ∧
      ((number r i ls).map position).Nodup
  | _, [] => ⟨rfl, (fun s hs => nomatch hs), List.nodup_nil⟩
  | i, l :: ls => by
    obtain ⟨h1, h2, h3⟩ := number_spec r (i + 1) ls
    refine ⟨by rw [number, List.map_cons, h1], fun s hs => ?_, List.nodup_cons.2 ⟨fun hi => ?_, h3⟩⟩
    · rcases List.mem_cons.1 hs with rfl | hs
      · exact ⟨Nat.le_refl i, rfl⟩
      · have := h2 s hs
        exact ⟨by omega, this.2⟩
    · obtain ⟨t, ht, e⟩ := List.mem_map.1 hi
      have := (h2 t ht).1
      simp only at e
      omega

/-- **Every step is placed once, and none behind one that had to wait for it.** -/
theorem schedule_spec : ∀ (count : Nat) (pending : List (Step W)) {out : List (Step W)},
    schedule count pending = some out → (pending.map position).Nodup →
    out.Perm pending ∧ out.Pairwise (fun s t => t.flow.precedes s.flow = false)
  | count, [], out, h, _ => by
    have : out = [] := by
      cases count <;> (injection h with h; exact h.symm)
    subst this
    exact ⟨.nil, .nil⟩
  | 0, _ :: _, _, h, _ => nomatch h
  | count + 1, s :: ss, out, h, hp => by
    rw [schedule] at h
    obtain ⟨t, ht, h⟩ := Option.bind_eq_some_iff.1 h
    obtain ⟨rest, hrest, rfl⟩ := Option.map_eq_some_iff.1 h
    have hmem := List.mem_filter.1 (mem_of_least ht)
    obtain ⟨hperm, hpairs⟩ := schedule_spec count _ hrest (hp.sublist (List.filter_sublist.map _))
    refine ⟨(hperm.cons t).trans ((List.perm_ext_iff_of_nodup ?_ hp.of_map).2 (fun u => ?_)), .cons (fun u hu => ?_) hpairs⟩
    · exact List.nodup_cons.2 ⟨fun h => by simp at h, hp.of_map.sublist List.filter_sublist⟩
    · rw [List.mem_cons, List.mem_filter]
      constructor
      · rintro (rfl | ⟨hu, -⟩)
        · exact hmem.1
        · exact hu
      · intro hu
        by_cases e : u.position = t.position
        · exact .inl (List.inj_on_of_nodup_map hp hu hmem.1 e)
        · exact .inr ⟨hu, by simpa using e⟩
    · obtain ⟨hu, hne⟩ := List.mem_filter.1 (hperm.mem_iff.1 hu)
      have := List.all_eq_true.1 hmem.2 u hu
      simp only [bne_iff_ne, ne_eq] at hne
      simpa [hne] using this

end Step

theorem Literal.mem_vars_iff {l : Literal W} {v : Var} : v ∈ l.vars ↔ VarsOf l.terms v := by
  simp only [vars, List.mem_filterMap, Term.named?, Option.filter_eq_some_iff, VarsOf]
  constructor
  · rintro ⟨t, ht, hv, hw⟩
    cases t with
    | const c => cases hv
    | var u =>
      injection hv with hv
      subst hv
      exact ⟨by simpa using hw, ht⟩
  · rintro ⟨hw, ht⟩
    exact ⟨.var v, ht, rfl, by simp [hw]⟩

theorem mem_varsOf {ts : List Term} {v : Var} : v ∈ Flow.varsOf ts ↔ VarsOf ts v :=
  Literal.mem_vars_iff (l := (⟨(), ⟨"", 0⟩, ts⟩ : Literal Unit))

/-! ## Inputs and outputs -/

namespace Literal

/-- The arguments that a literal needs bound: all of a negation and of a test, and all but the first of a function. -/
def inputs (r : Registry) (l : Literal W) : List Term :=
  match l.primitive? with
  | some name =>
    match r.kind name with
    | .test     => l.terms
    | .function => l.terms.drop 1
  | none => if l.isNegated then l.terms else []

/-- The arguments that a literal binds: all of an ordinary literal, and the first of a function. -/
def outputs (r : Registry) (l : Literal W) : List Term :=
  match l.primitive? with
  | some name =>
    match r.kind name with
    | .test     => []
    | .function => l.terms.take 1
  | none => if l.isNegated then [] else l.terms

/-- Every argument is an output or an input. -/
theorem mem_terms_iff (r : Registry) {l : Literal W} {t : Term} : t ∈ l.terms ↔ t ∈ l.outputs r ∨ t ∈ l.inputs r := by
  unfold outputs inputs
  cases l.primitive? with
  | none =>
    dsimp only
    cases l.isNegated with
    | true => exact (or_iff_right List.not_mem_nil).symm
    | false => exact (or_iff_left List.not_mem_nil).symm
  | some name =>
    dsimp only
    cases r.kind name with
    | test => exact (or_iff_right List.not_mem_nil).symm
    | function =>
      dsimp only
      rw [← List.mem_append, List.take_append_drop]

end Literal

namespace Flow

variable {r : Registry} {l m : Literal W} {v : Var}

/-- An ordinary literal binds its variables, and a negation needs its own. -/
theorem of_ordinary (r : Registry) {l : Literal W} (h : l.isPrimitive = false) :
    Flow.of r l = if l.isNegated then ⟨.negated, false, [], l.vars⟩ else ⟨.ordinary, false, l.vars, []⟩ := by
  have hnone : l.primitive? = none := Text.after?_eq_none h
  -- opened by `delta`: deriving an equation for `of` would evaluate the text of the predicate
  delta of
  rw [hnone]

theorem mem_produces_ofFunction {materializing : Bool} {ts : List Term} :
    v ∈ (ofFunction materializing ts).produces ↔ VarsOf (ts.take 1) v := by
  cases ts <;> simp [ofFunction, mem_varsOf, VarsOf]

theorem mem_consumes_ofFunction {materializing : Bool} {ts : List Term} :
    v ∈ (ofFunction materializing ts).consumes ↔ VarsOf (ts.drop 1) v ∧ ¬ VarsOf (ts.take 1) v := by
  cases ts with
  | nil => simp [ofFunction, VarsOf]
  | cons out ins => simp [ofFunction, List.mem_filter, mem_varsOf]

theorem mem_produces_iff : v ∈ (Flow.of r l).produces ↔ VarsOf (l.outputs r) v := by
  delta Flow.of Literal.outputs
  cases l.primitive? with
  | none =>
    dsimp only
    split
    · simp [VarsOf]
    · exact Literal.mem_vars_iff
  | some name =>
    dsimp only
    cases r.kind name with
    | test => simp [VarsOf]
    | function => exact mem_produces_ofFunction

/-- What a function gives does not count as needed. -/
theorem mem_consumes_iff : v ∈ (Flow.of r l).consumes ↔ VarsOf (l.inputs r) v ∧ ¬ VarsOf (l.outputs r) v := by
  delta Flow.of Literal.inputs Literal.outputs
  cases l.primitive? with
  | none =>
    dsimp only
    split
    · simp [Literal.mem_vars_iff, VarsOf]
    · simp [VarsOf]
  | some name =>
    dsimp only
    cases r.kind name with
    | test => simp [Literal.mem_vars_iff, VarsOf]
    | function => exact mem_consumes_ofFunction

theorem varsOf_of_mem_produces (h : v ∈ (Flow.of r l).produces) : VarsOf l.terms v := by
  have hv := mem_produces_iff.1 h
  exact ⟨hv.1, (Literal.mem_terms_iff r).2 (.inl hv.2)⟩

/-- A literal binds each of its variables or needs it. -/
theorem mem_of_varsOf (h : VarsOf l.terms v) : v ∈ (Flow.of r l).produces ∨ v ∈ (Flow.of r l).consumes := by
  rw [mem_produces_iff, mem_consumes_iff]
  by_cases hout : VarsOf (l.outputs r) v
  · exact .inl hout
  · have hin := ((Literal.mem_terms_iff r).1 h.2).resolve_left (fun hm => hout ⟨h.1, hm⟩)
    exact .inr ⟨⟨h.1, hin⟩, hout⟩

theorem varsOf_of_mem_consumes (h : v ∈ (Flow.of r l).consumes) : VarsOf l.terms v := by
  have hv := (mem_consumes_iff.1 h).1
  exact ⟨hv.1, (Literal.mem_terms_iff r).2 (.inr hv.2)⟩

/-- A negation binds nothing, and an ordinary literal needs nothing. -/
theorem role_of (r : Registry) (l : Literal W) :
    ((Flow.of r l).role = .negated → (Flow.of r l).produces = []) ∧
    ((Flow.of r l).role = .ordinary → (Flow.of r l).consumes = []) := by
  delta Flow.of
  cases l.primitive? with
  | none =>
    dsimp only
    split
    · exact ⟨fun _ => rfl, fun h => nomatch h⟩
    · exact ⟨fun h => (nomatch h), fun _ => rfl⟩
  | some name =>
    dsimp only
    cases r.kind name with
    | test => exact ⟨fun _ => rfl, fun h => nomatch h⟩
    | function => cases l.terms <;> exact ⟨fun h => (nomatch h), fun h => nomatch h⟩

/-- **What binds a variable has to run before what needs it.** -/
theorem precedes_of_produces (hv : v ∈ (Flow.of r m).produces) (hc : v ∈ (Flow.of r l).consumes) :
    (Flow.of r m).precedes (Flow.of r l) = true := by
  have hfeeds : (Flow.of r m).feeds (Flow.of r l) = true := List.any_eq_true.2 ⟨v, hv, List.contains_iff_mem.2 hc⟩
  have hm : (Flow.of r m).role ≠ .negated := fun e => by
    rw [(role_of r m).1 e] at hv
    cases hv
  have hl : (Flow.of r l).role ≠ .ordinary := fun e => by
    rw [(role_of r l).2 e] at hc
    cases hc
  unfold precedes
  revert hm hl
  cases (Flow.of r m).role <;> cases (Flow.of r l).role <;> simp [hfeeds]

end Flow

namespace Clause

/-- **A rule that is put in order has the body that a schedule of its literals gives.** -/
theorem exists_schedule [Weight W] {r : Registry} {c d : Clause W} (h : c.reorder r = .ok d) :
    ∃ steps, Step.schedule c.body.length (Step.number r 0 c.body) = some steps ∧
      d = { c with body := steps.map Step.literal } ∧ d.body.map (Flow.of r) = steps.map Step.flow := by
  unfold reorder at h
  split at h
  · rename_i steps hs
    injection h with h
    subst h
    obtain ⟨-, hflow, hnodup⟩ := Step.number_spec r 0 c.body
    refine ⟨steps, hs, rfl, ?_⟩
    rw [List.map_map]
    exact List.map_congr_left (fun s hsteps => (hflow s ((Step.schedule_spec _ _ hs hnodup).1.mem_iff.1 hsteps)).2.symm)
  · cases h

theorem perm_reorder [Weight W] {r : Registry} {c d : Clause W} (h : c.reorder r = .ok d) : d.body.Perm c.body := by
  obtain ⟨steps, hs, rfl, -⟩ := exists_schedule h
  obtain ⟨hliterals, -, hnodup⟩ := Step.number_spec r 0 c.body
  show (steps.map Step.literal).Perm c.body
  conv_rhs => rw [← hliterals]
  exact (Step.schedule_spec _ _ hs hnodup).1.map _

theorem mem_reorder [Weight W] {r : Registry} {c d : Clause W} (h : c.reorder r = .ok d) :
    d.head = c.head ∧ ∀ l, l ∈ d.body ↔ l ∈ c.body := by
  obtain ⟨steps, -, rfl, -⟩ := exists_schedule h
  exact ⟨rfl, fun l => (perm_reorder h).mem_iff⟩

/-- What stands behind a literal did not have to run before it. -/
theorem pairwise_of_reorder [Weight W] {r : Registry} {c d : Clause W} (h : c.reorder r = .ok d) :
    d.body.Pairwise (fun l m => (Flow.of r m).precedes (Flow.of r l) = false) := by
  obtain ⟨steps, hs, -, hflows⟩ := exists_schedule h
  have hpairs := (Step.schedule_spec _ _ hs (Step.number_spec r 0 c.body).2.2).2
  have hflow : (steps.map Step.flow).Pairwise (fun f g => g.precedes f = false) := List.pairwise_map.2 hpairs
  rw [← hflows] at hflow
  exact List.pairwise_map.1 hflow

/-! ## Rules that were checked and put in order -/

variable [Weight W] {r : Registry} {c d : Clause W}

omit [Weight W] in
/-- Every variable of the head occurs in the body, and what a literal needs is bound by one. -/
theorem feeds_iff (c : Clause W) (r : Registry) : (c.isSafe && c.feedsItself r) = true ↔
    (∀ v ∈ c.head.vars, ∃ l ∈ c.body, v ∈ l.vars) ∧
    ∀ l ∈ c.body, ∀ v ∈ (Flow.of r l).consumes, ∃ m ∈ c.body, v ∈ (Flow.of r m).produces := by
  simp [isSafe, feedsItself, bodyVars]

theorem checkRule_ok_iff : c.checkRule r = .ok () ↔
    (∀ v ∈ c.head.vars, ∃ l ∈ c.body, v ∈ l.vars) ∧
    ∀ l ∈ c.body, ∀ v ∈ (Flow.of r l).consumes, ∃ m ∈ c.body, v ∈ (Flow.of r m).produces := by
  refine Iff.trans ?_ (feeds_iff c r)
  unfold checkRule
  cases c.isSafe && c.feedsItself r with
  | true => simp
  | false => simp

/-- **What a literal needs is bound in time**: by a literal in front of it, and by none behind it. -/
theorem produces_of_reorder (hc : c.checkRule r = .ok ()) (h : c.reorder r = .ok d) {pre post : List (Literal W)}
    {l : Literal W} (hbody : d.body = pre ++ l :: post) {v : Var} (hv : v ∈ (Flow.of r l).consumes) :
    (∃ m ∈ pre, v ∈ (Flow.of r m).produces) ∧ ∀ m ∈ post, v ∉ (Flow.of r m).produces := by
  have hmem := (mem_reorder h).2
  have hbehind : ∀ m ∈ post, v ∉ (Flow.of r m).produces := by
    intro m hm hmv
    have hpairs := pairwise_of_reorder h
    rw [hbody] at hpairs
    have hfree := List.rel_of_pairwise_cons (List.pairwise_append.1 hpairs).2.1 hm
    rw [Flow.precedes_of_produces hmv hv] at hfree
    cases hfree
  refine ⟨?_, hbehind⟩
  -- the check knows a literal that binds the variable, and it can only stand in front
  obtain ⟨m, hm, hmv⟩ := (checkRule_ok_iff.1 hc).2 l ((hmem l).1 (by simp [hbody])) v hv
  have hmd := (hmem m).2 hm
  rw [hbody, List.mem_append, List.mem_cons] at hmd
  rcases hmd with hmd | rfl | hmd
  · exact ⟨m, hmd, hmv⟩
  · exact absurd (Flow.mem_produces_iff.1 hmv) (Flow.mem_consumes_iff.1 hv).2
  · exact absurd hmv (hbehind m hmd)

/-- **A rule that was checked and put in order has every input bound in time**: a variable that a literal needs is bound
by a literal in front of it, and by none behind it, unless the literal is a function that gives the variable itself. -/
theorem inputs_bound (hc : c.checkRule r = .ok ()) (h : c.reorder r = .ok d) {pre post : List (Literal W)}
    {l : Literal W} (hbody : d.body = pre ++ l :: post) {v : Var} (hv : VarsOf (l.inputs r) v) :
    VarsOf (l.outputs r) v ∨
      (∃ m ∈ pre, VarsOf (m.outputs r) v) ∧ ∀ m ∈ post, ¬ VarsOf (m.outputs r) v := by
  refine or_iff_not_imp_left.2 (fun hown => ?_)
  have hbound := produces_of_reorder hc h hbody (Flow.mem_consumes_iff.2 ⟨hv, hown⟩)
  simpa only [Flow.mem_produces_iff] using hbound

end Clause

/-! ### Strangers -/

namespace Stranger

def notFriend : Literal ℚ := ⟨1, ⟨"~friend", 2⟩, [.var ⟨0, false⟩, .var ⟨1, false⟩]⟩

def isBob : Literal ℚ := ⟨1, ⟨"fn_identity", 2⟩, [.var ⟨1, false⟩, .const ⟨"bob"⟩]⟩

def person : Literal ℚ := ⟨1, ⟨"person", 1⟩, [.var ⟨0, false⟩]⟩

/-- Whoever is a person and no friend of `bob`'s is a stranger, with what has to run first written last. -/
def written : Clause ℚ := ⟨⟨1, ⟨"stranger", 1⟩, [.var ⟨0, false⟩]⟩, [notFriend, isBob, person]⟩

def ordered : Clause ℚ := { written with body := [person, isBob, notFriend] }

end Stranger

namespace Clause

/-- The name that the negation needs is bound in front of it. -/
theorem inputs_bound_stranger :
    Stranger.written.checkRule .empty = .ok () ∧ Stranger.written.reorder .empty = .ok Stranger.ordered ∧
      Stranger.ordered.body = [Stranger.person, Stranger.isBob] ++ [Stranger.notFriend] ∧
      VarsOf (Stranger.notFriend.inputs .empty) ⟨1, false⟩ ∧
      (VarsOf (Stranger.notFriend.outputs .empty) ⟨1, false⟩ ∨
        (∃ m ∈ [Stranger.person, Stranger.isBob], VarsOf (m.outputs .empty) ⟨1, false⟩) ∧
        ∀ m ∈ ([] : List (Literal ℚ)), ¬ VarsOf (m.outputs .empty) ⟨1, false⟩) := by
  have hcheck : Stranger.written.checkRule .empty = .ok () := rfl
  have horder : Stranger.written.reorder .empty = .ok Stranger.ordered := rfl
  have hbody : Stranger.ordered.body = [Stranger.person, Stranger.isBob] ++ [Stranger.notFriend] := rfl
  have hneeds : VarsOf (Stranger.notFriend.inputs .empty) ⟨1, false⟩ := ⟨rfl, by decide⟩
  exact ⟨hcheck, horder, hbody, hneeds, inputs_bound hcheck horder hbody hneeds⟩

-- the first literal takes the variable that it gives, so it does not wait for the second, which could bind it
example :
    let itself : Literal ℚ := ⟨1, ⟨"fn_identity", 2⟩, [.var ⟨1, false⟩, .var ⟨1, false⟩]⟩
    let c : Clause ℚ := { Stranger.written with body := [itself, Stranger.isBob, Stranger.person] }
    c.reorder .empty = .ok { c with body := [Stranger.person, itself, Stranger.isBob] } := rfl

variable [Weight W] {r : Registry} {c d : Clause W}

/-- **A rule without primitives that was checked and put in order is range restricted.** -/
theorem rangeRestricted_of_reorder (hc : c.checkRule r = .ok ()) (h : c.reorder r = .ok d)
    (hp : ∀ l ∈ c.body, l.isPrimitive = false) : d.RangeRestricted := by
  obtain ⟨hhead, hmem⟩ := mem_reorder h
  have hneeds : ∀ n ∈ c.body, n.isNegated = true → ∀ v, VarsOf n.terms v → v ∈ (Flow.of r n).consumes := by
    intro n hn hnn v hv
    rw [Flow.of_ordinary r (hp n hn), hnn]
    exact Literal.mem_vars_iff.2 hv
  have hbinds : ∀ m ∈ c.body, ∀ v ∈ (Flow.of r m).produces, m.isNegated = false ∧ VarsOf m.terms v := by
    intro m hm v hv
    rw [Flow.of_ordinary r (hp m hm)] at hv
    split at hv
    · cases hv
    · rename_i hmn
      exact ⟨by simpa using hmn, Literal.mem_vars_iff.1 hv⟩
  constructor
  · intro v hv
    rw [hhead] at hv
    obtain ⟨l, hl, hlv⟩ := (checkRule_ok_iff.1 hc).1 v (Literal.mem_vars_iff.2 hv)
    rw [Literal.mem_vars_iff] at hlv
    cases hln : l.isNegated with
    | false => exact ⟨l, (hmem l).2 hl, hln, hlv⟩
    | true =>
      obtain ⟨m, hm, hmv⟩ := (checkRule_ok_iff.1 hc).2 l hl v (hneeds l hl hln v hlv)
      exact ⟨m, (hmem m).2 hm, hbinds m hm v hmv⟩
  · intro pre n post hbody hn v hv
    have hnb : n ∈ c.body := (hmem n).1 (by simp [hbody])
    obtain ⟨m, hm, hmv⟩ := (produces_of_reorder hc h hbody (hneeds n hnb hn v hv)).1
    exact ⟨m, hm, hbinds m ((hmem m).1 (by simp [hbody, hm])) v hmv⟩

end Clause
end Credence
