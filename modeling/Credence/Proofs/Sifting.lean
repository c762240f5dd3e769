import Mathlib.Data.List.InsertIdx
import Credence.Proofs.Protection
/-!
# Sifting does not make a diagram larger

How many nodes the referenced functions need depends on the functions and on the order of the variables, and on nothing
else: a diagram that was brought into the order it was in has all its nodes again (`Reorders.rootedSize_eq`).  While a
variable is carried through the order the others follow one another as they did, so the order is known from the level the
variable is at (`Carried.varAt_eq`).  The best level of a walk was the best order, and bringing the variable back there
gives the size found there (`Sifted.moveVar`), wherever the walk was given up.

Every exchange on the way is of a level that has one below it, and the last move is to a level that there is.  So sifting
in which any of them could fail does not fail (`trySift_eq`).
-/
namespace Credence
namespace Diagram

variable {d d' e : Diagram} {f : Handle} {v level i : Nat} {best : Best} {xs ys zs : List Nat}

/-! ## Sizes -/

/-- In a part of a diagram with the same live references, they need as many nodes. -/
theorem Within.rootedSize_eq (h : d'.Within d) (hd' : d'.Valid) (hd : d.Valid) (hroots : d'.roots = d.roots)
    (hr : d'.Rooted) : d'.rootedSize = d.rootedSize := by
  refine (Std.HashSet.Equiv.of_forall_mem_iff (fun f => ?_)).size_eq
  rw [hd'.mem_reachable_iff, hd.mem_reachable_iff, hroots]
  constructor
  · rintro ⟨⟨n, hn⟩, root, hroot, hreach⟩
    have hup : ∀ {f g}, d'.Reaches f g → d.Reaches f g := fun hreach => by
      induction hreach with
      | refl => exact .refl _
      | low hn _ ih => exact .low (h _ _ hn) ih
      | high hn _ ih => exact .high (h _ _ hn) ih
    exact ⟨⟨n, h f n hn⟩, root, hroot, hup hreach⟩
  · rintro ⟨⟨n, hn⟩, root, hroot, hreach⟩
    have hlive := hr root (hroots ▸ hroot)
    have hreach' := h.reaches hd'.sound hd.sound hreach hlive
    have hnode : ∃ m, d'.node? f = some m := by
      rcases hd'.sound.live_reaches hreach' hlive with rfl | rfl | hnode
      · exact nomatch hd.sound.bot.symm.trans hn
      · exact nomatch hd.sound.top.symm.trans hn
      · exact hnode
    exact ⟨hnode, root, hroot, hreach'⟩

/-- A collection takes nothing that the references need. -/
theorem collect_rootedSize (hd : d.Ready) (hr : d.Rooted) : d.collect.2.rootedSize = d.rootedSize := by
  obtain ⟨hd', hk, hlive⟩ := collect_spec hd
  have hroots := collect_roots hd
  exact hk.within.rootedSize_eq hd'.valid hd.valid hroots (fun f hf => hlive f (hroots ▸ hf) (hr f (hroots ▸ hf)))

/-! ## One order, one size -/

/-- Two diagrams in order with the variables in one order have every variable at one level. -/
theorem Ordered.levelOf_eq (hd : d.Ordered) (hd' : d'.Ordered) (hcount : d'.varCount = d.varCount)
    (ho : d'.varAt = d.varAt) (hv : v < d.varCount) : d'.levelOf.getD v 0 = d.levelOf.getD v 0 := by
  obtain ⟨hlt, hat⟩ := hd.level v hv
  have := (hd'.var (d.levelOf.getD v 0) (by rw [hcount]; exact hlt)).2
  rwa [ho, hat] at this

/-- **Brought back into its order a diagram has all its nodes again.**  A function tests the variable that matters to it at
the highest level, and its branches are the handles of what that variable leaves. -/
theorem Reorders.within (h : d.Reorders d') (hd : d.Ready) (ho : d'.varAt = d.varAt) : d.Within d' := by
  have hv := hd.valid
  have hv' := h.ready.valid
  have hlevel := fun v => hv.ordered.levelOf_eq hv'.ordered h.varCount ho (v := v)
  -- a function has the level it had: the same variables matter to it
  have hle : ∀ f, d.Live f → d.level f ≤ d'.level f := fun f hf => by
    refine hv'.le_level (by rw [h.varCount]; exact hv.level_le f) (fun v hlt a x => ?_)
    rw [h.same f hf, h.same f hf]
    refine hv.graded.eval_update (fun ht => ?_) x
    obtain ⟨hlt', hle⟩ := hv.le_of_tests ht
    rw [hlevel v hlt'] at hlt
    omega
  have hge : ∀ f, d.Live f → d'.level f ≤ d.level f := fun f hf => by
    refine hv.le_level (by rw [← h.varCount]; exact hv'.level_le f) (fun v hlt a x => ?_)
    rw [← h.same f hf, ← h.same f hf]
    refine hv'.graded.eval_update (fun ht => ?_) x
    obtain ⟨hlt', hle⟩ := hv'.le_of_tests ht
    rw [hlevel v (h.varCount ▸ hlt')] at hle
    omega
  intro f n hn
  have hf := live_node hn
  have hlev : d'.level f = d.level f := Nat.le_antisymm (hge f hf) (hle f hf)
  obtain ⟨hlow, hhigh⟩ := hv.sound.live f n hn
  cases hm : d'.node? f with
  | none =>
    have := hv.graded.bound f n hn
    rw [level_of_none hm, h.varCount] at hlev
    omega
  | some m =>
    have hmvar : m.var < d.varCount := h.varCount ▸ hv'.sound.var f m hm
    have hvar : m.var = n.var := by
      refine hv.ordered.level_inj hmvar (hv.sound.var f n hn) ?_
      rw [← level_of_node hn, ← hlev, level_of_node hm, hlevel m.var hmvar]
    obtain ⟨hmlow, hmhigh⟩ := hv'.sound.live f m hm
    have hl : m.low = n.low := hv'.canonical hmlow (h.live _ hlow) (fun a => by
      rw [h.same _ hlow, hv'.graded.eval_low hm (hv'.not_tests_low hm), hv.graded.eval_low hn (hv.not_tests_low hn),
        h.same f hf, hvar])
    have hh : m.high = n.high := hv'.canonical hmhigh (h.live _ hhigh) (fun a => by
      rw [h.same _ hhigh, hv'.graded.eval_high hm (hv'.not_tests_high hm),
        hv.graded.eval_high hn (hv.not_tests_high hn), h.same f hf, hvar])
    cases n
    cases m
    simp only at hvar hl hh
    rw [hvar, hl, hh]

theorem Reorders.roots_eq (h : d.Reorders d') : d'.roots = d.roots := congrArg (List.map Prod.fst) h.refs

theorem Reorders.rooted (h : d.Reorders d') (hr : d.Rooted) : d'.Rooted := fun f hf =>
  h.live f (hr f (h.roots_eq ▸ hf))

/-- **The size of a diagram depends on its functions and its order.** -/
theorem Reorders.rootedSize_eq (h : d.Reorders d') (hd : d.Ready) (hr : d.Rooted) (ho : d'.varAt = d.varAt) :
    d'.rootedSize = d.rootedSize :=
  ((h.within hd ho).rootedSize_eq hd.valid h.ready.valid h.roots_eq.symm hr).symm

/-! ## Carrying a variable -/

/-- Where a variable is and how the others follow one another is all there is to an order. -/
theorem MovedTo.unique (h : MovedTo v i xs ys) (h' : MovedTo v i xs zs) (hys : ys.Nodup) (hzs : zs.Nodup) : ys = zs := by
  have hput : ∀ {ys : List Nat}, ys.Nodup → MovedTo v i xs ys → ys = (xs.erase v).insertIdx i v := fun {ys} hn hm => by
    obtain ⟨hi, rfl⟩ := List.getElem?_eq_some_iff.1 hm.1
    rw [← hm.2, hn.erase_getElem i hi, List.insertIdx_eraseIdx_getElem hi]
  rw [hput hys h, hput hzs h']

/-- The diagram `e` is `d` with the variable `v` carried to a level. -/
structure Carried (d : Diagram) (v level : Nat) (e : Diagram) : Prop where
  reorders : d.Reorders e
  moved    : MovedTo v level d.varAt.toList e.varAt.toList

theorem Carried.level_lt (h : d.Carried v level e) : level < e.varAt.size := by
  have := (List.getElem?_eq_some_iff.1 h.moved.1).1
  rwa [Array.length_toList] at this

theorem Carried.varAt_eq (h : d.Carried v level d') (h' : d.Carried v level e) : d'.varAt = e.varAt :=
  Array.toList_inj.1 (h.moved.unique h'.moved h.reorders.ready.valid.ordered.varAt_nodup
    h'.reorders.ready.valid.ordered.varAt_nodup)

theorem Carried.down (h : d.Carried v level e) (hlt : level + 1 < e.varAt.size) :
    d.Carried v (level + 1) (e.exchange level) :=
  have hd := h.reorders.ready
  ⟨h.reorders.trans (exchange_spec hd level),
    h.moved.trans ((exchange_order hd hlt).down hd.valid.ordered.varAt_nodup h.moved.1)⟩

theorem Carried.up (h : d.Carried v (level + 1) e) : d.Carried v level (e.exchange level) :=
  have hd := h.reorders.ready
  ⟨h.reorders.trans (exchange_spec hd level),
    h.moved.trans ((exchange_order hd h.level_lt).up hd.valid.ordered.varAt_nodup h.moved.1)⟩

theorem swap_eq (h : level + 1 < d.varAt.size) : d.swap level = .ok (d.exchange level) := if_pos h

/-! ## The best level so far -/

/-- **Half-way through sifting** `v` from `d` on: the diagram is `e` now, the best size was found where the variable was at
the best level, and that was no larger than the size in the beginning. -/
structure Sifted (d : Diagram) (v level : Nat) (best : Best) (e : Diagram) : Prop where
  here  : d.Carried v level e
  found : ∃ b, d.Carried v best.level b ∧ b.Reorders e ∧ b.rootedSize = best.size
  small : best.size ≤ d.rootedSize

theorem Sifted.start (hd : d.Ready) (hv : d.levelOf[v]? = some level) : d.Sifted v level ⟨d.rootedSize, level⟩ d :=
  have hc : d.Carried v level d := ⟨hd.reorders, movedTo_refl (hd.valid.ordered.varAt_levelOf hv)⟩
  ⟨hc, ⟨d, hc, hd.reorders, rfl⟩, Nat.le_refl _⟩

/-- One exchange on. -/
theorem Sifted.exchange (h : d.Sifted v i best e) {at' : Nat} (hc : d.Carried v level (e.exchange at')) :
    d.Sifted v level best (e.exchange at') := by
  obtain ⟨b, hb, hr, hsize⟩ := h.found
  exact ⟨hc, ⟨b, hb, hr.trans (exchange_spec h.here.reorders.ready at'), hsize⟩, h.small⟩

/-- A smaller size is the best one. -/
theorem Sifted.improve (h : d.Sifted v level best e) (hlt : e.rootedSize < best.size) :
    d.Sifted v level ⟨e.rootedSize, level⟩ e :=
  ⟨h.here, ⟨e, h.here, h.here.reorders.ready.reorders, rfl⟩, Nat.le_trans (Nat.le_of_lt hlt) h.small⟩

/-- **Back at the best level the best size is there again.** -/
theorem Sifted.moveVar (h : d.Sifted v level best e) (hr : d.Rooted) (hv : v < d.varCount) :
    (e.moveVar v best.level).1 = .ok () ∧ d.Reorders (e.moveVar v best.level).2 ∧
    (e.moveVar v best.level).2.rootedSize ≤ d.rootedSize := by
  obtain ⟨b, hb, hbe, hsize⟩ := h.found
  have he := h.here.reorders
  have hmove := moveVar_spec he.ready v best.level
  obtain ⟨hok, hmoved⟩ := moveVar_order he.ready v best.level
  have hlt : best.level < e.varCount := by
    rw [hbe.varCount, varCount, ← hb.reorders.ready.valid.ordered.size]
    exact hb.level_lt
  have hdone := hok.2 ⟨by rw [he.varCount]; exact hv, hlt⟩
  have hback : d.Carried v best.level (e.moveVar v best.level).2 := ⟨he.trans hmove, h.here.moved.trans (hmoved hdone)⟩
  refine ⟨hdone, hback.reorders, ?_⟩
  rw [(hbe.trans hmove).rootedSize_eq hb.reorders.ready (hb.reorders.rooted hr) (hback.varAt_eq hb), hsize]
  exact h.small

/-! ## Sifting that may fail -/

/-- Carries the variable at a level downwards, unless an exchange is refused. -/
def trySiftDown : Nat → Nat → Best → Diagram → Except Error (Nat × Best × Diagram)
  | 0,         level, best, d => .ok (level, best, d)
  | count + 1, level, best, d => do
    let d ← d.swap level
    let size := d.rootedSize
    if size < best.size then trySiftDown count (level + 1) ⟨size, level + 1⟩ d
    else if d.limit best.size < size then .ok (level + 1, best, d)
    else trySiftDown count (level + 1) best d

/-- Carries the variable at a level upwards, unless an exchange is refused. -/
def trySiftUp (start : Nat) : Nat → Best → Diagram → Except Error (Nat × Best × Diagram)
  | 0,         best, d => .ok (0, best, d)
  | level + 1, best, d => do
    let d ← d.swap level
    let size := d.rootedSize
    if size < best.size then trySiftUp start level ⟨size, level⟩ d
    else if level < start ∧ d.limit best.size < size then .ok (level, best, d)
    else trySiftUp start level best d

def trySiftVar (d : Diagram) (v : Nat) : Except Error Diagram :=
  match d.levelOf[v]? with
  | none       => .ok d
  | some start => do
    let (level, best, d) ← trySiftDown (d.varCount - 1 - start) start ⟨d.rootedSize, start⟩ d
    let (_, best, d) ← trySiftUp start level best d
    match d.moveVar v best.level with
    | (.ok (), d)   => .ok d
    | (.error e, _) => .error e

/-- Sifts every variable once and gives the size reached, unless an exchange or a move fails. -/
def trySift (d : Diagram) : Except Error (Nat × Diagram) :=
  if d.varCount < 2 then .ok (d.rootedSize, d)
  else do
    let (_, d) := d.collect
    let d ← d.siftingOrder.foldlM trySiftVar d
    let (_, d) := d.collect
    .ok (d.rootedSize, d)

/-- On its way down the variable always has a level below it. -/
theorem siftDown_sifted : ∀ (count : Nat) {level : Nat} {best : Best} {e : Diagram}, d.Sifted v level best e →
    level + count < e.varAt.size → trySiftDown count level best e = .ok (siftDown count level best e) ∧
    d.Sifted v (siftDown count level best e).1 (siftDown count level best e).2.1 (siftDown count level best e).2.2
  | 0,         level, best, e, h, _   => ⟨rfl, h⟩
  | count + 1, level, best, e, h, hlt => by
    have hnext := h.exchange (h.here.down (by omega))
    have hsize : level + 1 + count < (e.exchange level).varAt.size := by
      rw [(exchange_spec h.here.reorders.ready level).size h.here.reorders.ready]
      omega
    rw [trySiftDown, swap_eq (by omega), siftDown]
    simp only [bind, Except.bind]
    split
    · exact siftDown_sifted count (hnext.improve ‹_›) hsize
    · split
      · exact ⟨rfl, hnext⟩
      · exact siftDown_sifted count hnext hsize

/-- On its way up it has been at the level below. -/
theorem siftUp_sifted (start : Nat) : ∀ (level : Nat) {best : Best} {e : Diagram}, d.Sifted v level best e →
    trySiftUp start level best e = .ok (siftUp start level best e) ∧
    d.Sifted v (siftUp start level best e).1 (siftUp start level best e).2.1 (siftUp start level best e).2.2
  | 0,         best, e, h => ⟨rfl, h⟩
  | level + 1, best, e, h => by
    have hnext := h.exchange h.here.up
    rw [trySiftUp, swap_eq h.here.level_lt, siftUp]
    simp only [bind, Except.bind]
    split
    · exact siftUp_sifted start level (hnext.improve ‹_›)
    · split
      · exact ⟨rfl, hnext⟩
      · exact siftUp_sifted start level hnext

/-- **Sifting one variable** succeeds and leaves the diagram no larger. -/
theorem siftVar_sifted (hd : d.Ready) (hr : d.Rooted) (v : Nat) :
    d.trySiftVar v = .ok (d.siftVar v) ∧ (d.siftVar v).rootedSize ≤ d.rootedSize := by
  unfold trySiftVar siftVar
  cases hv : d.levelOf[v]? with
  | none => exact ⟨rfl, Nat.le_refl _⟩
  | some start =>
    have hstart := Sifted.start hd hv
    have hsize := hd.valid.ordered.size
    have hroom : start + (d.varCount - 1 - start) < d.varAt.size := by
      have := hstart.here.level_lt
      rw [hsize] at this ⊢
      simp only [varCount]
      omega
    obtain ⟨hdown, h₁⟩ := siftDown_sifted (d.varCount - 1 - start) hstart hroom
    simp only [bind, Except.bind, hdown]
    generalize siftDown (d.varCount - 1 - start) start ⟨d.rootedSize, start⟩ d = down at h₁ ⊢
    obtain ⟨level, best₁, e₁⟩ := down
    obtain ⟨hup, h₂⟩ := siftUp_sifted start level h₁
    simp only [hup] at h₂ ⊢
    generalize siftUp start level best₁ e₁ = up at h₂ ⊢
    obtain ⟨top, best₂, e₂⟩ := up
    obtain ⟨hmove, -, hle⟩ := h₂.moveVar hr (Array.getElem?_eq_some_iff.1 hv).1
    simp only at hmove hle ⊢
    generalize e₂.moveVar v best₂.level = moved at hmove hle ⊢
    obtain ⟨result, e₃⟩ := moved
    simp only at hmove hle ⊢
    subst hmove
    exact ⟨rfl, hle⟩

theorem siftAll_sifted : ∀ (vars : List Nat) {d : Diagram}, d.Ready → d.Rooted →
    vars.foldlM trySiftVar d = .ok (vars.foldl siftVar d) ∧ (vars.foldl siftVar d).rootedSize ≤ d.rootedSize
  | [],        _, _,  _  => ⟨rfl, Nat.le_refl _⟩
  | v :: vars, d, hd, hr => by
    obtain ⟨hok, hle⟩ := siftVar_sifted hd hr v
    have hs := siftVar_spec hd v
    obtain ⟨hoks, hles⟩ := siftAll_sifted vars hs.ready (hs.rooted hr)
    rw [List.foldlM_cons, hok, List.foldl_cons]
    exact ⟨hoks, Nat.le_trans hles hle⟩

/-- **Sifting succeeds and leaves the diagram no larger.** -/
theorem sift_sifted (hd : d.Ready) (hr : d.Rooted) : d.trySift = .ok d.sift ∧ d.sift.1 = d.sift.2.rootedSize ∧
    d.sift.1 ≤ d.rootedSize := by
  unfold trySift sift
  split
  · exact ⟨rfl, rfl, Nat.le_refl _⟩
  · have hc := collect_retains hd
    have hcr : d.collect.2.Rooted := fun f hf => hc.live f (collect_roots hd ▸ hf) (hr f (collect_roots hd ▸ hf))
    obtain ⟨hok, hle⟩ := siftAll_sifted d.collect.2.siftingOrder hc.ready hcr
    have hs := siftAll_spec d.collect.2.siftingOrder hc.ready
    simp only [hok, bind, Except.bind]
    refine ⟨trivial, trivial, ?_⟩
    rw [collect_rootedSize hs.ready (hs.rooted hcr), ← collect_rootedSize hd hr]
    exact hle

/-! ## Any diagram that can be reached -/

/-- An order has every variable once. -/
theorem Ordered.varAt_perm (hd : d.Ordered) : d.varAt.toList.Perm (List.range d.varCount) := by
  refine (List.perm_ext_iff_of_nodup hd.varAt_nodup List.nodup_range).2 (fun v => ?_)
  rw [List.mem_range, List.mem_iff_getElem?]
  constructor
  · rintro ⟨i, hi⟩
    have hlt : i < d.varCount := by
      rw [varCount, ← hd.size]
      exact (List.getElem?_eq_some_iff.1 hi).1
    rw [hd.varAt_getElem? hlt] at hi
    exact Option.some.inj hi ▸ (hd.var i hlt).1
  · intro hv
    obtain ⟨hlt, hat⟩ := hd.level v hv
    exact ⟨_, hat ▸ hd.varAt_getElem? hlt⟩

/-- **Sifting succeeds and never makes a diagram larger**, whatever is referenced and however much growth is allowed: no
exchange and no move that it makes is refused, the size it gives is the size afterwards, that is no larger than the size
before, and the order still has every variable once. -/
theorem sifting_of_reached {capacity : Nat} {growth : Float} (h : Reached capacity growth d) :
    d.trySift = .ok d.sift ∧ d.sift.1 = d.sift.2.rootedSize ∧ d.sift.1 ≤ d.rootedSize ∧
    d.sift.2.varAt.toList.Perm (List.range d.varCount) := by
  obtain ⟨hok, hsize, hle⟩ := sift_sifted h.ready h.rooted
  have hs := sift_spec h.ready
  exact ⟨hok, hsize, hle, hs.varCount ▸ hs.ready.valid.ordered.varAt_perm⟩

open Exchanged in
/-- A referenced conjunction of two variables. -/
theorem sifting_of_reached_exchanged : Reached 4 1.5 guarded ∧ guarded.trySift = .ok guarded.sift ∧
    guarded.sift.2.rootedSize ≤ guarded.rootedSize ∧ guarded.sift.2.varAt.toList.Perm (List.range 2) := by
  obtain ⟨h, hxy, -⟩ := xy_spec
  have hg : Reached 4 1.5 guarded := h.step (.reference xy.1) (fun f hf => by rwa [List.mem_singleton.1 hf])
  obtain ⟨hok, hsize, hle, hperm⟩ := sifting_of_reached hg
  have hcount : guarded.varCount = 2 := xy_varCount
  exact ⟨hg, hok, hsize ▸ hle, hcount ▸ hperm⟩

end Diagram
end Credence
