import Credence.Proofs.Canonicity
import Mathlib.Data.List.Nodup
/-!
# Orders after exchanges and moves

An exchange changes the order of variables at two neighbouring places and nowhere else (`exchange_order`).  A variable
moved to a level stands there, and the others follow one another as they did (`moveVar_order`).  With what
`Reordering` says about functions this describes every way to change an order: whatever is moved, and however far it
came, live handles keep their functions; sifting also frees what no referenced function needs any more
(`reordering_of_reached`).
-/
namespace Credence
namespace Diagram

variable {d d' : Diagram} {f g root : Handle} {n : Node} {v i target : Nat} {xs ys : List Nat}

/-! ## Neighbours in a list -/

/-- The elements at `i` and `i + 1` have changed places, and all others are where they were. -/
def Exchanges (i : Nat) (xs ys : List Nat) : Prop :=
  ∃ before x y after, before.length = i ∧ xs = before ++ x :: y :: after ∧ ys = before ++ y :: x :: after

theorem exchanges_set {x y : Nat} (hx : xs[i]? = some x) (hy : xs[i + 1]? = some y) :
    Exchanges i xs ((xs.set i y).set (i + 1) x) := by
  obtain ⟨hi, hx⟩ := List.getElem?_eq_some_iff.1 hx
  obtain ⟨hi', hy⟩ := List.getElem?_eq_some_iff.1 hy
  have hlen : (xs.take i).length = i := by rw [List.length_take]; omega
  have hxs : xs = xs.take i ++ x :: y :: xs.drop (i + 2) := by
    rw [← hx, ← hy, List.getElem_cons_drop, List.getElem_cons_drop, List.take_append_drop]
  refine ⟨xs.take i, x, y, xs.drop (i + 2), hlen, hxs, ?_⟩
  generalize xs.take i = before at hlen hxs
  generalize xs.drop (i + 2) = after at hxs
  subst hxs hlen
  simp

/-- The variable `v` is at `target`, and the others follow one another as in `xs`. -/
def MovedTo (v target : Nat) (xs ys : List Nat) : Prop := ys[target]? = some v ∧ ys.erase v = xs.erase v

theorem movedTo_refl (h : xs[i]? = some v) : MovedTo v i xs xs := ⟨h, rfl⟩

theorem MovedTo.trans {zs : List Nat} (h : MovedTo v i xs ys) (h' : MovedTo v target ys zs) : MovedTo v target xs zs :=
  ⟨h'.1, h'.2.trans h.2⟩

/-- An exchange moves the upper variable down. -/
theorem Exchanges.down (h : Exchanges i xs ys) (hn : xs.Nodup) (hv : xs[i]? = some v) : MovedTo v (i + 1) xs ys := by
  obtain ⟨before, x, y, after, rfl, rfl, rfl⟩ := h
  obtain rfl : x = v := by simpa using hv
  have hb : x ∉ before := fun h => (List.nodup_append.1 hn).2.2 x h x List.mem_cons_self rfl
  have hxy : y ≠ x := fun e => (List.nodup_cons.1 (List.nodup_append.1 hn).2.1).1 (e ▸ List.mem_cons_self)
  refine ⟨by simp, ?_⟩
  simp [List.erase_append, hb, hxy]

/-- An exchange moves the lower variable up. -/
theorem Exchanges.up (h : Exchanges i xs ys) (hn : xs.Nodup) (hv : xs[i + 1]? = some v) : MovedTo v i xs ys := by
  obtain ⟨before, x, y, after, rfl, rfl, rfl⟩ := h
  obtain rfl : y = v := by simpa using hv
  have hb : y ∉ before := fun h => (List.nodup_append.1 hn).2.2 y h y (List.mem_cons_of_mem _ List.mem_cons_self) rfl
  have hxy : x ≠ y := fun e => (List.nodup_cons.1 (List.nodup_append.1 hn).2.1).1 (e ▸ List.mem_cons_self)
  refine ⟨by simp, ?_⟩
  simp [List.erase_append, hb, hxy]

/-! ## The order of a diagram -/

theorem Ordered.varAt_getElem? (hd : d.Ordered) {level : Nat} (h : level < d.varCount) :
    d.varAt.toList[level]? = some (d.varAt.getD level 0) := by
  have hlt : level < d.varAt.size := by rw [hd.size]; exact h
  simp [Array.getD_eq_getD_getElem?, hlt]

theorem Ordered.varAt_nodup (hd : d.Ordered) : d.varAt.toList.Nodup := by
  refine List.nodup_iff_getElem?_ne_getElem?.2 (fun i j hij hj he => ?_)
  rw [Array.length_toList, hd.size] at hj
  have hi : i < d.varCount := Nat.lt_trans hij hj
  rw [hd.varAt_getElem? hi, hd.varAt_getElem? hj] at he
  have hij' : i = j := by
    rw [← (hd.var i hi).2, ← (hd.var j hj).2, Option.some.inj he]
  omega

/-- The place of a variable in the order. -/
theorem Ordered.varAt_levelOf (hd : d.Ordered) {level : Nat} (h : d.levelOf[v]? = some level) :
    d.varAt.toList[level]? = some v := by
  obtain ⟨hv, -⟩ := Array.getElem?_eq_some_iff.1 h
  have hlevel : d.levelOf.getD v 0 = level := by rw [Array.getD_eq_getD_getElem?, h]; rfl
  obtain ⟨h1, h2⟩ := hd.level v hv
  rw [hlevel] at h1 h2
  rw [hd.varAt_getElem? h1, h2]

theorem Reorders.size (h : d.Reorders d') (hd : d.Ready) : d'.varAt.size = d.varAt.size :=
  h.ready.valid.ordered.size.trans (h.varCount.trans hd.valid.ordered.size.symm)

/-! ## Exchanges -/

/-- **An exchange** changes the order at its two levels. -/
theorem exchange_order (hd : d.Ready) {level : Nat} (h : level + 1 < d.varAt.size) :
    Exchanges level d.varAt.toList (d.exchange level).varAt.toList := by
  have hx : d.varAt[level]? = some (d.varAt.getD level 0) := by
    simp [Array.getD_eq_getD_getElem?, Nat.lt_of_succ_lt h]
  have hy : d.varAt[level + 1]? = some (d.varAt.getD (level + 1) 0) := by simp [Array.getD_eq_getD_getElem?, h]
  generalize d.varAt.getD level 0 = x at hx
  generalize d.varAt.getD (level + 1) 0 = y at hy
  have ha := hd.valid.ordered.adjacent hx hy
  obtain ⟨ht, -⟩ := Turning.rotateAll hd.valid ha (d.crossing x y) (List.nodup_range.filter _)
    (fun slot hslot => mem_crossing.1 hslot) hd.valid.turning (fun _ _ _ => rfl)
  simp only [exchange, hx, hy, ht.varAt, Array.toList_setIfInBounds]
  exact exchanges_set (by rw [Array.getElem?_toList]; exact hx) (by rw [Array.getElem?_toList]; exact hy)

theorem swap_ok_iff {level : Nat} : (∃ d', d.swap level = .ok d') ↔ level + 1 < d.varAt.size := by
  unfold swap
  split
  · exact ⟨fun _ => ‹_›, fun _ => ⟨_, rfl⟩⟩
  · exact ⟨fun ⟨_, h⟩ => (nomatch h), fun h => absurd h ‹_›⟩

theorem swap_order (hd : d.Ready) {level : Nat} (h : d.swap level = .ok d') :
    Exchanges level d.varAt.toList d'.varAt.toList := by
  have hlt := swap_ok_iff.1 ⟨d', h⟩
  rw [swap, if_pos hlt] at h
  injection h with h
  exact h ▸ exchange_order hd hlt

/-! ## Moves -/

/-- A variable goes down as far as there are levels. -/
theorem moveDown_order : ∀ (count level : Nat) {d : Diagram}, d.Ready → d.varAt.toList[level]? = some v →
    ((moveDown count level d).1 = .ok () ↔ level + count < d.varAt.size) ∧
    ((moveDown count level d).1 = .ok () →
      MovedTo v (level + count) d.varAt.toList (moveDown count level d).2.varAt.toList)
  | 0,         level, d, hd, hv =>
    ⟨⟨fun _ => (List.getElem?_eq_some_iff.1 hv).1, fun _ => rfl⟩, fun _ => movedTo_refl hv⟩
  | count + 1, level, d, hd, hv => by
    unfold moveDown
    cases h : d.swap level with
    | ok e =>
      have hr := swap_spec hd h
      have hm := (swap_order hd h).down hd.valid.ordered.varAt_nodup hv
      obtain ⟨hok, hmoved⟩ := moveDown_order count (level + 1) hr.ready hm.1
      have hsum : level + 1 + count = level + (count + 1) := by omega
      rw [hsum, hr.size hd] at hok
      rw [hsum] at hmoved
      exact ⟨hok, fun h => hm.trans (hmoved h)⟩
    | error e =>
      have hge : ¬ level + 1 < d.varAt.size := by
        rw [← swap_ok_iff]
        rintro ⟨d', h'⟩
        rw [h] at h'
        cases h'
      exact ⟨⟨(by cases ·), fun _ => absurd (by omega) hge⟩, (by cases ·)⟩

/-- A variable goes up to any level above it. -/
theorem moveUp_order : ∀ (count level : Nat) {d : Diagram}, d.Ready → count ≤ level → d.varAt.toList[level]? = some v →
    MovedTo v (level - count) d.varAt.toList (moveUp count level d).varAt.toList
  | 0,         level,     d, hd, _,  hv => movedTo_refl hv
  | count + 1, level + 1, d, hd, hc, hv => by
    have hlt : level + 1 < d.varAt.size := (List.getElem?_eq_some_iff.1 hv).1
    have hm := (exchange_order hd hlt).up hd.valid.ordered.varAt_nodup hv
    have hrest := moveUp_order count level (exchange_spec hd level).ready (by omega) hm.1
    rw [show level + 1 - (count + 1) = level - count by omega]
    exact hm.trans hrest

/-- **A move** succeeds for a variable and a level that there are, and then the variable is at that level. -/
theorem moveVar_order (hd : d.Ready) (v target : Nat) :
    ((d.moveVar v target).1 = .ok () ↔ v < d.varCount ∧ target < d.varCount) ∧
    ((d.moveVar v target).1 = .ok () → MovedTo v target d.varAt.toList (d.moveVar v target).2.varAt.toList) := by
  have hsize : d.varAt.size = d.varCount := hd.valid.ordered.size
  unfold moveVar
  cases hv : d.levelOf[v]? with
  | none =>
    have hge : d.varCount ≤ v := Array.getElem?_eq_none_iff.1 hv
    exact ⟨⟨fun h => (nomatch h), fun h => absurd h.1 (by omega)⟩, fun h => (nomatch h)⟩
  | some here =>
    have hvlt : v < d.varCount := (Array.getElem?_eq_some_iff.1 hv).1
    have hat := hd.valid.ordered.varAt_levelOf hv
    have hhere : here < d.varAt.size := (List.getElem?_eq_some_iff.1 hat).1
    simp only
    split
    · rename_i hle
      obtain ⟨hok, hmoved⟩ := moveDown_order (target - here) here hd hat
      rw [show here + (target - here) = target by omega] at hok hmoved
      exact ⟨by rw [hok, hsize]; exact ⟨fun h => ⟨hvlt, h⟩, fun h => h.2⟩, hmoved⟩
    · rename_i hgt
      have hmoved := moveUp_order (here - target) here hd (by omega) hat
      rw [show here - (here - target) = target by omega] at hmoved
      exact ⟨⟨fun _ => ⟨hvlt, by omega⟩, fun _ => rfl⟩, fun _ => hmoved⟩

/-! ## What referenced functions are made of -/

/-- Every branch of a live function is live. -/
theorem Sound.live_reaches (hd : d.Sound) (h : d.Reaches f g) (hf : d.Live f) : d.Live g := by
  induction h with
  | refl => exact hf
  | low hn _ ih => exact ih (hd.live _ _ hn).1
  | high hn _ ih => exact ih (hd.live _ _ hn).2

/-- A part of a diagram has, with a function, all that it is made of. -/
theorem Within.live_reaches (h : d'.Within d) (hs' : d'.Sound) (hs : d.Sound) (hr : d.Reaches f g) (hf : d'.Live f) :
    d'.Live g := by
  have hnode : ∀ {f n}, d.node? f = some n → d'.Live f → d'.node? f = some n := by
    intro f n hn hf
    rcases hf with rfl | rfl | ⟨m, hm⟩
    · exact nomatch hs.bot.symm.trans hn
    · exact nomatch hs.top.symm.trans hn
    · rw [← hn, h f m hm, hm]
  induction hr with
  | refl => exact hf
  | low hn _ ih => exact ih (hs'.live _ _ (hnode hn hf)).1
  | high hn _ ih => exact ih (hs'.live _ _ (hnode hn hf)).2

/-- A collection keeps all that a referenced function is made of. -/
theorem collect_reaches (hd : d.Ready) (hroot : root ∈ d.roots) (hl : d.Live root) (hr : d.Reaches root f) :
    d.collect.2.Live f ∧ ∀ a, d.collect.2.eval f a = d.eval f a := by
  obtain ⟨h1, h2, h3⟩ := collect_spec hd
  have hf : d.collect.2.Live f := h2.within.live_reaches h1.valid.sound hd.valid.sound hr (h3 root hroot hl)
  exact ⟨hf, fun a => (h2.eval h1.valid hd.valid hf).symm⟩

/-- **Sifting** is a collection, exchanges and moves, and another collection. -/
theorem sift_stages (hd : d.Ready) : d.sift.2 = d ∨ ∃ e : Diagram, d.collect.2.Reorders e ∧ d.sift.2 = e.collect.2 := by
  unfold sift
  split
  · exact .inl rfl
  · exact .inr ⟨_, siftAll_spec d.collect.2.siftingOrder (collect_retains hd).ready, rfl⟩

/-- **Sifting finds a new order, in which all that referenced functions were made of has its function, and then frees what
they are no longer made of.** -/
theorem sift_reordered (hd : d.Ready) : ∃ e : Diagram, e.Ready ∧ e.roots = d.roots ∧ (d.sift.2 = e ∨ d.sift.2 = e.collect.2) ∧
    ∀ root ∈ d.roots, d.Live root → ∀ f, d.Reaches root f → e.Live f ∧ ∀ a, e.eval f a = d.eval f a := by
  rcases sift_stages hd with h | ⟨e, he, h⟩
  · exact ⟨d, hd, rfl, .inl h, fun root _ hl f hr => ⟨hd.valid.sound.live_reaches hr hl, fun _ => rfl⟩⟩
  · refine ⟨e, he.ready, congrArg (List.map Prod.fst) (he.refs.trans (collect_retains hd).refs), .inr h,
      fun root hroot hl f hr => ?_⟩
    obtain ⟨hf, hval⟩ := collect_reaches hd hroot hl hr
    exact ⟨he.live f hf, fun a => (he.same f hf a).trans (hval a)⟩

/-- What is still there after sifting has its function. -/
theorem sift_reaches (hd : d.Ready) (hroot : root ∈ d.roots) (hl : d.Live root) (hr : d.Reaches root f)
    (hf : d.sift.2.Live f) (a : Nat → Bool) : d.sift.2.eval f a = d.eval f a := by
  obtain ⟨e, he, -, h, hkeeps⟩ := sift_reordered hd
  obtain ⟨-, hval⟩ := hkeeps root hroot hl f hr
  rcases h with h | h
  · rw [h, hval]
  · obtain ⟨h1, h2, -⟩ := collect_spec he
    rw [h] at hf ⊢
    rw [← h2.eval h1.valid he.valid hf, hval]

/-! ## What operations do to references and to live handles -/

/-- The references after an operation. -/
def Operation.rerefs : Operation → List (Handle × Nat) → List (Handle × Nat)
  | reference f,   refs => addRef f refs
  | dereference f, refs => dropRef f refs
  | _,             refs => refs

/-- The operations that free slots. -/
def Operation.collects : Operation → Bool
  | sift    => true
  | collect => true
  | _       => false

/-- Every live handle is still live and has the function it had. -/
def Preserves (d d' : Diagram) : Prop := ∀ f, d.Live f → d'.Live f ∧ ∀ a, d'.eval f a = d.eval f a

theorem Grows.preserves (h : d.Grows d') (hd : d.Ready) : d.Preserves d' :=
  fun _ hf => ⟨h.within.live hf, fun _ => h.eval hd hf⟩

theorem Reorders.preserves (h : d.Reorders d') : d.Preserves d' := fun f hf => ⟨h.live f hf, h.same f hf⟩

theorem Ready.preserves_setRefs (hd : d.Ready) (refs : List (Handle × Nat)) : d.Preserves { d with refs := refs } := by
  have hd' := hd.setRefs refs
  have hw : d.Within { d with refs := refs } := fun _ _ h => h
  exact fun f hf => ⟨hw.live hf, fun a =>
    hw.eval hd.valid.sound hd'.valid.sound hd.valid.graded hd'.valid.graded hf⟩

/-- What an operation does: references change as said, and a function is lost only to a collection, and only without a
reference. -/
structure Effect (d : Diagram) (op : Operation) : Prop where
  refs      : (op.apply d).refs = op.rerefs d.refs
  preserves : op.collects = false → d.Preserves (op.apply d)
  kept      : ∀ f ∈ d.roots, d.Live f → (op.apply d).Live f ∧ ∀ a, (op.apply d).eval f a = d.eval f a

theorem Preserves.effect {op : Operation} (h : d.Preserves (op.apply d)) (hrefs : (op.apply d).refs = op.rerefs d.refs) :
    d.Effect op := ⟨hrefs, fun _ => h, fun f _ hf => h f hf⟩

theorem Grows.effect {op : Operation} (h : d.Grows (op.apply d)) (hd : d.Ready) (hop : op.rerefs d.refs = d.refs) :
    d.Effect op := (h.preserves hd).effect (h.refs.trans hop.symm)

theorem Reorders.effect {op : Operation} (h : d.Reorders (op.apply d)) (hop : op.rerefs d.refs = d.refs) : d.Effect op :=
  h.preserves.effect (h.refs.trans hop.symm)

theorem Retains.effect {op : Operation} (h : d.Retains (op.apply d)) (hop : op.rerefs d.refs = d.refs)
    (hc : op.collects = true) : d.Effect op := by
  refine ⟨h.refs.trans hop.symm, fun hc' => ?_, fun f hf hl => ⟨h.live f hf hl, h.same f hf hl⟩⟩
  rw [hc] at hc'
  cases hc'

theorem Ready.effect (hd : d.Ready) (op : Operation) (hop : ∀ f ∈ op.operands, d.Live f) : d.Effect op := by
  cases op with
  | var v => exact (grows_var hd v).effect hd rfl
  | newVar => exact (grows_var hd d.varCount).effect hd rfl
  | ite f g h =>
    obtain ⟨hf, hg, hh⟩ : d.Live f ∧ d.Live g ∧ d.Live h := by simpa [Operation.operands] using hop
    exact (ite_spec hd hf hg hh).grows.effect hd rfl
  | not f => exact (not_spec hd (hop f List.mem_cons_self)).grows.effect hd rfl
  | and f g =>
    obtain ⟨hf, hg⟩ : d.Live f ∧ d.Live g := by simpa [Operation.operands] using hop
    exact (and_spec hd hf hg).grows.effect hd rfl
  | or f g =>
    obtain ⟨hf, hg⟩ : d.Live f ∧ d.Live g := by simpa [Operation.operands] using hop
    exact (or_spec hd hf hg).grows.effect hd rfl
  | andAll fs => exact (andAll_spec hd hop).grows.effect hd rfl
  | orAll fs => exact (orAll_spec hd hop).grows.effect hd rfl
  | restrict f v value => exact (restrict_spec hd (hop f List.mem_cons_self)).grows.effect hd rfl
  | reduce graph start => exact (reduce_spec hd graph start).1.effect hd rfl
  | swap level => exact (apply_swap hd level).effect rfl
  | moveVar v target => exact (moveVar_spec hd v target).effect rfl
  | sift => exact (sift_spec hd).effect rfl rfl
  | reference f => exact (hd.preserves_setRefs (addRef f d.refs)).effect rfl
  | dereference f => exact (hd.preserves_setRefs (dropRef f d.refs)).effect rfl
  | collect => exact (collect_retains hd).effect rfl rfl

/-! ## References are to live handles -/

theorem addRef_keys (f : Handle) : ∀ refs : List (Handle × Nat),
    (addRef f refs).map Prod.fst = if f ∈ refs.map Prod.fst then refs.map Prod.fst else refs.map Prod.fst ++ [f]
  | []           => rfl
  | (k, n) :: rs => by
    unfold addRef
    by_cases hk : k = f
    · simp [hk]
    · have hk' : f ≠ k := Ne.symm hk
      rw [if_neg hk, List.map_cons, addRef_keys f rs]
      simp only [List.map_cons, List.mem_cons, hk', false_or]
      split
      · rfl
      · rfl

theorem dropRef_keys (f : Handle) : ∀ refs : List (Handle × Nat), ((dropRef f refs).map Prod.fst).Sublist (refs.map Prod.fst)
  | []           => .slnil
  | (k, n) :: rs => by
    unfold dropRef
    split
    · split
      · exact List.sublist_cons_self _ _
      · exact .refl _
    · exact (dropRef_keys f rs).cons_cons k

/-- Every referenced handle is live. -/
def Rooted (d : Diagram) : Prop := ∀ f ∈ d.roots, d.Live f

theorem Rooted.apply (h : d.Rooted) (hd : d.Ready) (op : Operation) (hop : ∀ f ∈ op.operands, d.Live f) :
    (op.apply d).Rooted := by
  have he := hd.effect op hop
  intro g hg
  rw [roots, he.refs] at hg
  have hold : g ∈ d.roots → (op.apply d).Live g := fun hg => (he.kept g hg (h g hg)).1
  cases op with
  | reference f =>
    by_cases e : g = f
    · exact e ▸ hop f List.mem_cons_self
    · refine hold ?_
      rw [Operation.rerefs, addRef_keys] at hg
      split at hg
      · exact hg
      · exact (List.mem_append.1 hg).resolve_right (fun hg => e (List.mem_singleton.1 hg))
  | dereference f => exact hold ((dropRef_keys f d.refs).subset hg)
  | _ => exact hold hg

theorem Reached.rooted {capacity : Nat} {growth : Float} (h : Reached capacity growth d) : d.Rooted := by
  induction h with
  | empty => exact fun f hf => nomatch hf
  | step op hr hop ih => exact ih.apply hr.ready op hop

/-! ## All changes of order -/

/-- **Reordering preserves functions and handles.**  A swap is made wherever there is a level below, and exchanges two
neighbours of the order; a move is made for every variable and level that there are, and changes the place of that
variable only; live handles keep their functions, also when a move stops half-way.  Sifting keeps every referenced
handle, and the function of every handle that was reachable from one until the handle is freed, which is not before the
order is final. -/
theorem reordering_of_reached {capacity : Nat} {growth : Float} (h : Reached capacity growth d) :
    (∀ level, ((∃ d', d.swap level = .ok d') ↔ level + 1 < d.varAt.size) ∧
      ∀ d', d.swap level = .ok d' → Exchanges level d.varAt.toList d'.varAt.toList ∧
        ∀ f, d.Live f → d'.Live f ∧ ∀ a, d'.eval f a = d.eval f a) ∧
    (∀ v target, ((d.moveVar v target).1 = .ok () ↔ v < d.varCount ∧ target < d.varCount) ∧
      ((d.moveVar v target).1 = .ok () → MovedTo v target d.varAt.toList (d.moveVar v target).2.varAt.toList) ∧
      ∀ f, d.Live f → (d.moveVar v target).2.Live f ∧ ∀ a, (d.moveVar v target).2.eval f a = d.eval f a) ∧
    (∀ root ∈ d.roots, d.sift.2.Live root ∧
      ∀ f, d.Reaches root f → d.sift.2.Live f → ∀ a, d.sift.2.eval f a = d.eval f a) ∧
    ∃ e : Diagram, (d.sift.2 = e ∨ d.sift.2 = e.collect.2) ∧
      ∀ root ∈ d.roots, ∀ f, d.Reaches root f → e.Live f ∧ ∀ a, e.eval f a = d.eval f a := by
  have hd := h.ready
  have hroots := h.rooted
  refine ⟨fun level => ⟨swap_ok_iff, fun d' hok => ⟨swap_order hd hok, fun f hf => ?_⟩⟩, fun v target => ?_,
    fun root hroot => ⟨?_, fun f hr hf => sift_reaches hd hroot (hroots root hroot) hr hf⟩, ?_⟩
  · have hs := swap_spec hd hok
    exact ⟨hs.live f hf, hs.same f hf⟩
  · obtain ⟨hok, hmoved⟩ := moveVar_order hd v target
    have hs := moveVar_spec hd v target
    exact ⟨hok, hmoved, fun f hf => ⟨hs.live f hf, hs.same f hf⟩⟩
  · exact (sift_spec hd).live root hroot (hroots root hroot)
  · obtain ⟨e, -, -, hsift, hkeeps⟩ := sift_reordered hd
    exact ⟨e, hsift, fun root hroot => hkeeps root hroot (hroots root hroot)⟩

theorem Exchanged.xy_varCount : Exchanged.xy.2.varCount = 2 := by
  have h0 : Reached 4 1.5 Exchanged.start := .empty
  obtain ⟨hd₁, -, -, hcount₁, hx, -⟩ := var_spec h0.ready 0
  obtain ⟨hd₂, hw, -, hcount₂, hy, -⟩ := var_spec hd₁ 1
  have hcount := (and_spec hd₂ (hw.live hx) hy).keeps.varCount
  rw [hcount₂, hcount₁] at hcount
  exact hcount

theorem Exchanged.turned_varCount : Exchanged.turned.varCount = 2 :=
  (apply_swap Exchanged.xy_spec.1.ready 0).varCount.trans Exchanged.xy_varCount

/-- A conjunction of two variables is the same function in the other order, and after a move that fails for want of levels
once it has exchanged them. -/
theorem reordering_of_reached_exchanged : Reached 4 1.5 Exchanged.xy.2 ∧ Exchanged.xy.2.Live Exchanged.xy.1 ∧
    (∃ d', Exchanged.xy.2.swap 0 = .ok d' ∧ Exchanges 0 Exchanged.xy.2.varAt.toList d'.varAt.toList ∧
      ∀ a, d'.eval Exchanged.xy.1 a = (a 0 && a 1)) ∧
    (Exchanged.xy.2.moveVar 0 5).1 ≠ .ok () ∧
    ∀ a, (Exchanged.xy.2.moveVar 0 5).2.eval Exchanged.xy.1 a = (a 0 && a 1) := by
  obtain ⟨h, hf, -, -, hval⟩ := Exchanged.xy_spec
  obtain ⟨hswap, hmove, -⟩ := reordering_of_reached h
  have hcount : Exchanged.xy.2.varCount = 2 := Exchanged.xy_varCount
  obtain ⟨d', hd'⟩ := (hswap 0).1.2 (by rw [h.ready.valid.ordered.size]; show 1 < Exchanged.xy.2.varCount; omega)
  obtain ⟨horder, hkeeps⟩ := (hswap 0).2 d' hd'
  obtain ⟨hok, -, hkept⟩ := hmove 0 5
  refine ⟨h, hf, ⟨d', hd', horder, fun a => ?_⟩, fun hfail => ?_, fun a => ?_⟩
  · rw [(hkeeps _ hf).2, (hval a).1]
  · have := (hok.1 hfail).2
    omega
  · rw [(hkept _ hf).2, (hval a).1]

end Diagram
end Credence
