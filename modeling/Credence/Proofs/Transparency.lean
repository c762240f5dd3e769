import Credence.Proofs.Canonicity
/-!
# The memo does not show

Two diagrams that differ in their memos only give the same results and go on to differ in their memos only, whatever is
done to them (`Twins.step`, `run_capacity`): a memo of any capacity, none included, saves work and nothing else.

All but if-then-else never look at the memo.  If-then-else makes no node when its result is there already
(`ite_known`): the branches of the result are the results for the branches, so every part of the work finds its node.
Hence two memos that disagree about what they know do not matter, and where the result is new neither knows it.
-/
namespace Credence
namespace Diagram

variable {d d' e e' : Diagram} {f g h r : Handle} {n : Node} {a : Nat → Bool} {v : Nat} {value : Bool}

/-! ## Diagrams that differ in their memos -/

/-- The same table of nodes, free slots, order of variables, references and limit of growth. -/
structure Alike (d e : Diagram) : Prop where
  nodes   : e.nodes = d.nodes
  free    : e.free = d.free
  unique  : e.unique = d.unique
  levelOf : e.levelOf = d.levelOf
  varAt   : e.varAt = d.varAt
  refs    : e.refs = d.refs
  growth  : e.growth = d.growth

namespace Alike

theorem refl (d : Diagram) : d.Alike d := ⟨rfl, rfl, rfl, rfl, rfl, rfl, rfl⟩

theorem symm (h : d.Alike e) : e.Alike d :=
  ⟨h.nodes.symm, h.free.symm, h.unique.symm, h.levelOf.symm, h.varAt.symm, h.refs.symm, h.growth.symm⟩

theorem trans (h : d.Alike e) (h' : e.Alike e') : d.Alike e' :=
  ⟨h'.nodes.trans h.nodes, h'.free.trans h.free, h'.unique.trans h.unique, h'.levelOf.trans h.levelOf,
    h'.varAt.trans h.varAt, h'.refs.trans h.refs, h'.growth.trans h.growth⟩

theorem setCache (h : d.Alike e) (c c' : Cache) : Alike { d with cache := c } { e with cache := c' } :=
  ⟨h.nodes, h.free, h.unique, h.levelOf, h.varAt, h.refs, h.growth⟩

theorem exists_cache (h : d.Alike e) : ∃ c, e = { d with cache := c } := by
  obtain ⟨nodes, free, unique, levelOf, varAt, refs, cache, growth⟩ := e
  obtain ⟨rfl, rfl, rfl, rfl, rfl, rfl, rfl⟩ := h
  exact ⟨cache, rfl⟩

theorem node? (h : d.Alike e) (f : Handle) : e.node? f = d.node? f := by rw [Diagram.node?, h.nodes, Diagram.node?]

theorem varCount (h : d.Alike e) : e.varCount = d.varCount := congrArg Array.size h.levelOf

theorem level (h : d.Alike e) (f : Handle) : e.level f = d.level f := by
  simp only [Diagram.level, h.node?, h.levelOf, h.varCount]

theorem top3 (h : d.Alike e) (f g k : Handle) : e.top3 f g k = d.top3 f g k := by simp only [Diagram.top3, h.level]

theorem cofactors (h : d.Alike e) (f : Handle) (v : Nat) : e.cofactors f v = d.cofactors f v := by
  simp only [Diagram.cofactors, h.node?]

theorem live (h : d.Alike e) (hf : d.Live f) : e.Live f := by simpa only [Live, h.node?] using hf

theorem evalWithin (h : d.Alike e) : ∀ (steps : Nat) (f : Handle), e.evalWithin a steps f = d.evalWithin a steps f
  | 0,         _ => rfl
  | steps + 1, f => by
    simp only [Diagram.evalWithin, h.node?]
    split
    · rfl
    · exact evalWithin h steps _

theorem eval (h : d.Alike e) (f : Handle) (a : Nat → Bool) : e.eval f a = d.eval f a := by
  rw [Diagram.eval, h.varCount, h.evalWithin, Diagram.eval]

theorem reachFrom (h : d.Alike e) : ∀ (depth : Nat) (seen : Std.HashSet Handle) (f : Handle),
    e.reachFrom depth seen f = d.reachFrom depth seen f
  | 0,         _,    _ => rfl
  | depth + 1, seen, f => by
    simp only [Diagram.reachFrom, h.node?, reachFrom h depth]

theorem reachable (h : d.Alike e) (roots : List Handle) : e.reachable roots = d.reachable roots := by
  have hstep : e.reachFrom (d.varCount + 1) = d.reachFrom (d.varCount + 1) := by
    funext seen f
    exact h.reachFrom _ seen f
  rw [Diagram.reachable, h.varCount, hstep, Diagram.reachable]

theorem roots (h : d.Alike e) : e.roots = d.roots := congrArg (List.map Prod.fst) h.refs

theorem rootedSize (h : d.Alike e) : e.rootedSize = d.rootedSize := by
  rw [Diagram.rootedSize, h.roots, h.reachable, Diagram.rootedSize]

theorem garbage (h : d.Alike e) : e.garbage = d.garbage := by
  simp only [Diagram.garbage, h.roots, h.reachable, h.nodes, h.node?]

theorem crossing (h : d.Alike e) (x y : Nat) : e.crossing x y = d.crossing x y := by
  simp only [Diagram.crossing, h.node?, h.nodes]

theorem siftingOrder (h : d.Alike e) : e.siftingOrder = d.siftingOrder := by
  simp only [Diagram.siftingOrder, Diagram.population, h.nodes, h.varCount]

theorem limit (h : d.Alike e) (best : Nat) : e.limit best = d.limit best := by simp only [Diagram.limit, h.growth]

/-- Diagrams that are changed alike, one step after the other, stay alike. -/
theorem foldl {β : Type} {op : Diagram → β → Diagram} (hop : ∀ {d e : Diagram} (b : β), d.Alike e → (op d b).Alike (op e b)) :
    ∀ (bs : List β) {d e : Diagram}, d.Alike e → (bs.foldl op d).Alike (bs.foldl op e)
  | [],      _, _, h => h
  | b :: bs, _, _, h => foldl hop bs (hop b h)

end Alike

/-- The same result, and diagrams that differ in their memos only. -/
structure Agrees {α : Type} (r s : α × Diagram) : Prop where
  result  : s.1 = r.1
  diagram : r.2.Alike s.2

/-! ## Operations that do not look at the memo -/

theorem make_alike (h : d.Alike e) (n : Node) : Agrees (d.make n) (e.make n) := by
  obtain ⟨c, rfl⟩ := h.exists_cache
  unfold make
  by_cases hn : n.low = n.high
  · rw [if_pos hn, if_pos hn]
    exact ⟨rfl, h⟩
  · rw [if_neg hn, if_neg hn]
    simp only
    cases d.unique[n]? with
    | some f => exact ⟨rfl, h⟩
    | none =>
      cases d.free with
      | nil => exact ⟨rfl, rfl, rfl, rfl, rfl, rfl, rfl, rfl⟩
      | cons slot rest => exact ⟨rfl, rfl, rfl, rfl, rfl, rfl, rfl, rfl⟩

theorem ensureVars_alike (h : d.Alike e) (count : Nat) : (d.ensureVars count).Alike (e.ensureVars count) := by
  obtain ⟨c, rfl⟩ := h.exists_cache
  exact ⟨rfl, rfl, rfl, rfl, rfl, rfl, rfl⟩

theorem var_alike (h : d.Alike e) (v : Nat) : Agrees (d.var v) (e.var v) := make_alike (ensureVars_alike h (v + 1)) _

theorem newVar_alike (h : d.Alike e) : Agrees d.newVar e.newVar := by
  rw [newVar, newVar, h.varCount]
  exact var_alike h d.varCount

theorem restrictWithin_alike (v level : Nat) (value : Bool) : ∀ (depth : Nat) {d e : Diagram} (memo : Std.HashMap Handle Handle) (f : Handle), d.Alike e →
    (restrictWithin v level value depth e memo f).1 = (restrictWithin v level value depth d memo f).1 ∧
    (restrictWithin v level value depth d memo f).2.1.Alike (restrictWithin v level value depth e memo f).2.1 ∧
    (restrictWithin v level value depth e memo f).2.2 = (restrictWithin v level value depth d memo f).2.2
  | depth, d, e, memo, f, h => by
    unfold restrictWithin
    rw [h.node?, h.level]
    cases d.node? f with
    | none => exact ⟨rfl, h, rfl⟩
    | some n =>
      cases depth with
      | zero => exact ⟨rfl, h, rfl⟩
      | succ depth =>
        simp only
        split
        · exact ⟨rfl, h, rfl⟩
        · split
          · exact ⟨rfl, h, rfl⟩
          · split
            · exact ⟨rfl, h, rfl⟩
            · obtain ⟨h1, h2, h3⟩ := restrictWithin_alike v level value depth memo n.low h
              generalize restrictWithin v level value depth d memo n.low = low at h1 h2 h3 ⊢
              generalize restrictWithin v level value depth e memo n.low = low' at h1 h2 h3 ⊢
              obtain ⟨low, d₁, memo₁⟩ := low
              obtain ⟨low', e₁, memo₁'⟩ := low'
              simp only at h1 h2 h3 ⊢
              subst h1 h3
              obtain ⟨h1, h2, h3⟩ := restrictWithin_alike v level value depth memo₁' n.high h2
              generalize restrictWithin v level value depth d₁ memo₁' n.high = high at h1 h2 h3 ⊢
              generalize restrictWithin v level value depth e₁ memo₁' n.high = high' at h1 h2 h3 ⊢
              obtain ⟨high, d₂, memo₂⟩ := high
              obtain ⟨high', e₂, memo₂'⟩ := high'
              simp only at h1 h2 h3 ⊢
              subst h1 h3
              obtain ⟨h1, h2⟩ := make_alike h2 ⟨n.var, low', high'⟩
              exact ⟨h1, h2, by rw [h1]⟩

theorem restrict_alike (h : d.Alike e) (f : Handle) (v : Nat) (value : Bool) :
    Agrees (d.restrict f v value) (e.restrict f v value) := by
  unfold restrict
  rw [h.levelOf, h.varCount]
  cases d.levelOf[v]? with
  | none => exact ⟨rfl, h⟩
  | some level =>
    obtain ⟨h1, h2, -⟩ := restrictWithin_alike v level value (d.varCount + 1) ∅ f h
    exact ⟨h1, h2⟩

theorem rotate_alike {x y : Nat} (slot : Nat) (h : d.Alike e) : (rotate x y d slot).Alike (rotate x y e slot) := by
  unfold rotate
  rw [h.node?]
  cases d.node? ⟨slot⟩ with
  | none => exact h
  | some n =>
    simp only [h.cofactors]
    obtain ⟨h1, h2⟩ := make_alike h ⟨x, (d.cofactors n.low y).1, (d.cofactors n.high y).1⟩
    obtain ⟨h3, h4⟩ := make_alike h2 ⟨x, (d.cofactors n.low y).2, (d.cofactors n.high y).2⟩
    rw [h1, h3]
    exact ⟨by rw [h4.nodes], h4.free, by rw [h4.unique], h4.levelOf, h4.varAt, h4.refs, h4.growth⟩

theorem exchange_alike (h : d.Alike e) (level : Nat) : (d.exchange level).Alike (e.exchange level) := by
  unfold exchange
  rw [h.varAt]
  split
  · rename_i x y _ _
    simp only [h.crossing]
    have h' : ((d.crossing x y).foldl (rotate x y) d).Alike ((d.crossing x y).foldl (rotate x y) e) :=
      Alike.foldl rotate_alike (d.crossing x y) h
    exact ⟨h'.nodes, h'.free, h'.unique, by rw [h'.levelOf], by rw [h'.varAt], h'.refs, h'.growth⟩
  · exact h

theorem moveDown_alike : ∀ (count level : Nat) {d e : Diagram}, d.Alike e →
    Agrees (moveDown count level d) (moveDown count level e)
  | 0,         _,     _, _, h => ⟨rfl, h⟩
  | count + 1, level, d, e, h => by
    unfold moveDown swap
    rw [h.varAt]
    by_cases hl : level + 1 < d.varAt.size
    · rw [if_pos hl, if_pos hl]
      exact moveDown_alike count (level + 1) (exchange_alike h level)
    · rw [if_neg hl, if_neg hl]
      exact ⟨rfl, h⟩

theorem moveUp_alike : ∀ (count level : Nat) {d e : Diagram}, d.Alike e →
    (moveUp count level d).Alike (moveUp count level e)
  | 0,         _,     _, _, h => h
  | count + 1, level, _, _, h => moveUp_alike count (level - 1) (exchange_alike h (level - 1))

theorem moveVar_alike (h : d.Alike e) (v target : Nat) : Agrees (d.moveVar v target) (e.moveVar v target) := by
  unfold moveVar
  rw [h.levelOf]
  split
  · exact ⟨rfl, h⟩
  · split
    · exact moveDown_alike _ _ h
    · exact ⟨rfl, moveUp_alike _ _ h⟩

theorem freeSlot_alike (slot : Nat) (h : d.Alike e) : (d.freeSlot slot).Alike (e.freeSlot slot) := by
  unfold freeSlot
  rw [h.node?]
  split
  · exact h
  · exact ⟨by rw [h.nodes], by rw [h.free], by rw [h.unique], h.levelOf, h.varAt, h.refs, h.growth⟩

theorem collect_alike (h : d.Alike e) : Agrees d.collect e.collect := by
  unfold collect
  rw [h.garbage]
  exact ⟨rfl, (Alike.foldl freeSlot_alike d.garbage h).setCache _ _⟩

/-! ### Sifting -/

theorem siftDown_alike : ∀ (count level : Nat) (best : Best) {d e : Diagram}, d.Alike e →
    (siftDown count level best e).1 = (siftDown count level best d).1 ∧
    Agrees (siftDown count level best d).2 (siftDown count level best e).2
  | 0,         _,     _,    _, _, h => ⟨rfl, rfl, h⟩
  | count + 1, level, best, d, e, h => by
    have hx := exchange_alike h level
    unfold siftDown
    simp only [hx.rootedSize, hx.limit]
    split
    · exact siftDown_alike count (level + 1) _ hx
    · split
      · exact ⟨rfl, rfl, hx⟩
      · exact siftDown_alike count (level + 1) best hx

theorem siftUp_alike (start : Nat) : ∀ (level : Nat) (best : Best) {d e : Diagram}, d.Alike e →
    (siftUp start level best e).1 = (siftUp start level best d).1 ∧
    Agrees (siftUp start level best d).2 (siftUp start level best e).2
  | 0,         _,    _, _, h => ⟨rfl, rfl, h⟩
  | level + 1, best, d, e, h => by
    have hx := exchange_alike h level
    unfold siftUp
    simp only [hx.rootedSize, hx.limit]
    split
    · exact siftUp_alike start level _ hx
    · split
      · exact ⟨rfl, rfl, hx⟩
      · exact siftUp_alike start level best hx

theorem siftVar_alike (v : Nat) (h : d.Alike e) : (d.siftVar v).Alike (e.siftVar v) := by
  unfold siftVar
  rw [h.levelOf, h.varCount, h.rootedSize]
  split
  · exact h
  · rename_i start _
    obtain ⟨h1, h2, h3⟩ := siftDown_alike (d.varCount - 1 - start) start ⟨d.rootedSize, start⟩ h
    simp only [h1, h2]
    obtain ⟨-, h5, h6⟩ := siftUp_alike start (siftDown (d.varCount - 1 - start) start ⟨d.rootedSize, start⟩ d).1
      (siftDown (d.varCount - 1 - start) start ⟨d.rootedSize, start⟩ d).2.1 h3
    rw [h5]
    exact (moveVar_alike h6 v _).diagram

theorem sift_alike (h : d.Alike e) : Agrees d.sift e.sift := by
  unfold sift
  rw [h.varCount]
  split
  · exact ⟨h.rootedSize, h⟩
  · have h1 := (collect_alike h).diagram
    simp only [h1.siftingOrder]
    have h2 := (collect_alike (Alike.foldl siftVar_alike d.collect.2.siftingOrder h1)).diagram
    exact ⟨h2.rootedSize, h2⟩

/-! ## If-then-else

### A result that is there already -/

/-- A function that is there already is what is built. -/
theorem Builds.eq_of_known {val : (Nat → Bool) → Bool} {built : Handle × Diagram} (hb : d.Builds val built) (hd : d.Valid)
    (hr : d.Live r) (he : ∀ a, d.eval r a = val a) : built.1 = r := by
  refine hb.ready.valid.canonical hb.live (hb.keeps.within.live hr) (fun a => ?_)
  rw [hb.eval, hb.keeps.eval hd hb.ready.valid hr, he]

/-- The parts of a function are the function with the variable fixed. -/
theorem Parts.eval_fixed {f0 f1 : Handle} (hp : d.Parts v f f0 f1) (hd : d.Valid) (a : Nat → Bool) :
    d.eval f0 a = d.eval f (Function.update a v false) ∧ d.eval f1 a = d.eval f (Function.update a v true) := by
  have h0 : ∀ x, d.eval f0 (Function.update a v x) = d.eval f0 a := hd.graded.eval_update (hd.not_tests hp.low.2)
  have h1 : ∀ x, d.eval f1 (Function.update a v x) = d.eval f1 a := hd.graded.eval_update (hd.not_tests hp.high.2)
  simp [hp.eval, h0, h1]

/-- The parts of an if-then-else are the if-then-elses of the parts. -/
theorem Parts.choice {f0 f1 g0 g1 h0 h1 r0 r1 : Handle} (hd : d.Valid) (pf : d.Parts v f f0 f1) (pg : d.Parts v g g0 g1)
    (ph : d.Parts v h h0 h1) (pr : d.Parts v r r0 r1) (he : ∀ a, d.eval r a = d.choice f g h a) :
    (∀ a, d.eval r0 a = d.choice f0 g0 h0 a) ∧ ∀ a, d.eval r1 a = d.choice f1 g1 h1 a := by
  refine ⟨fun a => ?_, fun a => ?_⟩
  · rw [Diagram.choice, (pr.eval_fixed hd a).1, (pf.eval_fixed hd a).1, (pg.eval_fixed hd a).1, (ph.eval_fixed hd a).1, he,
      Diagram.choice]
  · rw [Diagram.choice, (pr.eval_fixed hd a).2, (pf.eval_fixed hd a).2, (pg.eval_fixed hd a).2, (ph.eval_fixed hd a).2, he,
      Diagram.choice]

/-- The parts of a function make it again, without a new node. -/
theorem Sound.make_cofactors (hd : d.Sound) {r0 r1 : Handle} (hc : d.cofactors r v = (r0, r1)) :
    (d.make ⟨v, r0, r1⟩).2 = d := by
  have hsame : ∀ f, (d.make ⟨v, f, f⟩).2 = d := fun f => by simp [make]
  unfold cofactors at hc
  split at hc
  · rename_i n hn
    split at hc
    · rename_i e
      injection hc with h0 h1
      have hu : d.unique[(⟨v, r0, r1⟩ : Node)]? = some r := by
        rw [hd.unique, hn, ← e, ← h0, ← h1]
      rw [make, if_neg (by rw [← h0, ← h1]; exact hd.reduced r n hn), hu]
    · injection hc with h0 h1
      rw [← h0, ← h1]
      exact hsame r
  · injection hc with h0 h1
    rw [← h0, ← h1]
    exact hsame r

/-- One split whose result is there already, given that for what lies lower. -/
theorem Ready.split_known {depth : Nat} (ih : ∀ {d : Diagram} {f g h r : Handle}, d.Ready → d.Live f → d.Live g →
      d.Live h → d.Live r → (∀ a, d.eval r a = d.choice f g h a) → d.varCount < depth + d.top3 f g h →
      d.Alike (iteWithin depth d f g h).2)
    (hd : d.Ready) (hf : d.Live f) (hg : d.Live g) (hh : d.Live h) (hr : d.Live r)
    (he : ∀ a, d.eval r a = d.choice f g h a) (hn : d.node? f = some n) (hdepth : d.varCount < depth + 1 + d.top3 f g h) :
    d.Alike (splitWithin depth d f g h).2 := by
  have htop : d.top3 f g h < d.varCount := Nat.lt_of_le_of_lt (Nat.min_le_left _ _) (hd.valid.graded.bound f n hn)
  generalize hvdef : d.varAt.getD (d.top3 f g h) 0 = v
  obtain ⟨f0, f1, g0, g1, h0, h1, hv, ⟨ef, pf⟩, ⟨eg, pg⟩, ⟨eh, ph⟩, hlow, hhigh⟩ := hd.valid.halves hf hg hh hn hvdef
  -- the result lies no higher than its operands, so it has parts as well
  have hle : d.levelOf.getD v 0 ≤ d.level r := by
    rw [← hvdef, (hd.valid.ordered.var _ htop).2]
    exact (hd.builds hr he).le_level hd.valid
  obtain ⟨r0, r1, er, pr⟩ := hd.valid.cofactors hr hv hle
  obtain ⟨he0, he1⟩ := Parts.choice hd.valid pf pg ph pr he
  have hb₁ := iteWithin_spec depth hd pf.high.1 pg.high.1 ph.high.1 (by omega)
  have ha₁ := ih hd pf.high.1 pg.high.1 ph.high.1 pr.high.1 he1 (by omega)
  have hr₁ := hb₁.eq_of_known hd.valid pr.high.1 he1
  simp only [splitWithin, hvdef, ef, eg, eh]
  generalize iteWithin depth d f1 g1 h1 = built at hb₁ ha₁ hr₁ ⊢
  obtain ⟨high, d₁⟩ := built
  simp only at hr₁ ha₁ ⊢
  subst hr₁
  have hk := hb₁.keeps
  have hv₁ := hb₁.ready.valid
  have he0' : ∀ a, d₁.eval r0 a = d₁.choice f0 g0 h0 a := fun a => by
    rw [hk.eval hd.valid hv₁ pr.low.1, choice_keeps hk hd.valid hv₁ pf.low.1 pg.low.1 ph.low.1, he0]
  have hdepth' : d₁.varCount < depth + d₁.top3 f0 g0 h0 := by
    rw [ha₁.varCount, ha₁.top3]
    omega
  have hb₂ := iteWithin_spec depth hb₁.ready (ha₁.live pf.low.1) (ha₁.live pg.low.1) (ha₁.live ph.low.1) hdepth'
  have ha₂ := ih hb₁.ready (ha₁.live pf.low.1) (ha₁.live pg.low.1) (ha₁.live ph.low.1) (ha₁.live pr.low.1) he0' hdepth'
  have hr₂ := hb₂.eq_of_known hv₁ (ha₁.live pr.low.1) he0'
  generalize iteWithin depth d₁ f0 g0 h0 = built at hb₂ ha₂ hr₂ ⊢
  obtain ⟨low, d₂⟩ := built
  simp only at hr₂ ha₂ ⊢
  subst hr₂
  have hmade := (make_alike (ha₁.trans ha₂) ⟨v, low, high⟩).diagram
  rw [hd.valid.sound.make_cofactors er] at hmade
  exact hmade.setCache d.cache _

/-- **Nothing is made when the result is there already**, whatever the memo knows. -/
theorem ite_known : ∀ (depth : Nat) {d : Diagram} {f g h r : Handle}, d.Ready → d.Live f → d.Live g → d.Live h →
    d.Live r → (∀ a, d.eval r a = d.choice f g h a) → d.varCount < depth + d.top3 f g h →
    d.Alike (iteWithin depth d f g h).2 := by
  intro depth
  induction depth with
  | zero =>
    intro d f g h r hd _ _ _ _ _ hdepth
    have := hd.valid.level_le f
    simp only [top3] at hdepth
    omega
  | succ depth ih =>
    intro d f g h r hd hf hg hh hr he hdepth
    by_cases h1 : f = .top
    · rw [iteWithin, if_pos h1]
      exact .refl d
    by_cases h2 : f = .bot
    · rw [iteWithin, if_neg h1, if_pos h2]
      exact .refl d
    by_cases h3 : g = h
    · rw [iteWithin, if_neg h1, if_neg h2, if_pos h3]
      exact .refl d
    by_cases h4 : g = .top ∧ h = .bot
    · rw [iteWithin, if_neg h1, if_neg h2, if_neg h3, if_pos h4]
      exact .refl d
    obtain ⟨-, hent⟩ := d.cache.get_entries (f, g, h)
    cases hgot : d.cache.get (f, g, h) with
    | mk known cache =>
      rw [hgot] at hent
      have hlook : d.Alike { d with cache := cache } := (Alike.refl d).setCache d.cache cache
      cases known with
      | some r =>
        rw [iteWithin, if_neg h1, if_neg h2, if_neg h3, if_neg h4, hgot]
        exact hlook
      | none =>
        rw [iteWithin_succ h1 h2 h3 h4 hgot]
        obtain ⟨n, hn⟩ : ∃ n, d.node? f = some n := (hf.resolve_left h2).resolve_left h1
        obtain ⟨hd₁, -⟩ := hd.valid.setCache (fun f' g' h' r' hr' => hd.memo f' g' h' r' (by rwa [hent] at hr'))
        refine hlook.trans (hd₁.split_known ih (hlook.live hf) (hlook.live hg) (hlook.live hh) (hlook.live hr) (fun a => ?_)
          ((hlook.node? f).trans hn) ?_)
        · rw [choice, hlook.eval, hlook.eval, hlook.eval, hlook.eval, he, choice]
        · rw [hlook.varCount, hlook.top3]
          exact hdepth

/-! ### Two memos -/

/-- Two diagrams in order that differ in their memos only. -/
structure Twins (d e : Diagram) : Prop where
  left  : d.Ready
  right : e.Ready
  alike : d.Alike e

theorem Alike.choice (h : d.Alike e) (f g k : Handle) : e.choice f g k = d.choice f g k := by
  funext a
  rw [Diagram.choice, Diagram.choice, h.eval, h.eval, h.eval]

/-- A look-up that finds nothing leaves twins. -/
theorem Twins.look (h : Twins d e) (k k' : CacheKey) :
    Twins { d with cache := (d.cache.get k).2 } { e with cache := (e.cache.get k').2 } := by
  have hget : ∀ {d : Diagram} (k : CacheKey), d.Ready → d.Remembers (d.cache.get k).2 := fun {d} k hd f' g' h' r hr =>
    hd.memo f' g' h' r (by rwa [(d.cache.get_entries k).2] at hr)
  exact ⟨(h.left.valid.setCache (hget k h.left)).1, (h.right.valid.setCache (hget k' h.right)).1, h.alike.setCache _ _⟩

/-- Where the result is new the operands are no terminal case, and no memo knows it. -/
theorem Ready.unknown (hd : d.Ready) (hf : d.Live f) (hg : d.Live g) (hh : d.Live h)
    (hno : ∀ r, d.Live r → ¬ ∀ a, d.eval r a = d.choice f g h a) :
    (f ≠ .top ∧ f ≠ .bot ∧ g ≠ h ∧ ¬ (g = .top ∧ h = .bot)) ∧ d.cache.get (f, g, h) = (none, (d.cache.get (f, g, h)).2) := by
  refine ⟨⟨?_, ?_, ?_, ?_⟩, ?_⟩
  · rintro rfl
    exact hno g hg (fun a => by rw [choice, hd.valid.eval_top]; rfl)
  · rintro rfl
    exact hno h hh (fun a => by rw [choice, hd.valid.eval_bot]; rfl)
  · rintro rfl
    exact hno g hg (fun a => by rw [choice]; simp)
  · rintro ⟨rfl, rfl⟩
    exact hno f hf (fun a => by rw [choice, hd.valid.eval_top, hd.valid.eval_bot]; simp)
  · have hget := (d.cache.get_entries (f, g, h)).1
    cases hk : d.cache.entries[(f, g, h)]? with
    | none => exact Prod.ext (hget.trans hk) rfl
    | some r =>
      obtain ⟨-, -, -, hr, he⟩ := hd.memo f g h r hk
      exact absurd he (hno r hr)

/-- One split of twins, given if-then-else for what lies lower. -/
theorem Twins.split {depth : Nat} (ih : ∀ {d e : Diagram} {f g h : Handle}, Twins d e → d.Live f → d.Live g → d.Live h →
      d.varCount < depth + d.top3 f g h → Agrees (iteWithin depth d f g h) (iteWithin depth e f g h))
    (t : Twins d e) (hf : d.Live f) (hg : d.Live g) (hh : d.Live h) (hn : d.node? f = some n)
    (hdepth : d.varCount < depth + 1 + d.top3 f g h) :
    Agrees (splitWithin depth d f g h) (splitWithin depth e f g h) := by
  have hd := t.left
  generalize hvdef : d.varAt.getD (d.top3 f g h) 0 = v
  obtain ⟨f0, f1, g0, g1, h0, h1, -, ⟨ef, pf⟩, ⟨eg, pg⟩, ⟨eh, ph⟩, hlow, hhigh⟩ := hd.valid.halves hf hg hh hn hvdef
  have hb₁ := iteWithin_spec depth hd pf.high.1 pg.high.1 ph.high.1 (by omega)
  have hb₁' := iteWithin_spec depth t.right (t.alike.live pf.high.1) (t.alike.live pg.high.1) (t.alike.live ph.high.1)
    (by rw [t.alike.varCount, t.alike.top3]; omega)
  have ha₁ := ih t pf.high.1 pg.high.1 ph.high.1 (by omega)
  simp only [splitWithin, t.alike.top3, t.alike.varAt, t.alike.cofactors, hvdef, ef, eg, eh]
  generalize iteWithin depth d f1 g1 h1 = built at hb₁ ha₁ ⊢
  generalize iteWithin depth e f1 g1 h1 = built' at hb₁' ha₁ ⊢
  obtain ⟨high, d₁⟩ := built
  obtain ⟨high', e₁⟩ := built'
  obtain ⟨rfl, ha₁⟩ := ha₁
  have hk := hb₁.keeps
  have ha₂ := ih ⟨hb₁.ready, hb₁'.ready, ha₁⟩ (hk.within.live pf.low.1) (hk.within.live pg.low.1)
    (hk.within.live ph.low.1) (by rw [hk.top3 hb₁.ready.valid.sound pf.low.1 pg.low.1 ph.low.1, hk.varCount]; omega)
  simp only at ha₂ ⊢
  generalize iteWithin depth d₁ f0 g0 h0 = built at ha₂ ⊢
  generalize iteWithin depth e₁ f0 g0 h0 = built' at ha₂ ⊢
  obtain ⟨low, d₂⟩ := built
  obtain ⟨low', e₂⟩ := built'
  obtain ⟨rfl, ha₂⟩ := ha₂
  obtain ⟨hr, hmade⟩ := make_alike ha₂ ⟨v, low', high'⟩
  exact ⟨hr, hmade.setCache _ _⟩

/-- **If-then-else does not show the memo.**  A result that is there already is found by both; one that is new is known
to neither memo, so both split. -/
theorem iteWithin_alike : ∀ (depth : Nat) {d e : Diagram} {f g h : Handle}, Twins d e → d.Live f → d.Live g → d.Live h →
    d.varCount < depth + d.top3 f g h → Agrees (iteWithin depth d f g h) (iteWithin depth e f g h) := by
  intro depth
  induction depth with
  | zero =>
    intro d e f g h t _ _ _ hdepth
    have := t.left.valid.level_le f
    simp only [top3] at hdepth
    omega
  | succ depth ih =>
    intro d e f g h t hf hg hh hdepth
    have ha := t.alike
    have hdepth' : e.varCount < depth + 1 + e.top3 f g h := by rwa [ha.varCount, ha.top3]
    by_cases hknown : ∃ r, d.Live r ∧ ∀ a, d.eval r a = d.choice f g h a
    · obtain ⟨r, hr, he⟩ := hknown
      have he' : ∀ a, e.eval r a = e.choice f g h a := fun a => by rw [ha.eval, ha.choice, he]
      have h1 := (iteWithin_spec _ t.left hf hg hh hdepth).eq_of_known t.left.valid hr he
      have h2 := (iteWithin_spec _ t.right (ha.live hf) (ha.live hg) (ha.live hh) hdepth').eq_of_known t.right.valid
        (ha.live hr) he'
      have h3 := ite_known _ t.left hf hg hh hr he hdepth
      have h4 := ite_known _ t.right (ha.live hf) (ha.live hg) (ha.live hh) (ha.live hr) he' hdepth'
      exact ⟨h2.trans h1.symm, (h3.symm.trans ha).trans h4⟩
    · have hno : ∀ r, d.Live r → ¬ ∀ a, d.eval r a = d.choice f g h a := fun r hr he => hknown ⟨r, hr, he⟩
      have hno' : ∀ r, e.Live r → ¬ ∀ a, e.eval r a = e.choice f g h a := fun r hr he =>
        hno r (ha.symm.live hr) (fun a => by rw [← ha.eval, he, ha.choice])
      obtain ⟨⟨h1, h2, h3, h4⟩, hget⟩ := t.left.unknown hf hg hh hno
      obtain ⟨-, hget'⟩ := t.right.unknown (ha.live hf) (ha.live hg) (ha.live hh) hno'
      rw [iteWithin_succ h1 h2 h3 h4 hget, iteWithin_succ h1 h2 h3 h4 hget']
      obtain ⟨n, hn⟩ : ∃ n, d.node? f = some n := (hf.resolve_left h2).resolve_left h1
      exact (t.look (f, g, h) (f, g, h)).split ih hf hg hh hn hdepth

theorem Twins.ite (t : Twins d e) (hf : d.Live f) (hg : d.Live g) (hh : d.Live h) : Agrees (d.ite f g h) (e.ite f g h) := by
  rw [Diagram.ite, Diagram.ite, t.alike.varCount]
  exact iteWithin_alike _ t hf hg hh (by omega)

/-! ## What is built on if-then-else -/

theorem Twins.and (t : Twins d e) (hf : d.Live f) (hg : d.Live g) : Agrees (d.and f g) (e.and f g) := t.ite hf hg live_bot

theorem Twins.or (t : Twins d e) (hf : d.Live f) (hg : d.Live g) : Agrees (d.or f g) (e.or f g) := t.ite hf live_top hg

/-- A list of functions put together from the left by a connective. -/
theorem Twins.foldl {op : Diagram → Handle → Handle → Handle × Diagram} {join : Bool → Bool → Bool}
    (hop : ∀ {d : Diagram} {f g : Handle}, d.Ready → d.Live f → d.Live g →
      d.Builds (fun a => join (d.eval f a) (d.eval g a)) (op d f g))
    (hag : ∀ {d e : Diagram} {f g : Handle}, Twins d e → d.Live f → d.Live g → Agrees (op d f g) (op e f g)) :
    ∀ (fs : List Handle) {d e : Diagram} {f : Handle}, Twins d e → d.Live f → (∀ g ∈ fs, d.Live g) →
      Agrees (fs.foldl (fun (acc, d) f => op d acc f) (f, d)) (fs.foldl (fun (acc, d) f => op d acc f) (f, e))
  | [],      _, _, _, t, _,  _   => ⟨rfl, t.alike⟩
  | g :: gs, d, e, f, t, hf, hgs => by
    obtain ⟨hg, hgs⟩ := List.forall_mem_cons.1 hgs
    have hb := hop t.left hf hg
    have hb' := hop t.right (t.alike.live hf) (t.alike.live hg)
    have ha := hag t hf hg
    rw [List.foldl_cons, List.foldl_cons]
    simp only
    generalize op d f g = built at hb ha ⊢
    generalize op e f g = built' at hb' ha ⊢
    obtain ⟨k, d₁⟩ := built
    obtain ⟨k', e₁⟩ := built'
    obtain ⟨rfl, ha⟩ := ha
    exact Twins.foldl hop hag gs ⟨hb.ready, hb'.ready, ha⟩ hb.live (fun g hg => hb.keeps.within.live (hgs g hg))

theorem Twins.branch (t : Twins d e) (v : Nat) {low high : Handle} (hlow : d.Live low) (hhigh : d.Live high) :
    Agrees (d.branch v low high) (e.branch v low high) := by
  have ha := ensureVars_alike t.alike (v + 1)
  have hd := (t.left.ensureVars (a := fun _ => false) (v + 1)).1
  have he := (t.right.ensureVars (a := fun _ => false) (v + 1)).1
  have hw : d.Within (d.ensureVars (v + 1)) := fun _ _ h => h
  have hlow' := hw.live hlow
  have hhigh' := hw.live hhigh
  unfold Diagram.branch
  generalize d.ensureVars (v + 1) = d₁ at ha hd hlow' hhigh' ⊢
  generalize e.ensureVars (v + 1) = e₁ at ha he ⊢
  simp only [ha.levelOf, ha.level]
  split
  · exact ⟨rfl, ha⟩
  · split
    · exact make_alike ha _
    · obtain ⟨hr, hv⟩ := var_alike ha v
      obtain ⟨hd₂, hw₂, -, -, hx, -⟩ := var_spec hd v
      obtain ⟨he₂, -⟩ := var_spec he v
      rw [hr]
      exact Twins.ite ⟨hd₂, he₂, hv⟩ hx (hw₂.live hhigh') (hw₂.live hlow')

theorem Twins.reduceNodes : ∀ (ns : Graph) {done : Array Handle} {d e : Diagram}, Twins d e → (∀ f ∈ done, d.Live f) →
    Agrees (reduceNodes ns done d) (reduceNodes ns done e)
  | [],                    _,    _, _, t, _     => ⟨rfl, t.alike⟩
  | .terminal value :: ns, done, d, _, t, hdone => by
    refine Twins.reduceNodes ns t (fun f hf => ?_)
    rcases Array.mem_push.1 hf with hf | rfl
    · exact hdone f hf
    · exact live_ofBool value
  | .branch v l h :: ns,   done, d, e, t, hdone => by
    unfold Diagram.reduceNodes
    split
    · rename_i low high hl hh
      have hlow := hdone low (Array.mem_of_getElem? hl)
      have hhigh := hdone high (Array.mem_of_getElem? hh)
      obtain ⟨hr, ha⟩ := t.branch v hlow hhigh
      obtain ⟨hg, hlive, -⟩ := branch_spec t.left v hlow hhigh
      obtain ⟨hg', -, -⟩ := branch_spec t.right v (t.alike.live hlow) (t.alike.live hhigh)
      simp only [hr]
      refine Twins.reduceNodes ns ⟨hg.ready, hg'.ready, ha⟩ (fun f hf => ?_)
      rcases Array.mem_push.1 hf with hf | rfl
      · exact hg.within.live (hdone f hf)
      · exact hlive
    · exact ⟨rfl, t.alike⟩

theorem Twins.reduce (t : Twins d e) (graph : Graph) (root : Nat) : Agrees (d.reduce graph root) (e.reduce graph root) := by
  unfold Diagram.reduce
  split
  · exact ⟨rfl, t.alike⟩
  · have hnone : ∀ f ∈ (#[] : Array Handle), d.Live f := fun f hf => by simp at hf
    obtain ⟨hr, ha⟩ := Twins.reduceNodes (graph.take (root + 1)) t hnone
    generalize Diagram.reduceNodes (graph.take (root + 1)) #[] d = built at hr ha ⊢
    generalize Diagram.reduceNodes (graph.take (root + 1)) #[] e = built' at hr ha ⊢
    obtain ⟨result, d₁⟩ := built
    obtain ⟨result', e₁⟩ := built'
    simp only at hr ha
    subst hr
    cases result' with
    | error x => exact ⟨rfl, ha⟩
    | ok done =>
      simp only
      split
      · exact ⟨rfl, ha⟩
      · exact ⟨rfl, ha⟩

/-! ## Any operation -/

/-- What an operation hands back. -/
inductive Outcome where
  | nothing
  | function (f : Handle)
  | reduced (result : Except Error Handle)
  | moved (result : Except Error Unit)
  | number (n : Nat)

/-- What an operation hands back, next to the diagram afterwards. -/
def Operation.outcome (d : Diagram) : Operation → Outcome
  | var v              => .function (d.var v).1
  | newVar             => .function d.newVar.1
  | ite f g h          => .function (d.ite f g h).1
  | not f              => .function (d.not f).1
  | and f g            => .function (d.and f g).1
  | or f g             => .function (d.or f g).1
  | andAll fs          => .function (d.andAll fs).1
  | orAll fs           => .function (d.orAll fs).1
  | restrict f v value => .function (d.restrict f v value).1
  | reduce graph root  => .reduced (d.reduce graph root).1
  | swap level         => .moved ((d.swap level).map (fun _ => ()))
  | moveVar v target   => .moved (d.moveVar v target).1
  | sift               => .number d.sift.1
  | reference _        => .nothing
  | dereference _      => .nothing
  | collect            => .number d.collect.1

/-- An operation as a step: what it hands back, and the diagram afterwards. -/
def step (d : Diagram) (op : Operation) : Outcome × Diagram := (op.outcome d, op.apply d)

theorem Agrees.function {built built' : Handle × Diagram} (h : Agrees built built') :
    Agrees (Outcome.function built.1, built.2) (Outcome.function built'.1, built'.2) := ⟨by rw [h.result], h.diagram⟩

theorem swap_alike (h : d.Alike e) (level : Nat) : Agrees (d.step (.swap level)) (e.step (.swap level)) := by
  simp only [step, Operation.outcome, Operation.apply, swap, h.varAt]
  by_cases hl : level + 1 < d.varAt.size
  · simp only [if_pos hl]
    exact ⟨rfl, exchange_alike h level⟩
  · simp only [if_neg hl]
    exact ⟨rfl, h⟩

/-- **No operation on live handles shows the memo.** -/
theorem Twins.step (t : Twins d e) (op : Operation) (hop : ∀ f ∈ op.operands, d.Live f) :
    Agrees (d.step op) (e.step op) ∧ Twins (op.apply d) (op.apply e) := by
  have hag : Agrees (d.step op) (e.step op) := by
    have ha := t.alike
    cases op with
    | var v => exact (var_alike ha v).function
    | newVar => exact (newVar_alike ha).function
    | ite f g h =>
      obtain ⟨hf, hg, hh⟩ : d.Live f ∧ d.Live g ∧ d.Live h := by simpa [Operation.operands] using hop
      exact (t.ite hf hg hh).function
    | not f => exact (t.ite (hop f List.mem_cons_self) live_bot live_top).function
    | and f g =>
      obtain ⟨hf, hg⟩ : d.Live f ∧ d.Live g := by simpa [Operation.operands] using hop
      exact (t.and hf hg).function
    | or f g =>
      obtain ⟨hf, hg⟩ : d.Live f ∧ d.Live g := by simpa [Operation.operands] using hop
      exact (t.or hf hg).function
    | andAll fs => exact (Twins.foldl and_spec Twins.and fs t live_top hop).function
    | orAll fs => exact (Twins.foldl or_spec Twins.or fs t live_bot hop).function
    | restrict f v value => exact (restrict_alike ha f v value).function
    | reduce graph root =>
      obtain ⟨hr, hd⟩ := t.reduce graph root
      exact ⟨by rw [Diagram.step, Operation.outcome, hr]; rfl, hd⟩
    | swap level => exact swap_alike ha level
    | moveVar v target =>
      obtain ⟨hr, hd⟩ := moveVar_alike ha v target
      exact ⟨by rw [Diagram.step, Operation.outcome, hr]; rfl, hd⟩
    | sift =>
      obtain ⟨hr, hd⟩ := sift_alike ha
      exact ⟨by rw [Diagram.step, Operation.outcome, hr]; rfl, hd⟩
    | reference f =>
      exact ⟨rfl, ha.nodes, ha.free, ha.unique, ha.levelOf, ha.varAt, congrArg (addRef f) ha.refs, ha.growth⟩
    | dereference f =>
      exact ⟨rfl, ha.nodes, ha.free, ha.unique, ha.levelOf, ha.varAt, congrArg (dropRef f) ha.refs, ha.growth⟩
    | collect =>
      obtain ⟨hr, hd⟩ := collect_alike ha
      exact ⟨by rw [Diagram.step, Operation.outcome, hr]; rfl, hd⟩
  exact ⟨hag, t.left.apply op hop, t.right.apply op (fun f hf => t.alike.live (hop f hf)), hag.diagram⟩

/-! ## Runs -/

/-- What operations hand back one after the other, and the diagram at the end. -/
def run : Diagram → List Operation → List Outcome × Diagram
  | d, []        => ([], d)
  | d, op :: ops =>
    let (outcome, next) := d.step op
    let (outcomes, last) := run next ops
    (outcome :: outcomes, last)

/-- Every operation is on handles that are live when it is its turn. -/
def Admits : Diagram → List Operation → Prop
  | _, []        => True
  | d, op :: ops => (∀ f ∈ op.operands, d.Live f) ∧ (op.apply d).Admits ops

theorem Twins.run : ∀ (ops : List Operation) {d e : Diagram}, Twins d e → d.Admits ops → Agrees (d.run ops) (e.run ops)
  | [],        _, _, t, _ => ⟨rfl, t.alike⟩
  | op :: ops, d, e, t, h => by
    obtain ⟨⟨hr, -⟩, t'⟩ := t.step op h.1
    obtain ⟨hrs, ha⟩ := Twins.run ops t' h.2
    exact ⟨congrArg₂ List.cons hr hrs, ha⟩

theorem twins_empty (c₁ c₂ : Nat) (growth : Float) : Twins (.empty c₁ growth) (.empty c₂ growth) :=
  ⟨ready_empty c₁ growth, ready_empty c₂ growth, rfl, rfl, rfl, rfl, rfl, rfl, rfl⟩

/-- **The capacity of the memo does not show**: two diagrams that differ in it hand back the same, operation by operation,
and end with the same nodes, free slots and order of variables.  Their tables of nodes are the same hash table, filled and
emptied in the same order. -/
theorem run_capacity (c₁ c₂ : Nat) (growth : Float) (ops : List Operation) (h : (empty c₁ growth).Admits ops) :
    ((empty c₂ growth).run ops).1 = ((empty c₁ growth).run ops).1 ∧
    ((empty c₁ growth).run ops).2.Alike ((empty c₂ growth).run ops).2 := by
  obtain ⟨hr, ha⟩ := (twins_empty c₁ c₂ growth).run ops h
  exact ⟨hr, ha⟩

namespace Exchanged

/-- Two variables, their conjunction, the other order, the conjunction again, and a collection. -/
def plan : List Operation := [.var 0, .var 1, .and x.1 y.1, .swap 0, .and y.1 x.1, .collect]

theorem admits_plan : start.Admits plan := by
  have h0 : Reached 4 1.5 start := .empty
  obtain ⟨hd₁, -, -, -, hx, -⟩ := var_spec h0.ready 0
  obtain ⟨-, hw, -, -, hy, -⟩ := var_spec hd₁ 1
  obtain ⟨-, -, hx', hy', -⟩ := turned_spec
  refine ⟨fun f hf => (nomatch hf), fun f hf => (nomatch hf), fun f hf => ?_, fun f hf => (nomatch hf), fun f hf => ?_,
    fun f hf => (nomatch hf), trivial⟩
  · simp only [Operation.operands, List.mem_cons, List.not_mem_nil, or_false] at hf
    rcases hf with rfl | rfl
    · exact hw.live hx
    · exact hy
  · simp only [Operation.operands, List.mem_cons, List.not_mem_nil, or_false] at hf
    rcases hf with rfl | rfl
    · exact hy'
    · exact hx'

end Exchanged

open Exchanged in
/-- A diagram with room for four results in its memo, and one without a memo. -/
theorem run_capacity_exchanged : (empty 4 1.5).Admits plan ∧ ((empty 0 1.5).run plan).1 = ((empty 4 1.5).run plan).1 ∧
    ((empty 4 1.5).run plan).2.Alike ((empty 0 1.5).run plan).2 := by
  obtain ⟨h1, h2⟩ := run_capacity 4 0 1.5 plan admits_plan
  exact ⟨admits_plan, h1, h2⟩

end Diagram
end Credence
