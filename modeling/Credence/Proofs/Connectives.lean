import Mathlib.Data.List.Basic
import Credence.Proofs.Evaluation
/-!
# What the connectives compute

If-then-else splits its operands on the highest variable and puts the results together (`ite_spec`); its memo holds
results for functions, and those do not change.  The other connectives are cases of it.  Building a function leaves the
functions there were as they are (`Builds`).
-/
namespace Credence

/-! ## The memo -/

namespace Cache

theorem get_entries (c : Cache) (k : CacheKey) :
    (c.get k).1 = c.entries[k]? ∧ (c.get k).2.entries = c.entries := by
  unfold get
  cases c.entries[k]? with
  | some f => exact ⟨rfl, rfl⟩
  | none => exact ⟨rfl, rfl⟩

/-- The memo after an insertion holds what was inserted and what was there. -/
theorem insert_entries {c : Cache} {k k' : CacheKey} {f r : Handle}
    (h : (c.insert k f).entries[k']? = some r) : k' = k ∧ r = f ∨ c.entries[k']? = some r := by
  have hput : ∀ {k' r}, (c.entries.insert k f)[k']? = some r → k' = k ∧ r = f ∨ c.entries[k']? = some r := by
    intro k' r h
    rw [Std.HashMap.getElem?_insert] at h
    split at h
    · rename_i e
      injection h with h
      exact .inl ⟨(eq_of_beq e).symm, h.symm⟩
    · exact .inr h
  have herase : ∀ {j}, ((c.entries.insert k f).erase j)[k']? = some r → k' = k ∧ r = f ∨ c.entries[k']? = some r := by
    intro j h
    rw [Std.HashMap.getElem?_erase] at h
    split at h
    · cases h
    · exact hput h
  unfold insert at h
  split at h
  · exact .inr h
  · split at h
    · exact hput h
    · simp only at h
      split at h
      · unfold dropOldest at h
        split at h
        · exact herase h
        · split at h
          · exact herase h
          · exact hput h
      · exact hput h

end Cache

namespace Diagram

variable {d d' d'' : Diagram} {f g h : Handle} {n : Node} {a : Nat → Bool}

/-! ## Diagrams that only grow -/

/-- The same order and the same references, and every node is still there. -/
structure Keeps (d d' : Diagram) : Prop where
  within  : d.Within d'
  levelOf : d'.levelOf = d.levelOf
  varAt   : d'.varAt = d.varAt
  refs    : d'.refs = d.refs

theorem Keeps.refl (d : Diagram) : d.Keeps d := ⟨fun _ _ h => h, rfl, rfl, rfl⟩

theorem Keeps.trans (h : d.Keeps d') (h' : d'.Keeps d'') : d.Keeps d'' :=
  ⟨fun f n hn => h'.within f n (h.within f n hn), h'.levelOf.trans h.levelOf, h'.varAt.trans h.varAt, h'.refs.trans h.refs⟩

theorem Keeps.varCount (h : d.Keeps d') : d'.varCount = d.varCount := congrArg Array.size h.levelOf

/-- A live handle is where it was. -/
theorem Keeps.level (h : d.Keeps d') (hs : d'.Sound) (hf : d.Live f) : d'.level f = d.level f := by
  cases hn : d.node? f with
  | some n => rw [level_of_node hn, level_of_node (h.within f n hn), h.levelOf]
  | none =>
    have hn' : d'.node? f = none := by
      rcases hf.terminal hn with rfl | rfl
      · exact hs.bot
      · exact hs.top
    rw [level_of_none hn, level_of_none hn', h.varCount]

theorem Keeps.eval (h : d.Keeps d') (hv : d.Valid) (hv' : d'.Valid) (hf : d.Live f) : d'.eval f a = d.eval f a :=
  h.within.eval hv.sound hv'.sound hv.graded hv'.graded hf

/-- A node whose branches lie below its variable keeps a diagram valid. -/
theorem Makes.valid (hm : d.Makes n f d') (hv : d.Valid) (hlow : d.Live n.low) (hhigh : d.Live n.high)
    (hl : d.levelOf.getD n.var 0 < d.level n.low) (hh : d.levelOf.getD n.var 0 < d.level n.high) :
    d'.Valid ∧ d.Keeps d' := by
  obtain ⟨e1, e2, e3, -⟩ := hm.same
  have hk : d.Keeps d' := ⟨hm.within, e1, e2, e3⟩
  have hs' := hm.sound hv.sound
  refine ⟨⟨hs', ⟨by rw [e1, e2]; exact hv.ordered.size, ?_, ?_⟩, fun g m hg => ?_⟩, hk⟩
  · rw [hk.varCount, e1, e2]
    exact hv.ordered.level
  · rw [hk.varCount, e1, e2]
    exact hv.ordered.var
  · have hold : ∀ {g m}, d.node? g = some m → d'.level g < d'.level m.low ∧ d'.level g < d'.level m.high := by
      intro g m hg
      obtain ⟨h1, h2⟩ := hv.sound.live g m hg
      rw [hk.level hs' (live_node hg), hk.level hs' h1, hk.level hs' h2]
      exact hv.below g m hg
    cases hm with
    | merged _ => exact hold hg
    | known _ _ => exact hold hg
    | new _ _ hf h2 hp _ =>
      have hg' := hg
      rw [hp.node] at hg
      split at hg
      · injection hg with hg
        subst hg
        rw [level_of_node hg', hk.level hs' hlow, hk.level hs' hhigh, e1]
        exact ⟨hl, hh⟩
      · exact hold hg

/-! ## Diagrams with a memo -/

/-- Every remembered result is the if-then-else of its operands. -/
def Remembers (d : Diagram) (c : Cache) : Prop := ∀ (f g h r : Handle), c.entries[(f, g, h)]? = some r →
  d.Live f ∧ d.Live g ∧ d.Live h ∧ d.Live r ∧ ∀ a, d.eval r a = if d.eval f a then d.eval g a else d.eval h a

/-- A valid diagram with a memo that is right. -/
structure Ready (d : Diagram) : Prop where
  valid : d.Valid
  memo  : d.Remembers d.cache

theorem Remembers.keep {c : Cache} (hm : d.Remembers c) (hk : d.Within d') (hv : d.Valid) (hv' : d'.Valid) :
    d'.Remembers c := by
  intro f g h r hr
  obtain ⟨h1, h2, h3, h4, h5⟩ := hm f g h r hr
  refine ⟨hk.live h1, hk.live h2, hk.live h3, hk.live h4, fun a => ?_⟩
  have heval : ∀ {f}, d.Live f → d'.eval f a = d.eval f a := fun hf =>
    hk.eval hv.sound hv'.sound hv.graded hv'.graded hf
  rw [heval h1, heval h2, heval h3, heval h4, h5]

/-- A change of the memo alone. -/
theorem Valid.setCache (hv : d.Valid) {c : Cache} (hc : d.Remembers c) :
    ({ d with cache := c } : Diagram).Ready ∧ d.Keeps { d with cache := c } := by
  have hv' : ({ d with cache := c } : Diagram).Valid :=
    ⟨⟨hv.sound.size, hv.sound.bot, hv.sound.top, hv.sound.var, hv.sound.reduced, hv.sound.live, hv.sound.unique,
      hv.sound.free, hv.sound.nodup⟩, ⟨hv.ordered.size, hv.ordered.level, hv.ordered.var⟩, hv.below⟩
  exact ⟨⟨hv', hc.keep (fun _ _ h => h) hv hv'⟩, fun _ _ h => h, rfl, rfl, rfl⟩

/-! ## The empty diagram -/

theorem empty_node (capacity : Nat) (growth : Float) (f : Handle) : (empty capacity growth).node? f = none := by
  obtain ⟨i⟩ := f
  rcases i with - | - | i
  · rfl
  · rfl
  · rfl

theorem ready_empty (capacity : Nat) (growth : Float) : (empty capacity growth).Ready := by
  have hnone := empty_node capacity growth
  have hno : ∀ {f : Handle} {n : Node}, (empty capacity growth).node? f ≠ some n := fun {f n} h => by
    rw [hnone f] at h
    cases h
  refine ⟨⟨⟨Nat.le_refl 2, hnone _, hnone _, fun _ _ h => absurd h hno, fun _ _ h => absurd h hno,
    fun _ _ h => absurd h hno, fun n f => ?_, fun s hs => (nomatch hs), List.nodup_nil⟩,
    ⟨rfl, fun v hv => absurd hv (Nat.not_lt_zero v), fun i hi => absurd hi (Nat.not_lt_zero i)⟩,
    fun _ _ h => absurd h hno⟩, fun f g h r hr => ?_⟩
  · rw [hnone f]
    simp [empty]
  · simp [empty, Cache.empty] at hr

/-! ## If-then-else -/

/-- The parts of a function on either side of a variable. -/
structure Parts (d : Diagram) (v : Nat) (f f0 f1 : Handle) : Prop where
  low  : d.Live f0 ∧ d.levelOf.getD v 0 < d.level f0
  high : d.Live f1 ∧ d.levelOf.getD v 0 < d.level f1
  eval : ∀ a, d.eval f a = if a v then d.eval f1 a else d.eval f0 a

/-- What a variable leaves of a function that tests none above it. -/
theorem Valid.cofactors (hd : d.Valid) (hf : d.Live f) {v : Nat} (hv : v < d.varCount)
    (hle : d.levelOf.getD v 0 ≤ d.level f) : ∃ f0 f1, d.cofactors f v = (f0, f1) ∧ d.Parts v f f0 f1 := by
  cases hn : d.node? f with
  | none =>
    have hlt : d.levelOf.getD v 0 < d.level f := by
      rw [level_of_none hn]
      exact (hd.ordered.level v hv).1
    have hc : d.cofactors f v = (f, f) := by simp [Diagram.cofactors, hn]
    exact ⟨f, f, hc, ⟨hf, hlt⟩, ⟨hf, hlt⟩, fun a => by simp⟩
  | some n =>
    by_cases e : n.var = v
    · subst e
      obtain ⟨h1, h2⟩ := hd.sound.live f n hn
      obtain ⟨h3, h4⟩ := hd.below f n hn
      rw [level_of_node hn] at h3 h4
      have hc : d.cofactors f n.var = (n.low, n.high) := by simp [Diagram.cofactors, hn]
      exact ⟨n.low, n.high, hc, ⟨h1, h3⟩, ⟨h2, h4⟩, fun a => hd.graded.eval_node hn⟩
    · have hlt : d.levelOf.getD v 0 < d.level f := by
        refine Nat.lt_of_le_of_ne hle (fun h => e ?_)
        rw [level_of_node hn] at h
        exact hd.ordered.level_inj (hd.sound.var f n hn) hv h.symm
      have hc : d.cofactors f v = (f, f) := by simp [Diagram.cofactors, hn, e]
      exact ⟨f, f, hc, ⟨hf, hlt⟩, ⟨hf, hlt⟩, fun a => by simp⟩

/-- What building a function from `d` comes to: a live handle with the values it should have. -/
structure Builds (d : Diagram) (value : (Nat → Bool) → Bool) (built : Handle × Diagram) : Prop where
  ready : built.2.Ready
  keeps : d.Keeps built.2
  live  : built.2.Live built.1
  eval  : ∀ a, built.2.eval built.1 a = value a

/-- Nothing to build. -/
theorem Ready.builds (hd : d.Ready) (hf : d.Live f) {value : (Nat → Bool) → Bool} (he : ∀ a, d.eval f a = value a) :
    d.Builds value (f, d) := ⟨hd, .refl d, hf, he⟩

/-- A node whose branches lie below its variable. -/
theorem Ready.make (hd : d.Ready) (hv : n.var < d.varCount) (hlow : d.Live n.low) (hhigh : d.Live n.high)
    (hl : d.levelOf.getD n.var 0 < d.level n.low) (hh : d.levelOf.getD n.var 0 < d.level n.high) :
    d.Builds (fun a => if a n.var then d.eval n.high a else d.eval n.low a) (d.make n) := by
  have hm := make_makes hd.valid.sound hv hlow hhigh
  obtain ⟨hv', hk⟩ := hm.valid hd.valid hlow hhigh hl hh
  have hmemo : (d.make n).2.Remembers (d.make n).2.cache := by
    have := hd.memo.keep hk.within hd.valid hv'
    rwa [← hm.same.2.2.2.1] at this
  refine ⟨⟨hv', hmemo⟩, hk, hm.live hlow, fun a => ?_⟩
  rw [hm.eval hv'.graded, hk.eval hd.valid hv' hlow, hk.eval hd.valid hv' hhigh]

theorem Valid.eval_top (hd : d.Valid) : d.eval .top a = true := by rw [eval_of_none hd.sound.top]; rfl

theorem Valid.eval_bot (hd : d.Valid) : d.eval .bot a = false := by rw [eval_of_none hd.sound.bot]; rfl

/-- The if-then-else of the values of three functions. -/
def choice (d : Diagram) (f g h : Handle) (a : Nat → Bool) : Bool := if d.eval f a then d.eval g a else d.eval h a

/-- The highest level of three functions. -/
def top3 (d : Diagram) (f g h : Handle) : Nat := min (d.level f) (min (d.level g) (d.level h))

theorem Builds.le_level {built : Handle × Diagram} (hb : d.Builds (d.choice f g h) built) (hd : d.Valid) :
    d.top3 f g h ≤ built.2.level built.1 := by
  have hle : d.top3 f g h ≤ d.varCount := Nat.le_trans (Nat.min_le_left _ _) (hd.level_le f)
  refine hb.ready.valid.le_level (by rw [hb.keeps.varCount]; exact hle) (fun v hv a x => ?_)
  rw [hb.keeps.levelOf, top3] at hv
  rw [hb.eval, hb.eval, choice, choice, hd.graded.eval_update (hd.not_tests (by omega)),
    hd.graded.eval_update (hd.not_tests (by omega)), hd.graded.eval_update (hd.not_tests (by omega))]

theorem Keeps.top3 (hk : d.Keeps d') (hs : d'.Sound) (hf : d.Live f) (hg : d.Live g) (hh : d.Live h) :
    d'.top3 f g h = d.top3 f g h := by
  rw [Diagram.top3, Diagram.top3, hk.level hs hf, hk.level hs hg, hk.level hs hh]

/-- The highest variable leaves two triples of functions, both of which lie lower. -/
theorem Valid.halves (hd : d.Valid) (hf : d.Live f) (hg : d.Live g) (hh : d.Live h) (hn : d.node? f = some n) {v : Nat}
    (hv : d.varAt.getD (d.top3 f g h) 0 = v) : ∃ f0 f1 g0 g1 h0 h1, v < d.varCount ∧
    (d.cofactors f v = (f0, f1) ∧ d.Parts v f f0 f1) ∧ (d.cofactors g v = (g0, g1) ∧ d.Parts v g g0 g1) ∧
    (d.cofactors h v = (h0, h1) ∧ d.Parts v h h0 h1) ∧ d.top3 f g h < d.top3 f0 g0 h0 ∧ d.top3 f g h < d.top3 f1 g1 h1 := by
  have hlt := hd.graded.bound f n hn
  obtain ⟨hvc, hlv⟩ := hd.ordered.var (d.top3 f g h) (by rw [top3]; omega)
  rw [hv] at hvc hlv
  have hle := Nat.le_of_eq hlv
  rw [top3] at hle
  obtain ⟨f0, f1, ef, pf⟩ := hd.cofactors hf hvc (by omega)
  obtain ⟨g0, g1, eg, pg⟩ := hd.cofactors hg hvc (by omega)
  obtain ⟨h0, h1, eh, ph⟩ := hd.cofactors hh hvc (by omega)
  refine ⟨f0, f1, g0, g1, h0, h1, hvc, ⟨ef, pf⟩, ⟨eg, pg⟩, ⟨eh, ph⟩, ?_, ?_⟩
  · rw [← hlv]
    exact Nat.lt_min.2 ⟨pf.low.2, Nat.lt_min.2 ⟨pg.low.2, ph.low.2⟩⟩
  · rw [← hlv]
    exact Nat.lt_min.2 ⟨pf.high.2, Nat.lt_min.2 ⟨pg.high.2, ph.high.2⟩⟩

theorem choice_keeps (hk : d.Keeps d') (hd : d.Valid) (hd' : d'.Valid) (hf : d.Live f) (hg : d.Live g) (hh : d.Live h) :
    d'.choice f g h a = d.choice f g h a := by
  rw [choice, choice, hk.eval hd hd' hf, hk.eval hd hd' hg, hk.eval hd hd' hh]

/-- The results for the two values of a variable make the result. -/
theorem Ready.join (hd : d.Ready) (hf : d.Live f) (hg : d.Live g) (hh : d.Live h) {v : Nat} (hv : v < d.varCount)
    {f0 f1 g0 g1 h0 h1 : Handle} (pf : d.Parts v f f0 f1) (pg : d.Parts v g g0 g1) (ph : d.Parts v h h0 h1)
    {high low r : Handle} {d₂ d₃ d₄ : Diagram} (hhigh : d.Builds (d.choice f1 g1 h1) (high, d₂))
    (hlow : d₂.Builds (d₂.choice f0 g0 h0) (low, d₃)) (hmade : d₃.make ⟨v, low, high⟩ = (r, d₄)) :
    d.Builds (d.choice f g h) (r, { d₄ with cache := d₄.cache.insert (f, g, h) r }) := by
  obtain ⟨⟨lf0, vf0⟩, ⟨lf1, vf1⟩, ef⟩ := pf
  obtain ⟨⟨lg0, vg0⟩, ⟨lg1, vg1⟩, eg⟩ := pg
  obtain ⟨⟨lh0, vh0⟩, ⟨lh1, vh1⟩, eh⟩ := ph
  have hk₂ := hhigh.keeps
  have hk₃ := hlow.keeps
  have hv₂ := hhigh.ready.valid
  have hv₃ := hlow.ready.valid
  have hhighl := hhigh.le_level hd.valid
  have hlowl := hlow.le_level hv₂
  rw [top3] at hhighl
  rw [top3, hk₂.level hv₂.sound lf0, hk₂.level hv₂.sound lg0, hk₂.level hv₂.sound lh0] at hlowl
  have hlevels : d₃.levelOf.getD v 0 = d.levelOf.getD v 0 := by rw [hk₃.levelOf, hk₂.levelOf]
  have hhigh₃ : d₃.Live high := hk₃.within.live hhigh.live
  have hm := make_makes (n := ⟨v, low, high⟩) hv₃.sound (by rw [hk₃.varCount, hk₂.varCount]; exact hv) hlow.live hhigh₃
  rw [hmade] at hm
  obtain ⟨hv₄, hk₄⟩ := hm.valid hv₃ hlow.live hhigh₃ (by simp only at hlowl ⊢; omega)
    (by rw [hk₃.level hv₃.sound hhigh.live]; simp only at hhighl ⊢; omega)
  have hk : d.Keeps d₄ := (hk₂.trans hk₃).trans hk₄
  have hr : d₄.Live r := hm.live hlow.live
  -- the value of the new function, from the values of its branches
  have heval : ∀ a, d₄.eval r a = d.choice f g h a := by
    intro a
    have hval1 : d₄.eval high a = d.choice f1 g1 h1 a := by
      rw [(hk₃.trans hk₄).eval hv₂ hv₄ hhigh.live]
      exact hhigh.eval a
    have hval0 : d₄.eval low a = d.choice f0 g0 h0 a := by
      rw [hk₄.eval hv₃ hv₄ hlow.live, ← choice_keeps hk₂ hd.valid hv₂ lf0 lg0 lh0]
      exact hlow.eval a
    rw [hm.eval hv₄.graded, hval0, hval1, choice, choice, choice, ef a, eg a, eh a]
    cases a v <;> simp
  have hmemo : d₄.Remembers (d₄.cache.insert (f, g, h) r) := by
    intro f' g' h' r' hr'
    rcases Cache.insert_entries hr' with ⟨e, rfl⟩ | hold
    · simp only [Prod.mk.injEq] at e
      obtain ⟨rfl, rfl, rfl⟩ := e
      refine ⟨hk.within.live hf, hk.within.live hg, hk.within.live hh, hr, fun a => ?_⟩
      rw [heval a, ← choice_keeps hk hd.valid hv₄ hf hg hh]
      rfl
    · rw [hm.same.2.2.2.1] at hold
      exact hlow.ready.memo.keep hk₄.within hv₃ hv₄ f' g' h' r' hold
  obtain ⟨hd₅, hk₅⟩ := hv₄.setCache hmemo
  refine ⟨hd₅, hk.trans hk₅, hk₅.within.live hr, fun a => ?_⟩
  rw [hk₅.eval hv₄ hd₅.valid hr]
  exact heval a

/-- Splits on the highest variable. -/
def splitWithin (depth : Nat) (d : Diagram) (f g h : Handle) : Handle × Diagram :=
  let v := d.varAt.getD (d.top3 f g h) 0
  let (f0, f1) := d.cofactors f v
  let (g0, g1) := d.cofactors g v
  let (h0, h1) := d.cofactors h v
  let (high, d) := iteWithin depth d f1 g1 h1
  let (low, d) := iteWithin depth d f0 g0 h0
  let (r, d) := d.make ⟨v, low, high⟩
  (r, { d with cache := d.cache.insert (f, g, h) r })

theorem iteWithin_succ {depth : Nat} {cache : Cache} (h1 : f ≠ .top) (h2 : f ≠ .bot) (h3 : g ≠ h)
    (h4 : ¬ (g = .top ∧ h = .bot)) (hget : d.cache.get (f, g, h) = (none, cache)) :
    iteWithin (depth + 1) d f g h = splitWithin depth { d with cache := cache } f g h := by
  rw [iteWithin, if_neg h1, if_neg h2, if_neg h3, if_neg h4, hget]
  simp only [splitWithin, top3]

/-- One split, given if-then-else for what lies lower. -/
theorem Ready.split {depth : Nat} (ih : ∀ {d : Diagram} {f g h : Handle}, d.Ready → d.Live f → d.Live g → d.Live h →
      d.varCount < depth + d.top3 f g h → d.Builds (d.choice f g h) (iteWithin depth d f g h))
    (hd : d.Ready) (hf : d.Live f) (hg : d.Live g) (hh : d.Live h) (hn : d.node? f = some n)
    (hdepth : d.varCount < depth + 1 + d.top3 f g h) :
    d.Builds (d.choice f g h) (splitWithin depth d f g h) := by
  generalize hvdef : d.varAt.getD (d.top3 f g h) 0 = v
  obtain ⟨f0, f1, g0, g1, h0, h1, hv, ⟨ef, pf⟩, ⟨eg, pg⟩, ⟨eh, ph⟩, hlow, hhigh⟩ := hd.valid.halves hf hg hh hn hvdef
  have hhigh := ih hd pf.high.1 pg.high.1 ph.high.1 (by omega)
  simp only [splitWithin, hvdef, ef, eg, eh]
  generalize iteWithin depth d f1 g1 h1 = built at hhigh ⊢
  obtain ⟨high, d₂⟩ := built
  have hk := hhigh.keeps
  have hlow := ih hhigh.ready (hk.within.live pf.low.1) (hk.within.live pg.low.1) (hk.within.live ph.low.1)
    (by rw [hk.top3 hhigh.ready.valid.sound pf.low.1 pg.low.1 ph.low.1, hk.varCount]; omega)
  simp only at hlow ⊢
  generalize iteWithin depth d₂ f0 g0 h0 = built at hlow ⊢
  obtain ⟨low, d₃⟩ := built
  exact hd.join hf hg hh hv pf pg ph hhigh hlow rfl

/-- **If-then-else.**  By induction on the bound: the cofactors lie below the variable that was split on, so the bound
lasts, and the node that puts them together lies above both. -/
theorem iteWithin_spec : ∀ (depth : Nat) {d : Diagram} {f g h : Handle}, d.Ready → d.Live f → d.Live g → d.Live h →
    d.varCount < depth + d.top3 f g h → d.Builds (d.choice f g h) (iteWithin depth d f g h) := by
  intro depth
  induction depth with
  | zero =>
    intro d f g h hd hf hg hh hdepth
    have := hd.valid.level_le f
    simp only [top3] at hdepth
    omega
  | succ depth ih =>
    intro d f g h hd hf hg hh hdepth
    by_cases h1 : f = .top
    · rw [iteWithin, if_pos h1]
      exact hd.builds hg (fun a => by rw [choice, h1, hd.valid.eval_top]; rfl)
    by_cases h2 : f = .bot
    · rw [iteWithin, if_neg h1, if_pos h2]
      exact hd.builds hh (fun a => by rw [choice, h2, hd.valid.eval_bot]; rfl)
    by_cases h3 : g = h
    · rw [iteWithin, if_neg h1, if_neg h2, if_pos h3]
      exact hd.builds hg (fun a => by rw [choice, h3]; simp)
    by_cases h4 : g = .top ∧ h = .bot
    · rw [iteWithin, if_neg h1, if_neg h2, if_neg h3, if_pos h4]
      refine hd.builds hf (fun a => ?_)
      rw [choice, h4.1, h4.2, hd.valid.eval_top, hd.valid.eval_bot]
      simp
    obtain ⟨hget, hent⟩ := d.cache.get_entries (f, g, h)
    have hcache : d.Remembers (d.cache.get (f, g, h)).2 := fun f' g' h' r hr => hd.memo f' g' h' r (by rwa [hent] at hr)
    cases hgot : d.cache.get (f, g, h) with
    | mk known cache =>
      rw [hgot] at hget hcache
      obtain ⟨hd₁, hk₁⟩ := hd.valid.setCache hcache
      cases known with
      | some r =>
        obtain ⟨-, -, -, hr, heval⟩ := hd.memo f g h r hget.symm
        rw [iteWithin, if_neg h1, if_neg h2, if_neg h3, if_neg h4, hgot]
        refine ⟨hd₁, hk₁, hk₁.within.live hr, fun a => ?_⟩
        rw [hk₁.eval hd.valid hd₁.valid hr]
        exact heval a
      | none =>
        rw [iteWithin_succ h1 h2 h3 h4 hgot]
        -- `f` is no terminal, so there is a variable to split on
        obtain ⟨n, hn⟩ : ∃ n, d.node? f = some n := (hf.resolve_left h2).resolve_left h1
        have hb := hd₁.split ih (hk₁.within.live hf) (hk₁.within.live hg) (hk₁.within.live hh) (hk₁.within f n hn)
          (by rw [hk₁.top3 hd₁.valid.sound hf hg hh, hk₁.varCount]; omega)
        refine ⟨hb.ready, hk₁.trans hb.keeps, hb.live, fun a => ?_⟩
        rw [← choice_keeps hk₁ hd.valid hd₁.valid hf hg hh]
        exact hb.eval a

theorem ite_spec (hd : d.Ready) (hf : d.Live f) (hg : d.Live g) (hh : d.Live h) :
    d.Builds (d.choice f g h) (d.ite f g h) :=
  iteWithin_spec _ hd hf hg hh (Nat.lt_of_lt_of_le (Nat.lt_succ_self _) (Nat.le_add_right _ _))

/-! ## Connectives -/

theorem not_spec (hd : d.Ready) (hf : d.Live f) : d.Builds (fun a => !d.eval f a) (d.not f) := by
  obtain ⟨h1, h2, h3, h4⟩ := ite_spec hd hf live_bot live_top
  refine ⟨h1, h2, h3, fun a => (h4 a).trans ?_⟩
  rw [choice, hd.valid.eval_bot, hd.valid.eval_top]
  cases d.eval f a <;> rfl

theorem and_spec (hd : d.Ready) (hf : d.Live f) (hg : d.Live g) : d.Builds (fun a => d.eval f a && d.eval g a) (d.and f g) := by
  obtain ⟨h1, h2, h3, h4⟩ := ite_spec hd hf hg live_bot
  refine ⟨h1, h2, h3, fun a => (h4 a).trans ?_⟩
  rw [choice, hd.valid.eval_bot]
  cases d.eval f a <;> simp

theorem or_spec (hd : d.Ready) (hf : d.Live f) (hg : d.Live g) : d.Builds (fun a => d.eval f a || d.eval g a) (d.or f g) := by
  obtain ⟨h1, h2, h3, h4⟩ := ite_spec hd hf live_top hg
  refine ⟨h1, h2, h3, fun a => (h4 a).trans ?_⟩
  rw [choice, hd.valid.eval_top]
  cases d.eval f a <;> simp

/-- A list of functions put together from the left by a connective. -/
theorem foldl_spec {op : Diagram → Handle → Handle → Handle × Diagram} {join : Bool → Bool → Bool}
    (hop : ∀ {d : Diagram} {f g : Handle}, d.Ready → d.Live f → d.Live g →
      d.Builds (fun a => join (d.eval f a) (d.eval g a)) (op d f g)) :
    ∀ (fs : List Handle) {d : Diagram} {f : Handle}, d.Ready → d.Live f → (∀ g ∈ fs, d.Live g) →
      d.Builds (fun a => fs.foldl (fun x g => join x (d.eval g a)) (d.eval f a))
        (fs.foldl (fun (acc, d) f => op d acc f) (f, d))
  | [],      d, f, hd, hf, _  => hd.builds hf (fun _ => rfl)
  | g :: gs, d, f, hd, hf, hg => by
    obtain ⟨hg, hgs⟩ := List.forall_mem_cons.1 hg
    have h1 := hop hd hf hg
    have h2 := foldl_spec hop gs h1.ready h1.live (fun g hg => h1.keeps.within.live (hgs g hg))
    refine ⟨h2.ready, h1.keeps.trans h2.keeps, h2.live, fun a => (h2.eval a).trans ?_⟩
    rw [List.foldl_cons, h1.eval]
    refine List.foldl_ext _ _ _ (fun x g hg => ?_)
    rw [h1.keeps.eval hd.valid h1.ready.valid (hgs g hg)]

/-- **The conjunction of a list.** -/
theorem andAll_spec (hd : d.Ready) {fs : List Handle} (hfs : ∀ f ∈ fs, d.Live f) :
    d.Builds (fun a => fs.all (fun f => d.eval f a)) (d.andAll fs) := by
  obtain ⟨h1, h2, h3, h4⟩ := foldl_spec and_spec fs hd live_top hfs
  refine ⟨h1, h2, h3, fun a => (h4 a).trans ?_⟩
  have hfold : ∀ (fs : List Handle) (x : Bool),
      fs.foldl (fun x g => x && d.eval g a) x = (x && fs.all (fun f => d.eval f a)) := by
    intro fs
    induction fs with
    | nil => intro x; simp
    | cons f fs ih => intro x; rw [List.foldl_cons, ih, List.all_cons, Bool.and_assoc]
  rw [hfold, hd.valid.eval_top, Bool.true_and]

/-- **The disjunction of a list.** -/
theorem orAll_spec (hd : d.Ready) {fs : List Handle} (hfs : ∀ f ∈ fs, d.Live f) :
    d.Builds (fun a => fs.any (fun f => d.eval f a)) (d.orAll fs) := by
  obtain ⟨h1, h2, h3, h4⟩ := foldl_spec or_spec fs hd live_bot hfs
  refine ⟨h1, h2, h3, fun a => (h4 a).trans ?_⟩
  have hfold : ∀ (fs : List Handle) (x : Bool),
      fs.foldl (fun x g => x || d.eval g a) x = (x || fs.any (fun f => d.eval f a)) := by
    intro fs
    induction fs with
    | nil => intro x; simp
    | cons f fs ih => intro x; rw [List.foldl_cons, ih, List.any_cons, Bool.or_assoc]
  rw [hfold, hd.valid.eval_bot, Bool.false_or]

/-! ## Variables -/

theorem ensureVars_getD (d : Diagram) (count : Nat) (xs : Array Nat) (hx : xs.size = d.varCount) (i : Nat) :
    ((List.range' d.varCount (count - d.varCount)).foldl Array.push xs).getD i 0 =
      if i < d.varCount then xs.getD i 0 else if i < count then i else 0 := by
  rw [List.foldl_push_eq_append', Array.getD_eq_getD_getElem?, Array.getElem?_append, hx]
  split
  · rw [Array.getD_eq_getD_getElem?]
  · rename_i h
    rw [List.getElem?_toArray]
    by_cases hc : i < count
    · rw [List.getElem?_range' (by omega), if_pos hc, Option.getD_some]
      omega
    · rw [List.getElem?_eq_none (by rw [List.length_range']; omega), if_neg hc, Option.getD_none]

theorem ensureVars_varCount (d : Diagram) (count : Nat) : (d.ensureVars count).varCount = max d.varCount count := by
  have : (d.ensureVars count).varCount =
      ((List.range' d.varCount (count - d.varCount)).foldl Array.push d.levelOf).size := rfl
  have hsize : (List.range' d.varCount (count - d.varCount)).toArray.size = count - d.varCount := by simp
  rw [this, List.foldl_push_eq_append', Array.size_append, hsize]
  show d.varCount + (count - d.varCount) = max d.varCount count
  omega

/-- More variables below the others. -/
theorem Ready.ensureVars (hd : d.Ready) (count : Nat) :
    (d.ensureVars count).Ready ∧ ∀ f, d.Live f → (d.ensureVars count).eval f a = d.eval f a := by
  have hcount := ensureVars_varCount d count
  have hlevel : ∀ i, (d.ensureVars count).levelOf.getD i 0 = _ := ensureVars_getD d count d.levelOf rfl
  have hvar : ∀ i, (d.ensureVars count).varAt.getD i 0 = _ := ensureVars_getD d count d.varAt hd.valid.ordered.size
  have hs := hd.valid.sound
  have hlevels : ∀ {f n}, d.node? f = some n → (d.ensureVars count).level f = d.level f := by
    intro f n hn
    rw [level_of_node hn, level_of_node (d := d.ensureVars count) hn, hlevel, if_pos (hs.var f n hn)]
  have hle : ∀ f, d.level f ≤ (d.ensureVars count).level f := by
    intro f
    cases hn : d.node? f with
    | some n => exact Nat.le_of_eq (hlevels hn).symm
    | none =>
      rw [level_of_none hn, level_of_none (d := d.ensureVars count) hn, hcount]
      omega
  have hv : (d.ensureVars count).Valid := by
    refine ⟨⟨hs.size, hs.bot, hs.top, fun f n hn => ?_, hs.reduced, hs.live, hs.unique, hs.free, hs.nodup⟩,
      ⟨?_, fun v hv => ?_, fun i hi => ?_⟩, fun f n hn => ?_⟩
    · rw [hcount]
      exact Nat.lt_of_lt_of_le (hs.var f n hn) (Nat.le_max_left _ _)
    · show ((List.range' d.varCount (count - d.varCount)).foldl Array.push d.varAt).size =
        ((List.range' d.varCount (count - d.varCount)).foldl Array.push d.levelOf).size
      rw [List.foldl_push_eq_append', List.foldl_push_eq_append', Array.size_append, Array.size_append, hd.valid.ordered.size]
    · rw [hcount] at hv ⊢
      rw [hlevel, hvar]
      by_cases hlt : v < d.varCount
      · obtain ⟨h1, h2⟩ := hd.valid.ordered.level v hlt
        rw [if_pos hlt, if_pos h1]
        exact ⟨Nat.lt_of_lt_of_le h1 (Nat.le_max_left _ _), h2⟩
      · have hc : v < count := by omega
        rw [if_neg hlt, if_pos hc, if_neg hlt, if_pos hc]
        exact ⟨hv, rfl⟩
    · rw [hcount] at hi ⊢
      rw [hlevel, hvar]
      by_cases hlt : i < d.varCount
      · obtain ⟨h1, h2⟩ := hd.valid.ordered.var i hlt
        rw [if_pos hlt, if_pos h1]
        exact ⟨Nat.lt_of_lt_of_le h1 (Nat.le_max_left _ _), h2⟩
      · have hc : i < count := by omega
        rw [if_neg hlt, if_pos hc, if_neg hlt, if_pos hc]
        exact ⟨hi, rfl⟩
    · obtain ⟨h1, h2⟩ := hd.valid.below f n hn
      rw [hlevels hn]
      exact ⟨Nat.lt_of_lt_of_le h1 (hle _), Nat.lt_of_lt_of_le h2 (hle _)⟩
  have hw : d.Within (d.ensureVars count) := fun _ _ h => h
  exact ⟨⟨hv, hd.memo.keep hw hd.valid hv⟩, fun f hf => hw.eval hs hv.sound hd.valid.graded hv.graded hf⟩

/-- **A variable as a function.** -/
theorem var_spec (hd : d.Ready) (v : Nat) : (d.var v).2.Ready ∧ d.Within (d.var v).2 ∧ (d.var v).2.refs = d.refs ∧
    (d.var v).2.varCount = max d.varCount (v + 1) ∧ (d.var v).2.Live (d.var v).1 ∧
    ∀ a, (d.var v).2.eval (d.var v).1 a = a v := by
  obtain ⟨hd₁, -⟩ := hd.ensureVars (a := fun _ => false) (v + 1)
  have hcount := ensureVars_varCount d (v + 1)
  have hv : v < (d.ensureVars (v + 1)).varCount := by omega
  have hlt := (hd₁.valid.ordered.level v hv).1
  have hb := hd₁.make (n := ⟨v, .bot, .top⟩) hv live_bot live_top (by rw [level_of_none hd₁.valid.sound.bot]; exact hlt)
    (by rw [level_of_none hd₁.valid.sound.top]; exact hlt)
  refine ⟨hb.ready, fun f n hn => hb.keeps.within f n hn, hb.keeps.refs, hb.keeps.varCount.trans hcount, hb.live,
    fun a => (hb.eval a).trans ?_⟩
  rw [hd₁.valid.eval_top, hd₁.valid.eval_bot]
  cases a v <;> simp

end Diagram
end Credence
