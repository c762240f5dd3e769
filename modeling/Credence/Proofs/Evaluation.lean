import Mathlib.Logic.Function.Basic
import Credence.Diagram.Ite
import Credence.Diagram.Eval
/-!
# What handles stand for

The value of a function is found by following nodes.  Where every node lies below its parents (`Graded`), that is no more
steps than there are variables, so a node has the value of the branch its variable picks (`Graded.eval_node`).

A valid diagram has one order of variables, no node twice and no node with equal branches.  Two of its handles are equal
when their functions are (`Valid.canonical`).
-/
namespace Credence
namespace Diagram

variable {d d' : Diagram} {f g : Handle} {n : Node} {a b : Nat → Bool} {ρ ρ' : Handle → Nat}

/-! ## Grades -/

/-- Nodes have grades that grow towards the terminals. -/
structure Graded (d : Diagram) (ρ : Handle → Nat) : Prop where
  bound : ∀ f n, d.node? f = some n → ρ f < d.varCount
  below : ∀ f n, d.node? f = some n → ρ f < ρ n.low ∧ ρ f < ρ n.high

/-- Induction from the terminals up. -/
theorem Graded.induction (h : d.Graded ρ) {motive : Handle → Prop} (leaf : ∀ f, d.node? f = none → motive f)
    (node : ∀ f n, d.node? f = some n → motive n.low → motive n.high → motive f) (f : Handle) : motive f := by
  have key : ∀ k f, d.varCount - ρ f = k → motive f := by
    intro k
    induction k using Nat.strongRecOn with
    | _ k ih =>
      intro f hk
      cases hn : d.node? f with
      | none => exact leaf f hn
      | some n =>
        have hb := h.bound f n hn
        obtain ⟨hl, hh⟩ := h.below f n hn
        exact node f n hn (ih _ (by omega) n.low rfl) (ih _ (by omega) n.high rfl)
  exact key _ f rfl

theorem evalWithin_of_none (h : d.node? f = none) (steps : Nat) : d.evalWithin a steps f = decide (f = .top) := by
  cases steps with
  | zero => rfl
  | succ steps => simp [evalWithin, h]

theorem eval_of_none (h : d.node? f = none) : d.eval f a = decide (f = .top) := evalWithin_of_none h _

theorem Graded.evalWithin_succ (h : d.Graded ρ) : ∀ (steps : Nat) (f : Handle), d.varCount ≤ ρ f + steps →
    d.evalWithin a steps f = d.evalWithin a (steps + 1) f
  | 0,         f, hs => by
    cases hn : d.node? f with
    | none => rw [evalWithin_of_none hn, evalWithin_of_none hn]
    | some n =>
      have := h.bound f n hn
      omega
  | steps + 1, f, hs => by
    cases hn : d.node? f with
    | none => rw [evalWithin_of_none hn, evalWithin_of_none hn]
    | some n =>
      obtain ⟨hl, hh⟩ := h.below f n hn
      have hc : d.varCount ≤ ρ (if a n.var then n.high else n.low) + steps := by split <;> omega
      have ih := h.evalWithin_succ steps _ hc
      simpa only [evalWithin, hn] using ih

/-- **A node has the value of the branch its variable picks.** -/
theorem Graded.eval_node (h : d.Graded ρ) (hn : d.node? f = some n) :
    d.eval f a = if a n.var then d.eval n.high a else d.eval n.low a := by
  have hstep : d.eval f a = d.evalWithin a d.varCount (if a n.var then n.high else n.low) := by
    simp only [eval, evalWithin, hn]
  rw [hstep, h.evalWithin_succ d.varCount _ (Nat.le_add_left _ _)]
  cases a n.var <;> rfl

/-! ## Variables that matter -/

/-- A node of `f`. -/
inductive Reaches (d : Diagram) : Handle → Handle → Prop
  | refl (f : Handle) : Reaches d f f
  | low {f g : Handle} {n : Node} : d.node? f = some n → Reaches d n.low g → Reaches d f g
  | high {f g : Handle} {n : Node} : d.node? f = some n → Reaches d n.high g → Reaches d f g

/-- Some node of `f` tests the variable. -/
def Tests (d : Diagram) (f : Handle) (v : Nat) : Prop := ∃ g n, d.Reaches f g ∧ d.node? g = some n ∧ n.var = v

theorem Graded.le_of_reaches (h : d.Graded ρ) (hr : d.Reaches f g) : ρ f ≤ ρ g := by
  induction hr with
  | refl => exact Nat.le_refl _
  | low hn _ ih => exact Nat.le_trans (Nat.le_of_lt (h.below _ _ hn).1) ih
  | high hn _ ih => exact Nat.le_trans (Nat.le_of_lt (h.below _ _ hn).2) ih

theorem Tests.low {v : Nat} (hn : d.node? f = some n) (h : d.Tests n.low v) : d.Tests f v := by
  obtain ⟨g, m, hr, hm, e⟩ := h
  exact ⟨g, m, .low hn hr, hm, e⟩

theorem Tests.high {v : Nat} (hn : d.node? f = some n) (h : d.Tests n.high v) : d.Tests f v := by
  obtain ⟨g, m, hr, hm, e⟩ := h
  exact ⟨g, m, .high hn hr, hm, e⟩

theorem tests_var (hn : d.node? f = some n) : d.Tests f n.var := ⟨f, n, .refl f, hn, rfl⟩

/-- **Only the variables that a function tests matter to it.** -/
theorem Graded.eval_congr (h : d.Graded ρ) (f : Handle) (hab : ∀ v, d.Tests f v → a v = b v) : d.eval f a = d.eval f b := by
  induction f using h.induction with
  | leaf f hn => rw [eval_of_none hn, eval_of_none hn]
  | node f n hn ihl ihh =>
    rw [h.eval_node hn, h.eval_node hn, hab _ (tests_var hn), ihl (fun v hv => hab v (hv.low hn)),
      ihh (fun v hv => hab v (hv.high hn))]

/-- Changing a variable that is not tested changes nothing. -/
theorem Graded.eval_update (h : d.Graded ρ) {v : Nat} (hv : ¬ d.Tests f v) (x : Bool) :
    d.eval f (Function.update a v x) = d.eval f a := by
  refine h.eval_congr f (fun w hw => ?_)
  rw [Function.update_of_ne]
  rintro rfl
  exact hv hw

/-! ## Tables of nodes -/

/-- A terminal or a node. -/
def Live (d : Diagram) (f : Handle) : Prop := f = .bot ∨ f = .top ∨ ∃ n, d.node? f = some n

theorem live_bot : d.Live .bot := .inl rfl
theorem live_top : d.Live .top := .inr (.inl rfl)
theorem live_node (h : d.node? f = some n) : d.Live f := .inr (.inr ⟨n, h⟩)

/-- **A table of nodes in order**: branches are live and not equal, no node is there twice, and free slots are free. -/
structure Sound (d : Diagram) : Prop where
  size    : 2 ≤ d.nodes.size
  bot     : d.node? .bot = none
  top     : d.node? .top = none
  var     : ∀ f n, d.node? f = some n → n.var < d.varCount
  reduced : ∀ f n, d.node? f = some n → n.low ≠ n.high
  live    : ∀ f n, d.node? f = some n → d.Live n.low ∧ d.Live n.high
  unique  : ∀ (n : Node) (f : Handle), d.unique[n]? = some f ↔ d.node? f = some n
  free    : ∀ s ∈ d.free, 2 ≤ s ∧ s < d.nodes.size ∧ d.node? ⟨s⟩ = none
  nodup   : d.free.Nodup

theorem Sound.eq_of_node (h : d.Sound) (hf : d.node? f = some n) (hg : d.node? g = some n) : f = g := by
  rw [← h.unique] at hf hg
  rw [hf] at hg
  injection hg

theorem Sound.two_le (h : d.Sound) (hf : d.node? f = some n) : 2 ≤ f.index := by
  obtain ⟨i⟩ := f
  rcases i with - | - | i
  · have := h.bot.symm.trans hf
    cases this
  · have := h.top.symm.trans hf
    cases this
  · exact Nat.le_add_left 2 i

/-- A live handle without a node is a terminal. -/
theorem Live.terminal (h : d.Live f) (hn : d.node? f = none) : f = .bot ∨ f = .top := by
  rcases h with h | h | ⟨n, h⟩
  · exact .inl h
  · exact .inr h
  · rw [hn] at h
    cases h

/-! ## Larger tables -/

/-- Every node is still there. -/
def Within (d d' : Diagram) : Prop := ∀ f n, d.node? f = some n → d'.node? f = some n

theorem Within.live (h : d.Within d') (hf : d.Live f) : d'.Live f := hf.imp_right (fun hf => hf.imp_right
  (fun ⟨n, hn⟩ => ⟨n, h f n hn⟩))

/-- **More nodes leave the functions there were as they are.** -/
theorem Within.eval (h : d.Within d') (hs : d.Sound) (hs' : d'.Sound) (hg : d.Graded ρ) (hg' : d'.Graded ρ')
    (hf : d.Live f) : d'.eval f a = d.eval f a := by
  induction f using hg.induction with
  | leaf f hn =>
    have hn' : d'.node? f = none := by
      rcases hf.terminal hn with rfl | rfl
      · exact hs'.bot
      · exact hs'.top
    rw [eval_of_none hn, eval_of_none hn']
  | node f n hn ihl ihh =>
    obtain ⟨hl, hh⟩ := hs.live f n hn
    rw [hg.eval_node hn, hg'.eval_node (h f n hn), ihl hl, ihh hh]

/-! ## Branches -/

/-- The low branch is what is left when the variable is false. -/
theorem Graded.eval_low (h : d.Graded ρ) (hn : d.node? f = some n) (hv : ¬ d.Tests n.low n.var) :
    d.eval n.low a = d.eval f (Function.update a n.var false) := by
  rw [h.eval_node hn, Function.update_self, h.eval_update hv]
  simp

theorem Graded.eval_high (h : d.Graded ρ) (hn : d.node? f = some n) (hv : ¬ d.Tests n.high n.var) :
    d.eval n.high a = d.eval f (Function.update a n.var true) := by
  rw [h.eval_node hn, Function.update_self, h.eval_update hv]
  simp

/-- The variable does not matter. -/
def Ignores (d : Diagram) (f : Handle) (v : Nat) : Prop := ∀ a x, d.eval f (Function.update a v x) = d.eval f a

/-- A node whose variable does not matter has equal functions as branches. -/
theorem Graded.eval_low_eq_high (h : d.Graded ρ) (hn : d.node? f = some n) (hl : ¬ d.Tests n.low n.var)
    (hh : ¬ d.Tests n.high n.var) (hi : d.Ignores f n.var) (a : Nat → Bool) : d.eval n.low a = d.eval n.high a := by
  rw [h.eval_low hn hl, h.eval_high hn hh, hi, hi]

/-! ## One order -/

/-- The levels of the variables and the variables at the levels are inverse to each other. -/
structure Ordered (d : Diagram) : Prop where
  size  : d.varAt.size = d.levelOf.size
  level : ∀ v < d.varCount, d.levelOf.getD v 0 < d.varCount ∧ d.varAt.getD (d.levelOf.getD v 0) 0 = v
  var   : ∀ i < d.varCount, d.varAt.getD i 0 < d.varCount ∧ d.levelOf.getD (d.varAt.getD i 0) 0 = i

theorem Ordered.level_inj (h : d.Ordered) {v w : Nat} (hv : v < d.varCount) (hw : w < d.varCount)
    (e : d.levelOf.getD v 0 = d.levelOf.getD w 0) : v = w := by
  rw [← (h.level v hv).2, ← (h.level w hw).2, e]

theorem level_of_node (h : d.node? f = some n) : d.level f = d.levelOf.getD n.var 0 := by simp [level, h]

theorem level_of_none (h : d.node? f = none) : d.level f = d.varCount := by simp [level, h]

/-- **A diagram in order.** -/
structure Valid (d : Diagram) : Prop where
  sound   : d.Sound
  ordered : d.Ordered
  below   : ∀ f n, d.node? f = some n → d.level f < d.level n.low ∧ d.level f < d.level n.high

theorem Valid.graded (h : d.Valid) : d.Graded d.level := by
  refine ⟨fun f n hn => ?_, h.below⟩
  rw [level_of_node hn]
  exact (h.ordered.level _ (h.sound.var f n hn)).1

theorem Valid.level_le (h : d.Valid) (f : Handle) : d.level f ≤ d.varCount := by
  cases hn : d.node? f with
  | none => exact Nat.le_of_eq (level_of_none hn)
  | some n => exact Nat.le_of_lt (h.graded.bound f n hn)

theorem Valid.le_of_tests (h : d.Valid) {v : Nat} (hv : d.Tests f v) : v < d.varCount ∧ d.level f ≤ d.levelOf.getD v 0 := by
  obtain ⟨g, n, hr, hn, rfl⟩ := hv
  refine ⟨h.sound.var g n hn, ?_⟩
  rw [← level_of_node hn]
  exact h.graded.le_of_reaches hr

theorem Valid.not_tests (h : d.Valid) {v : Nat} (hv : d.levelOf.getD v 0 < d.level f) : ¬ d.Tests f v := fun ht =>
  Nat.not_le_of_lt hv (h.le_of_tests ht).2

theorem Valid.not_tests_low (h : d.Valid) (hn : d.node? f = some n) : ¬ d.Tests n.low n.var :=
  h.not_tests (by rw [← level_of_node hn]; exact (h.below f n hn).1)

theorem Valid.not_tests_high (h : d.Valid) (hn : d.node? f = some n) : ¬ d.Tests n.high n.var :=
  h.not_tests (by rw [← level_of_node hn]; exact (h.below f n hn).2)

/-- **Handles of equal functions are equal.**  By induction on how far the higher of the two lies above the terminals:
where the other does not test its variable the branches would be equal, and otherwise the branches are equal in pairs. -/
theorem Valid.canonical (h : d.Valid) : ∀ {f g : Handle}, d.Live f → d.Live g → (∀ a, d.eval f a = d.eval g a) → f = g := by
  have key : ∀ k f g, d.varCount - min (d.level f) (d.level g) = k → d.Live f → d.Live g →
      (∀ a, d.eval f a = d.eval g a) → f = g := by
    intro k
    induction k using Nat.strongRecOn with
    | _ k ih =>
      intro f g hk hf hg heq
      -- the variable of a node matters
      have hdepends : ∀ {f' n}, d.node? f' = some n → d.level f' = min (d.level f) (d.level g) → ¬ d.Ignores f' n.var := by
        intro f' n hn hl hi
        have hb := h.below f' n hn
        have hlt := h.graded.bound f' n hn
        obtain ⟨h1, h2⟩ := h.sound.live f' n hn
        refine h.sound.reduced f' n hn (ih _ ?_ n.low n.high rfl h1 h2
          (h.graded.eval_low_eq_high hn (h.not_tests_low hn) (h.not_tests_high hn) hi))
        omega
      have hignores : ∀ {f' g' n}, (∀ a, d.eval f' a = d.eval g' a) → d.node? f' = some n → d.level f' < d.level g' →
          d.Ignores f' n.var := by
        intro f' g' n he hn hl a x
        rw [he, he]
        exact h.graded.eval_update (h.not_tests (by rw [← level_of_node hn]; exact hl)) x
      cases hn : d.node? f with
      | none =>
        cases hm : d.node? g with
        | none =>
          have hval := heq (fun _ => false)
          rw [eval_of_none hn, eval_of_none hm] at hval
          rcases hf.terminal hn with rfl | rfl <;> rcases hg.terminal hm with rfl | rfl
          · rfl
          · exact absurd hval (by decide)
          · exact absurd hval (by decide)
          · rfl
        | some m =>
          have hlt := h.graded.bound g m hm
          have hle := level_of_none hn
          exact absurd (hignores (fun a => (heq a).symm) hm (by omega)) (hdepends hm (by omega))
      | some n =>
        cases hm : d.node? g with
        | none =>
          have hlt := h.graded.bound f n hn
          have hle := level_of_none hm
          exact absurd (hignores heq hn (by omega)) (hdepends hn (by omega))
        | some m =>
          rcases Nat.lt_trichotomy (d.level f) (d.level g) with hl | hl | hl
          · exact absurd (hignores heq hn hl) (hdepends hn (by omega))
          · -- the same variable: the branches agree
            have hvar : n.var = m.var := h.ordered.level_inj (h.sound.var f n hn) (h.sound.var g m hm)
              (by rw [← level_of_node hn, ← level_of_node hm, hl])
            have hb := h.below f n hn
            have hb' := h.below g m hm
            have hlt := h.graded.bound f n hn
            obtain ⟨h1, h2⟩ := h.sound.live f n hn
            obtain ⟨h3, h4⟩ := h.sound.live g m hm
            have hlow : n.low = m.low := by
              refine ih _ (by omega) n.low m.low rfl h1 h3 (fun a => ?_)
              rw [h.graded.eval_low hn (h.not_tests_low hn), h.graded.eval_low hm (h.not_tests_low hm), heq, hvar]
            have hhigh : n.high = m.high := by
              refine ih _ (by omega) n.high m.high rfl h2 h4 (fun a => ?_)
              rw [h.graded.eval_high hn (h.not_tests_high hn), h.graded.eval_high hm (h.not_tests_high hm), heq, hvar]
            have hnm : n = m := by
              cases n
              cases m
              simp only at hvar hlow hhigh
              rw [hvar, hlow, hhigh]
            exact h.sound.eq_of_node hn (hnm ▸ hm)
          · exact absurd (hignores (fun a => (heq a).symm) hm hl) (hdepends hm (by omega))
  intro f g hf hg heq
  exact key _ f g rfl hf hg heq

/-- The variable a node tests matters to its function. -/
theorem Valid.not_ignores (h : d.Valid) (hn : d.node? f = some n) : ¬ d.Ignores f n.var := fun hi => by
  obtain ⟨h1, h2⟩ := h.sound.live f n hn
  exact h.sound.reduced f n hn (h.canonical h1 h2
    (h.graded.eval_low_eq_high hn (h.not_tests_low hn) (h.not_tests_high hn) hi))

/-- A function lies as low as the highest variable that matters to it. -/
theorem Valid.le_level (h : d.Valid) {i : Nat} (hi : i ≤ d.varCount)
    (hv : ∀ v, d.levelOf.getD v 0 < i → d.Ignores f v) : i ≤ d.level f := by
  cases hn : d.node? f with
  | none => rwa [level_of_none hn]
  | some n =>
    by_contra hlt
    refine h.not_ignores hn (hv n.var ?_)
    rw [← level_of_node hn]
    omega

/-! ## Making nodes -/

/-- The diagram `d'` has the node `n` at `f`, where there was none, and is like `d` otherwise. -/
structure Puts (d : Diagram) (n : Node) (f : Handle) (d' : Diagram) : Prop where
  node    : ∀ g, d'.node? g = if g = f then some n else d.node? g
  levelOf : d'.levelOf = d.levelOf
  varAt   : d'.varAt = d.varAt
  refs    : d'.refs = d.refs
  cache   : d'.cache = d.cache
  growth  : d'.growth = d.growth

/-- What making a node comes to. -/
inductive Makes (d : Diagram) (n : Node) : Handle → Diagram → Prop
  | merged : n.low = n.high → Makes d n n.low d
  | known {f : Handle} : n.low ≠ n.high → d.node? f = some n → Makes d n f d
  | new {f : Handle} {d' : Diagram} : n.low ≠ n.high → (∀ g, d.node? g ≠ some n) → d.node? f = none → 2 ≤ f.index →
    d.Puts n f d' → d'.Sound → Makes d n f d'

theorem Puts.varCount (h : d.Puts n f d') : d'.varCount = d.varCount := congrArg Array.size h.levelOf

/-- A node in a slot that held none keeps the table in order. -/
theorem Puts.sound (h : d.Puts n f d') (hs : d.Sound) (hne : n.low ≠ n.high) (hno : ∀ g, d.node? g ≠ some n)
    (hf : d.node? f = none) (h2 : 2 ≤ f.index) (hv : n.var < d.varCount) (hlow : d.Live n.low) (hhigh : d.Live n.high)
    (hsize : d.nodes.size ≤ d'.nodes.size)
    (hu : ∀ m : Node, d'.unique[m]? = if m = n then some f else d.unique[m]?)
    (hfree : ∀ s ∈ d'.free, s ∈ d.free ∧ s ≠ f.index) (hnodup : d'.free.Nodup) : d'.Sound := by
  have hbot : Handle.bot ≠ f := by
    rintro rfl
    exact absurd h2 (by decide)
  have htop : Handle.top ≠ f := by
    rintro rfl
    exact absurd h2 (by decide)
  have hold : ∀ {g m}, d'.node? g = some m → g = f ∧ m = n ∨ g ≠ f ∧ d.node? g = some m := by
    intro g m hg
    rw [h.node] at hg
    split at hg
    · injection hg with hg
      exact .inl ⟨‹_›, hg.symm⟩
    · exact .inr ⟨‹_›, hg⟩
  have hlive : ∀ {g}, d.Live g → d'.Live g := by
    intro g hg
    by_cases e : g = f
    · exact live_node (by rw [h.node, if_pos e])
    · exact hg.imp_right (fun hg => hg.imp_right (fun ⟨m, hm⟩ => ⟨m, by rw [h.node, if_neg e]; exact hm⟩))
  refine ⟨Nat.le_trans hs.size hsize, by rw [h.node, if_neg hbot]; exact hs.bot, by rw [h.node, if_neg htop]; exact hs.top,
    fun g m hg => ?_, fun g m hg => ?_, fun g m hg => ?_, fun m g => ?_, fun s hsf => ?_, hnodup⟩
  · rw [h.varCount]
    rcases hold hg with ⟨-, rfl⟩ | ⟨-, hg⟩
    · exact hv
    · exact hs.var g m hg
  · rcases hold hg with ⟨-, rfl⟩ | ⟨-, hg⟩
    · exact hne
    · exact hs.reduced g m hg
  · rcases hold hg with ⟨-, rfl⟩ | ⟨-, hg⟩
    · exact ⟨hlive hlow, hlive hhigh⟩
    · exact ⟨hlive (hs.live g m hg).1, hlive (hs.live g m hg).2⟩
  · rw [hu, h.node]
    by_cases em : m = n
    · subst em
      rw [if_pos rfl]
      by_cases eg : g = f
      · simp [eg]
      · rw [if_neg eg]
        exact ⟨fun e => absurd (Option.some.inj e).symm eg, fun e => absurd e (hno g)⟩
    · rw [if_neg em, hs.unique]
      by_cases eg : g = f
      · subst eg
        rw [if_pos rfl, hf]
        exact ⟨(fun e => nomatch e), fun e => absurd (Option.some.inj e).symm em⟩
      · rw [if_neg eg]
  · obtain ⟨h1, h3⟩ := hfree s hsf
    obtain ⟨h4, h5, h6⟩ := hs.free s h1
    refine ⟨h4, Nat.lt_of_lt_of_le h5 hsize, ?_⟩
    rw [h.node, if_neg (fun e => h3 (congrArg Handle.index e))]
    exact h6

/-- The diagram with a node in a free slot. -/
def putSlot (d : Diagram) (n : Node) (slot : Nat) (rest : List Nat) : Diagram :=
  { d with
    nodes := d.nodes.setIfInBounds slot (some n)
    free := rest
    unique := d.unique.insert n ⟨slot⟩ }

/-- The diagram with a node in a slot of its own. -/
def putNew (d : Diagram) (n : Node) : Diagram :=
  { d with nodes := d.nodes.push (some n), unique := d.unique.insert n ⟨d.nodes.size⟩ }

theorem putSlot_puts {slot : Nat} {rest : List Nat} (h : slot < d.nodes.size) : d.Puts n ⟨slot⟩ (d.putSlot n slot rest) := by
  refine ⟨fun g => ?_, rfl, rfl, rfl, rfl, rfl⟩
  by_cases e : g = ⟨slot⟩
  · subst e
    simp [putSlot, node?, Array.getD_eq_getD_getElem?, h]
  · have hne : slot ≠ g.index := fun h => e (by cases g; rw [h])
    rw [if_neg e]
    simp [putSlot, node?, Array.getD_eq_getD_getElem?, hne]

theorem putNew_puts : d.Puts n ⟨d.nodes.size⟩ (d.putNew n) := by
  refine ⟨fun g => ?_, rfl, rfl, rfl, rfl, rfl⟩
  by_cases e : g = ⟨d.nodes.size⟩
  · subst e
    simp [putNew, node?, Array.getD_eq_getD_getElem?]
  · have hne : g.index ≠ d.nodes.size := fun h => e (by cases g; simp only at h; rw [h])
    rw [if_neg e]
    simp [putNew, node?, Array.getD_eq_getD_getElem?, Array.getElem?_push, hne]

theorem make_makes (hs : d.Sound) (hv : n.var < d.varCount) (hlow : d.Live n.low) (hhigh : d.Live n.high) :
    d.Makes n (d.make n).1 (d.make n).2 := by
  have hinsert : ∀ (f : Handle) (m : Node), (d.unique.insert n f)[m]? = if m = n then some f else d.unique[m]? := by
    intro f m
    rw [Std.HashMap.getElem?_insert]
    by_cases e : m = n
    · simp [e]
    · simp [e, Ne.symm e]
  unfold make
  by_cases hne : n.low = n.high
  · rw [if_pos hne]
    exact .merged hne
  · rw [if_neg hne]
    cases hu : d.unique[n]? with
    | some f => exact .known hne ((hs.unique n f).1 hu)
    | none =>
      have hno : ∀ g, d.node? g ≠ some n := fun g hg => by
        rw [← hs.unique, hu] at hg
        cases hg
      have hnodup := hs.nodup
      simp only
      split
      · rename_i slot rest hfree
        obtain ⟨h2, hlt, hnone⟩ := hs.free slot (by rw [hfree]; exact List.mem_cons_self)
        rw [hfree, List.nodup_cons] at hnodup
        have hputs : d.Puts n ⟨slot⟩ (d.putSlot n slot rest) := putSlot_puts hlt
        refine .new hne hno hnone h2 hputs (hputs.sound hs hne hno hnone h2 hv hlow hhigh (by simp [putSlot])
          (hinsert ⟨slot⟩) (fun s hs' => ?_) hnodup.2)
        refine ⟨by rw [hfree]; exact List.mem_cons_of_mem _ hs', ?_⟩
        rintro rfl
        exact hnodup.1 hs'
      · rename_i hfree
        have hnone : d.node? ⟨d.nodes.size⟩ = none := by simp [node?]
        have hputs := putNew_puts (d := d) (n := n)
        refine .new hne hno hnone hs.size hputs (hputs.sound hs hne hno hnone hs.size hv hlow hhigh (by simp [putNew])
          (hinsert _) (fun s hs' => ?_) hnodup)
        rw [show (d.putNew n).free = d.free from rfl, hfree] at hs'
        cases hs'

theorem Makes.within {d' : Diagram} (h : d.Makes n f d') : d.Within d' := by
  cases h with
  | merged _ => exact fun _ _ h => h
  | known _ _ => exact fun _ _ h => h
  | new _ _ hf _ hp _ =>
    intro g m hg
    rw [hp.node, if_neg]
    · exact hg
    · rintro rfl
      rw [hf] at hg
      cases hg

theorem Makes.sound {d' : Diagram} (h : d.Makes n f d') (hs : d.Sound) : d'.Sound := by
  cases h with
  | merged _ => exact hs
  | known _ _ => exact hs
  | new _ _ _ _ _ hs' => exact hs'

theorem Makes.live {d' : Diagram} (h : d.Makes n f d') (hlow : d.Live n.low) : d'.Live f := by
  cases h with
  | merged _ => exact hlow
  | known _ hn => exact live_node hn
  | new _ _ _ _ hp _ => exact live_node (by rw [hp.node, if_pos rfl])

/-- **What is made has the value its variable picks.** -/
theorem Makes.eval {d' : Diagram} (h : d.Makes n f d') (hg : d'.Graded ρ') :
    d'.eval f a = if a n.var then d'.eval n.high a else d'.eval n.low a := by
  cases h with
  | merged e =>
    rw [e]
    simp
  | known _ hn => exact hg.eval_node hn
  | new _ _ _ _ hp _ => exact hg.eval_node (by rw [hp.node, if_pos rfl])

theorem Makes.same {d' : Diagram} (h : d.Makes n f d') : d'.levelOf = d.levelOf ∧ d'.varAt = d.varAt ∧ d'.refs = d.refs ∧
    d'.cache = d.cache ∧ d'.growth = d.growth := by
  cases h with
  | merged _ => exact ⟨rfl, rfl, rfl, rfl, rfl⟩
  | known _ _ => exact ⟨rfl, rfl, rfl, rfl, rfl⟩
  | new _ _ _ _ hp _ => exact ⟨hp.levelOf, hp.varAt, hp.refs, hp.cache, hp.growth⟩

end Diagram
end Credence
