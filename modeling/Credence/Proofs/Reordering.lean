import Credence.Diagram.Sift
import Credence.Proofs.Collection
/-!
# What a change of the order keeps

Two neighbouring variables change places.  The nodes of the upper one that test the lower one are turned over, each in
its own slot, and while that goes on no one order holds: some nodes test `x` before `y` and others `y` before `x`.
`Turning` says where a diagram stands between the two orders, and is enough for grades, so that functions have values all
along.  A turned node has the function it had, so it has different branches and stands nowhere else: functions in the
diagram before were told apart by their handles.

Longer moves are made of exchanges, and sifting of moves and collections.
-/
namespace Credence
namespace Diagram

variable {d d' d'' e e' : Diagram} {f g : Handle} {n m : Node} {a : Nat → Bool} {x y i : Nat} {todo : List Nat}

/-! ## Nodes replaced in their slots -/

/-- A node in place of one with the same function changes no function. -/
theorem Puts.eval_same {ρ ρ' : Handle → Nat} (h : d.Puts m f d') (hg : d.Graded ρ) (hg' : d'.Graded ρ')
    (hf : d.eval f a = if a m.var then d.eval m.high a else d.eval m.low a) (g : Handle) : d'.eval g a = d.eval g a := by
  induction g using hg'.induction with
  | leaf g hn =>
    have hn' := h.node g
    rw [hn] at hn'
    split at hn'
    · cases hn'
    · rw [eval_of_none hn, eval_of_none hn'.symm]
  | node g n hn ihl ihh =>
    have hn' := h.node g
    rw [hn] at hn'
    rw [hg'.eval_node hn, ihl, ihh]
    split at hn'
    · rename_i e
      injection hn' with hn'
      rw [e, hf, hn']
    · rw [hg.eval_node hn'.symm]

/-- The diagram with the node `m` in place of `n`. -/
def overwrite (d : Diagram) (slot : Nat) (n m : Node) : Diagram :=
  { d with nodes := d.nodes.setIfInBounds slot (some m), unique := (d.unique.erase n).insert m ⟨slot⟩ }

theorem overwrite_puts {slot : Nat} (hn : d.node? ⟨slot⟩ = some n) : d.Puts m ⟨slot⟩ (d.overwrite slot n m) := by
  have hlt := node?_lt hn
  refine ⟨fun g => ?_, rfl, rfl, rfl, rfl, rfl⟩
  by_cases e : g = ⟨slot⟩
  · subst e
    simp [overwrite, node?, Array.getD_eq_getD_getElem?, hlt]
  · have hne : slot ≠ g.index := fun h => e (by cases g; rw [h])
    rw [if_neg e]
    simp [overwrite, node?, Array.getD_eq_getD_getElem?, hne]

theorem overwrite_unique {slot : Nat} (k : Node) :
    (d.overwrite slot n m).unique[k]? = if k = m then some ⟨slot⟩ else if k = n then none else d.unique[k]? := by
  rw [overwrite, Std.HashMap.getElem?_insert, Std.HashMap.getElem?_erase]
  simp only [beq_iff_eq, eq_comm (a := m), eq_comm (a := n)]

/-- A table stays in order when the new node has different live branches and is in no other slot. -/
theorem Sound.overwrite (hs : d.Sound) {slot : Nat} (hn : d.node? ⟨slot⟩ = some n) (hv : m.var < d.varCount)
    (hne : m.low ≠ m.high) (hlow : d.Live m.low) (hhigh : d.Live m.high) (hno : ∀ g, d.node? g = some m → g = ⟨slot⟩) :
    (d.overwrite slot n m).Sound := by
  have hp := overwrite_puts (m := m) hn
  have hlive : ∀ {g}, d.Live g → (d.overwrite slot n m).Live g := by
    intro g hg
    refine hg.imp_right (fun hg => hg.imp_right (fun ⟨k, hk⟩ => ?_))
    rw [hp.node]
    split
    · exact ⟨m, rfl⟩
    · exact ⟨k, hk⟩
  have hold : ∀ {g k}, (d.overwrite slot n m).node? g = some k → g = ⟨slot⟩ ∧ k = m ∨ g ≠ ⟨slot⟩ ∧ d.node? g = some k := by
    intro g k hg
    rw [hp.node] at hg
    split at hg
    · injection hg with hg
      exact .inl ⟨‹_›, hg.symm⟩
    · exact .inr ⟨‹_›, hg⟩
  have hterminal : ∀ {g}, d.node? g = none → (d.overwrite slot n m).node? g = none := by
    intro g hg
    rw [hp.node, if_neg]
    · exact hg
    · rintro rfl
      rw [hn] at hg
      cases hg
  refine ⟨?_, hterminal hs.bot, hterminal hs.top, fun g k hg => ?_, fun g k hg => ?_, fun g k hg => ?_, fun k g => ?_,
    fun s hf => ?_, hs.nodup⟩
  · exact Nat.le_trans hs.size (Nat.le_of_eq Array.size_setIfInBounds.symm)
  · rcases hold hg with ⟨-, rfl⟩ | ⟨-, hg⟩
    · exact hv
    · exact hs.var g k hg
  · rcases hold hg with ⟨-, rfl⟩ | ⟨-, hg⟩
    · exact hne
    · exact hs.reduced g k hg
  · rcases hold hg with ⟨-, rfl⟩ | ⟨-, hg⟩
    · exact ⟨hlive hlow, hlive hhigh⟩
    · exact ⟨hlive (hs.live g k hg).1, hlive (hs.live g k hg).2⟩
  · rw [overwrite_unique, hp.node]
    by_cases ek : k = m
    · subst ek
      rw [if_pos rfl]
      by_cases eg : g = ⟨slot⟩
      · simp [eg]
      · rw [if_neg eg]
        exact ⟨fun e => absurd (Option.some.inj e).symm eg, fun e => absurd (hno g e) eg⟩
    · rw [if_neg ek]
      by_cases eg : g = ⟨slot⟩
      · subst eg
        rw [if_pos rfl]
        refine ⟨fun e => ?_, fun e => absurd (Option.some.inj e).symm ek⟩
        split at e
        · cases e
        · rename_i hkn
          rw [hs.unique, hn] at e
          exact absurd (Option.some.inj e).symm hkn
      · rw [if_neg eg]
        split
        · rename_i hkn
          subst hkn
          exact ⟨fun e => (nomatch e), fun e => absurd (hs.eq_of_node e hn) eg⟩
        · exact hs.unique k g
  · obtain ⟨h1, h2, h3⟩ := hs.free s hf
    exact ⟨h1, Nat.lt_of_lt_of_eq h2 Array.size_setIfInBounds.symm, hterminal h3⟩

/-! ## Two neighbouring variables -/

/-- The variables `x` and `y` are at level `i` and the next one. -/
structure Adjacent (d : Diagram) (x y i : Nat) : Prop where
  x_lt  : x < d.varCount
  y_lt  : y < d.varCount
  level : i + 1 < d.varCount
  x_at  : d.levelOf.getD x 0 = i
  y_at  : d.levelOf.getD y 0 = i + 1

theorem Adjacent.ne (h : d.Adjacent x y i) : x ≠ y := by
  rintro rfl
  have := h.x_at
  have := h.y_at
  omega

/-- A function that tests neither of the two variables nor any above them. -/
def Deep (d : Diagram) (i : Nat) (f : Handle) : Prop := d.Live f ∧ i + 1 < d.level f

theorem Deep.ignores_y (hf : d.Deep i f) (hd : d.Valid) (h : d.Adjacent x y i) : ¬ d.Tests f y :=
  hd.not_tests (by rw [h.y_at]; exact hf.2)

/-- The handle is a node of `y`. -/
def TestsFirst (d : Diagram) (y : Nat) (f : Handle) : Prop := ∃ n, d.node? f = some n ∧ n.var = y

/-- A node of `x` with a branch that tests `y`. -/
def Crosses (d : Diagram) (x y : Nat) (f : Handle) : Prop :=
  ∃ n, d.node? f = some n ∧ n.var = x ∧ (d.TestsFirst y n.low ∨ d.TestsFirst y n.high)

theorem mem_crossing {slot : Nat} : slot ∈ d.crossing x y ↔ d.Crosses x y ⟨slot⟩ := by
  have htests : ∀ f, (d.node? f).any (fun n => n.var == y) = true ↔ d.TestsFirst y f := by
    intro f
    simp [TestsFirst, Option.any_eq_true]
  simp only [crossing, List.mem_filter, List.mem_range, Option.any_eq_true, Bool.and_eq_true, beq_iff_eq, Bool.or_eq_true,
    htests, Crosses]
  constructor
  · rintro ⟨-, n, hn, hv, h⟩
    exact ⟨n, hn, hv, h⟩
  · rintro ⟨n, hn, hv, h⟩
    exact ⟨node?_lt hn, n, hn, hv, h⟩

theorem TestsFirst.level (hf : d.TestsFirst y f) : d.level f = d.levelOf.getD y 0 := by
  obtain ⟨n, hn, rfl⟩ := hf
  exact level_of_node hn

theorem Crosses.level (h : d.Adjacent x y i) (hf : d.Crosses x y f) : d.level f = i := by
  obtain ⟨n, hn, rfl, -⟩ := hf
  rw [level_of_node hn, h.x_at]

/-- Below `x` and no node of `y` is deep. -/
theorem Valid.deep (hd : d.Valid) (h : d.Adjacent x y i) (hf : d.Live f) (hi : i < d.level f) (hy : ¬ d.TestsFirst y f) :
    d.Deep i f := by
  refine ⟨hf, Nat.lt_of_le_of_ne hi (fun e => hy ?_)⟩
  cases hn : d.node? f with
  | none =>
    rw [level_of_none hn] at e
    exact absurd h.level (by omega)
  | some n =>
    rw [level_of_node hn, ← h.y_at] at e
    exact ⟨n, hn, hd.ordered.level_inj (hd.sound.var f n hn) h.y_lt e.symm⟩

/-- The branches of a node of `x` that needs no turning. -/
theorem Valid.deep_of_not_crosses (hd : d.Valid) (h : d.Adjacent x y i) (hn : d.node? f = some n) (hx : n.var = x)
    (hc : ¬ d.Crosses x y f) : d.Deep i n.low ∧ d.Deep i n.high := by
  obtain ⟨hl, hh⟩ := hd.sound.live f n hn
  obtain ⟨hbl, hbh⟩ := hd.below f n hn
  rw [level_of_node hn, hx, h.x_at] at hbl hbh
  exact ⟨hd.deep h hl hbl (fun ht => hc ⟨n, hn, hx, .inl ht⟩), hd.deep h hh hbh (fun ht => hc ⟨n, hn, hx, .inr ht⟩)⟩

/-- The parts on either side of `y` of a branch of `x`. -/
theorem Valid.parts (hd : d.Valid) (h : d.Adjacent x y i) (hf : d.Live f) (hi : i < d.level f) :
    ∃ f0 f1, d.cofactors f y = (f0, f1) ∧ d.Deep i f0 ∧ d.Deep i f1 ∧
      ∀ a, d.eval f a = if a y then d.eval f1 a else d.eval f0 a := by
  obtain ⟨f0, f1, hc, hp⟩ := hd.cofactors hf h.y_lt (by rw [h.y_at]; exact hi)
  refine ⟨f0, f1, hc, ⟨hp.low.1, ?_⟩, ⟨hp.high.1, ?_⟩, hp.eval⟩
  · rw [← h.y_at]
    exact hp.low.2
  · rw [← h.y_at]
    exact hp.high.2

/-! ## Between two orders -/

/-- A node of `x` in `e` that may lie below nodes of `y`. -/
def Lowered (d e : Diagram) (x i : Nat) (f : Handle) : Prop :=
  ∃ n, e.node? f = some n ∧ n.var = x ∧ d.Deep i n.low ∧ d.Deep i n.high

/-- What may be a branch of `y`. -/
def MayHang (d e : Diagram) (x i : Nat) (f : Handle) : Prop := d.Deep i f ∨ d.Lowered e x i f

/-- **On the way from one order to the other**: the slots in `todo` are still to be turned. -/
structure Turning (d : Diagram) (x y i : Nat) (todo : List Nat) (e : Diagram) : Prop where
  sound   : e.Sound
  levelOf : e.levelOf = d.levelOf
  varAt   : e.varAt = d.varAt
  refs    : e.refs = d.refs
  cache   : e.cache = d.cache
  kept    : ∀ f n, d.node? f = some n → (d.Crosses x y f → f.index ∈ todo) → e.node? f = some n
  turned  : ∀ f, d.Crosses x y f → f.index ∉ todo →
    ∃ m, e.node? f = some m ∧ m.var = y ∧ d.MayHang e x i m.low ∧ d.MayHang e x i m.high
  fresh   : ∀ f n, e.node? f = some n → d.node? f = none → n.var = x ∧ d.Deep i n.low ∧ d.Deep i n.high

/-- Every function has the values it had. -/
def Same (d e : Diagram) : Prop := ∀ f, d.Live f → ∀ a, e.eval f a = d.eval f a

theorem Valid.turning (hd : d.Valid) : d.Turning x y i (d.crossing x y) d where
  sound := hd.sound
  levelOf := rfl
  varAt := rfl
  refs := rfl
  cache := rfl
  kept := fun _ _ hn _ => hn
  turned := fun _ hc hf => absurd (mem_crossing.2 hc) hf
  fresh := fun _ _ hn hn' => by
    rw [hn] at hn'
    cases hn'

theorem Turning.varCount (h : d.Turning x y i todo e) : e.varCount = d.varCount := congrArg Array.size h.levelOf

theorem Turning.node (h : d.Turning x y i todo e) (hn : d.node? f = some n) : ∃ m, e.node? f = some m := by
  by_cases hc : d.Crosses x y f → f.index ∈ todo
  · exact ⟨n, h.kept f n hn hc⟩
  · obtain ⟨hc, hf⟩ := Classical.not_imp.1 hc
    obtain ⟨m, hm, -⟩ := h.turned f hc hf
    exact ⟨m, hm⟩

theorem Turning.live (h : d.Turning x y i todo e) (hf : d.Live f) : e.Live f := hf.imp_right (fun hf => hf.imp_right
  (fun ⟨_, hn⟩ => h.node hn))

theorem Turning.node_of_none (h : d.Turning x y i todo e) (hf : d.Live f) (hn : d.node? f = none) : e.node? f = none := by
  rcases hf.terminal hn with rfl | rfl
  · exact h.sound.bot
  · exact h.sound.top

/-- Nothing happens off the level of `x`. -/
theorem Turning.node_eq (h : d.Turning x y i todo e) (ha : d.Adjacent x y i) (hf : d.Live f) (hne : d.level f ≠ i) :
    e.node? f = d.node? f := by
  cases hn : d.node? f with
  | none => exact h.node_of_none hf hn
  | some n => exact h.kept f n hn (fun hc => absurd (hc.level ha) hne)

/-- A node on the way is one that was there, a turned one or a new one. -/
theorem Turning.cases (h : d.Turning x y i todo e) (hn : e.node? f = some n) :
    (d.node? f = some n ∧ (d.Crosses x y f → f.index ∈ todo)) ∨
    (d.Crosses x y f ∧ n.var = y ∧ d.MayHang e x i n.low ∧ d.MayHang e x i n.high) ∨
    (d.node? f = none ∧ n.var = x ∧ d.Deep i n.low ∧ d.Deep i n.high) := by
  cases hn' : d.node? f with
  | none => exact .inr (.inr ⟨rfl, h.fresh f n hn hn'⟩)
  | some m =>
    by_cases hc : d.Crosses x y f → f.index ∈ todo
    · have := h.kept f m hn' hc
      rw [hn] at this
      exact .inl ⟨this.symm, hc⟩
    · obtain ⟨hc, hf⟩ := Classical.not_imp.1 hc
      obtain ⟨m, hm, h1, h2⟩ := h.turned f hc hf
      rw [hn] at hm
      injection hm with hm
      exact .inr (.inl ⟨hc, hm ▸ h1, hm ▸ h2⟩)

/-! ## Grades on the way -/

open Classical in
/-- Nodes of `x` that may lie below `y` go one level down; all others keep theirs. -/
noncomputable def grade (d e : Diagram) (x i : Nat) (f : Handle) : Nat := if d.Lowered e x i f then i + 1 else d.level f

theorem Turning.le_grade (h : d.Turning x y i todo e) (ha : d.Adjacent x y i) (hf : d.Live f) :
    d.level f ≤ d.grade e x i f := by
  unfold grade
  split
  · rename_i hl
    obtain ⟨n, hn, hx, -⟩ := hl
    rcases h.cases hn with ⟨hn', -⟩ | ⟨-, hy, -⟩ | ⟨hn', -⟩
    · rw [level_of_node hn', hx, ha.x_at]
      omega
    · exact absurd (hx.symm.trans hy) ha.ne
    · rw [h.node_of_none hf hn'] at hn
      cases hn
  · exact Nat.le_refl _

theorem Turning.lt_grade (h : d.Turning x y i todo e) (ha : d.Adjacent x y i) (hf : d.MayHang e x i f) :
    i < d.grade e x i f := by
  rcases hf with hf | hf
  · have := h.le_grade ha hf.1
    have := hf.2
    omega
  · rw [grade, if_pos hf]
    omega

theorem Turning.graded (h : d.Turning x y i todo e) (hd : d.Valid) (ha : d.Adjacent x y i) :
    e.Graded (d.grade e x i) := by
  refine ⟨fun f n hn => ?_, fun f n hn => ?_⟩
  · rw [h.varCount, grade]
    split
    · exact ha.level
    · rename_i hl
      rcases h.cases hn with ⟨hn', -⟩ | ⟨⟨m, hm, -⟩, -⟩ | ⟨-, h1, h2⟩
      · exact hd.graded.bound f n hn'
      · exact hd.graded.bound f m hm
      · exact absurd ⟨n, hn, h1, h2⟩ hl
  · rw [grade]
    split
    · rename_i hl
      obtain ⟨m, hm, -, h1, h2⟩ := hl
      rw [hn] at hm
      injection hm with hm
      subst hm
      exact ⟨Nat.lt_of_lt_of_le h1.2 (h.le_grade ha h1.1), Nat.lt_of_lt_of_le h2.2 (h.le_grade ha h2.1)⟩
    · rename_i hl
      rcases h.cases hn with ⟨hn', -⟩ | ⟨hc, -, h1, h2⟩ | ⟨-, h1, h2⟩
      · obtain ⟨h1, h2⟩ := hd.sound.live f n hn'
        obtain ⟨h3, h4⟩ := hd.below f n hn'
        exact ⟨Nat.lt_of_lt_of_le h3 (h.le_grade ha h1), Nat.lt_of_lt_of_le h4 (h.le_grade ha h2)⟩
      · rw [hc.level ha]
        exact ⟨h.lt_grade ha h1, h.lt_grade ha h2⟩
      · exact absurd ⟨n, hn, h1, h2⟩ hl

/-! ## Turning a node -/

theorem MayHang.mono (hw : e.Within e') (hf : d.MayHang e x i f) : d.MayHang e' x i f :=
  hf.imp_right (fun ⟨n, hn, h⟩ => ⟨n, hw f n hn, h⟩)

/-- A node of `x` with deep branches may be made at any time. -/
theorem Turning.make (h : d.Turning x y i todo e) (hd : d.Valid) (ha : d.Adjacent x y i) (hs : d.Same e) {f0 f1 : Handle}
    (h0 : d.Deep i f0) (h1 : d.Deep i f1) :
    d.Turning x y i todo (e.make ⟨x, f0, f1⟩).2 ∧ d.Same (e.make ⟨x, f0, f1⟩).2 ∧ e.Within (e.make ⟨x, f0, f1⟩).2 ∧
    (e.make ⟨x, f0, f1⟩).2.Live (e.make ⟨x, f0, f1⟩).1 ∧ d.MayHang (e.make ⟨x, f0, f1⟩).2 x i (e.make ⟨x, f0, f1⟩).1 ∧
    ∀ a, (e.make ⟨x, f0, f1⟩).2.eval (e.make ⟨x, f0, f1⟩).1 a = if a x then d.eval f1 a else d.eval f0 a := by
  have hm := make_makes (n := ⟨x, f0, f1⟩) h.sound (by rw [h.varCount]; exact ha.x_lt) (h.live h0.1) (h.live h1.1)
  generalize e.make ⟨x, f0, f1⟩ = made at hm ⊢
  obtain ⟨r, e'⟩ := made
  simp only at hm ⊢
  have hw := hm.within
  obtain ⟨e1, e2, e3, e4, -⟩ := hm.same
  have ht : d.Turning x y i todo e' := by
    refine ⟨hm.sound h.sound, e1.trans h.levelOf, e2.trans h.varAt, e3.trans h.refs, e4.trans h.cache,
      fun f n hn hc => hw f n (h.kept f n hn hc), fun f hc hf => ?_, fun f n hn hn' => ?_⟩
    · obtain ⟨m, hm, hy, hl, hh⟩ := h.turned f hc hf
      exact ⟨m, hw f m hm, hy, hl.mono hw, hh.mono hw⟩
    · cases hm with
      | merged _ => exact h.fresh f n hn hn'
      | known _ _ => exact h.fresh f n hn hn'
      | new _ _ _ _ hp _ =>
        rw [hp.node] at hn
        split at hn
        · injection hn with hn
          subst hn
          exact ⟨rfl, h0, h1⟩
        · exact h.fresh f n hn hn'
  have hsame : d.Same e' := fun f hf a => by
    rw [hw.eval h.sound ht.sound (h.graded hd ha) (ht.graded hd ha) (h.live hf), hs f hf]
  refine ⟨ht, hsame, hw, hm.live (h.live h0.1), ?_, fun a => ?_⟩
  · cases hm with
    | merged _ => exact .inl h0
    | known _ hn => exact .inr ⟨_, hn, rfl, h0, h1⟩
    | new _ _ _ _ hp _ => exact .inr ⟨_, by rw [hp.node, if_pos rfl], rfl, h0, h1⟩
  · rw [hm.eval (ht.graded hd ha)]
    simp only
    rw [hsame f0 h0.1, hsame f1 h1.1]

/-- A branch ignores what the node ignores. -/
theorem Ignores.branches (hi : d.Ignores f y) (hd : d.Valid) (hn : d.node? f = some n) (hne : n.var ≠ y) :
    d.Ignores n.low y ∧ d.Ignores n.high y := by
  refine ⟨fun a b => ?_, fun a b => ?_⟩
  · rw [hd.graded.eval_low hn (hd.not_tests_low hn), hd.graded.eval_low hn (hd.not_tests_low hn),
      Function.update_comm hne.symm, hi]
  · rw [hd.graded.eval_high hn (hd.not_tests_high hn), hd.graded.eval_high hn (hd.not_tests_high hn),
      Function.update_comm hne.symm, hi]

/-- A node with a branch that tests `y` depends on `y`. -/
theorem Crosses.not_ignores (hc : d.Crosses x y f) (hd : d.Valid) (hne : x ≠ y) : ¬ d.Ignores f y := by
  obtain ⟨n, hn, rfl, h⟩ := hc
  intro hi
  obtain ⟨hl, hh⟩ := hi.branches hd hn hne
  rcases h with ⟨m, hm, rfl⟩ | ⟨m, hm, rfl⟩
  · exact hd.not_ignores hm hl
  · exact hd.not_ignores hm hh

theorem Crosses.not_lowered (hc : d.Crosses x y f) (ha : d.Adjacent x y i) (hn : ∀ n, d.node? f = some n → e.node? f = some n) :
    ¬ d.Lowered e x i f := by
  obtain ⟨n, hn', -, h⟩ := hc
  rintro ⟨m, hm, -, hl, hh⟩
  rw [hn n hn'] at hm
  injection hm with hm
  subst hm
  rcases h with h | h
  · have := hl.2
    rw [h.level, ha.y_at] at this
    omega
  · have := hh.2
    rw [h.level, ha.y_at] at this
    omega

/-- The node that is turned, in place of the one there was. -/
theorem Turning.overwrite {slot : Nat} (h : d.Turning x y i (slot :: todo) e) (hd : d.Valid) (ha : d.Adjacent x y i)
    (hs : d.Same e) (hc : d.Crosses x y ⟨slot⟩) (hslot : slot ∉ todo) (hn : e.node? ⟨slot⟩ = some n) {low high : Handle}
    (hlow : e.Live low) (hhigh : e.Live high) (hll : d.MayHang e x i low) (hhh : d.MayHang e x i high)
    (hi : ∀ a b, e.eval low (Function.update a y b) = e.eval low a)
    (hval : ∀ a, d.eval ⟨slot⟩ a = if a y then e.eval high a else e.eval low a) :
    d.Turning x y i todo (e.overwrite slot n ⟨y, low, high⟩) ∧ d.Same (e.overwrite slot n ⟨y, low, high⟩) := by
  obtain ⟨k, hk, -⟩ := id hc
  have hlive : d.Live ⟨slot⟩ := live_node hk
  have hp := overwrite_puts (m := ⟨y, low, high⟩) hn
  -- equal branches would make a function that does not depend on `y`
  have hne : low ≠ high := by
    rintro rfl
    refine hc.not_ignores hd ha.ne (fun a b => ?_)
    rw [hval, hval, ite_self, ite_self, hi]
  -- the same node elsewhere would be a second handle of the function
  have hno : ∀ g, e.node? g = some ⟨y, low, high⟩ → g = ⟨slot⟩ := by
    intro g hg
    have hgl : d.Live g := by
      rcases h.cases hg with ⟨hg', -⟩ | ⟨⟨m, hm, -⟩, -⟩ | ⟨-, hx, -⟩
      · exact live_node hg'
      · exact live_node hm
      · exact absurd hx.symm ha.ne
    refine hd.canonical hgl hlive (fun a => ?_)
    rw [hval, ← hs g hgl, (h.graded hd ha).eval_node hg]
  have hsound : (e.overwrite slot n ⟨y, low, high⟩).Sound :=
    h.sound.overwrite hn (by rw [h.varCount]; exact ha.y_lt) hne hlow hhigh hno
  have hother : ∀ {g}, g ≠ ⟨slot⟩ → (e.overwrite slot n ⟨y, low, high⟩).node? g = e.node? g := fun hg => by
    rw [hp.node, if_neg hg]
  have hhang : ∀ {g}, d.MayHang e x i g → d.MayHang (e.overwrite slot n ⟨y, low, high⟩) x i g := by
    intro g hg
    refine hg.imp_right (fun hl => ?_)
    have hgs : g ≠ ⟨slot⟩ := by
      rintro rfl
      exact hc.not_lowered ha (fun m hm => h.kept _ m hm (fun _ => List.mem_cons_self)) hl
    obtain ⟨m, hm, h1⟩ := hl
    exact ⟨m, (hother hgs).trans hm, h1⟩
  have hindex : ∀ {g : Handle}, g ≠ ⟨slot⟩ → g.index ≠ slot := fun hg e => hg (by rename_i g; cases g; exact congrArg _ e)
  have ht : d.Turning x y i todo (e.overwrite slot n ⟨y, low, high⟩) := by
    refine ⟨hsound, h.levelOf, h.varAt, h.refs, h.cache, fun f m hm hf => ?_, fun f hf hft => ?_, fun f m hm hm' => ?_⟩
    · have hfs : f ≠ ⟨slot⟩ := by
        rintro rfl
        exact hslot (hf hc)
      rw [hother hfs]
      exact h.kept f m hm (fun hc => List.mem_cons_of_mem _ (hf hc))
    · by_cases hfs : f = ⟨slot⟩
      · exact ⟨_, by rw [hp.node, if_pos hfs], rfl, hhang hll, hhang hhh⟩
      · obtain ⟨m, hm, hy, h1, h2⟩ := h.turned f hf (fun hm => (List.mem_cons.1 hm).elim (hindex hfs) hft)
        exact ⟨m, (hother hfs).trans hm, hy, hhang h1, hhang h2⟩
    · refine h.fresh f m ?_ hm'
      rwa [hother] at hm
      rintro rfl
      rw [hk] at hm'
      cases hm'
  refine ⟨ht, fun f hf a => ?_⟩
  rw [hp.eval_same (h.graded hd ha) (ht.graded hd ha) (by rw [hs _ hlive, hval]) f, hs f hf]

theorem rotate_eq {slot : Nat} (hn : e.node? ⟨slot⟩ = some n) {f00 f01 f10 f11 : Handle}
    (hl : e.cofactors n.low y = (f00, f01)) (hh : e.cofactors n.high y = (f10, f11)) :
    rotate x y e slot = ((e.make ⟨x, f00, f10⟩).2.make ⟨x, f01, f11⟩).2.overwrite slot n
      ⟨y, (e.make ⟨x, f00, f10⟩).1, ((e.make ⟨x, f00, f10⟩).2.make ⟨x, f01, f11⟩).1⟩ := by
  simp only [rotate, hn, hl, hh, Diagram.overwrite]

/-- **One node is turned.** -/
theorem Turning.rotate {slot : Nat} (h : d.Turning x y i (slot :: todo) e) (hd : d.Valid) (ha : d.Adjacent x y i)
    (hs : d.Same e) (hc : d.Crosses x y ⟨slot⟩) (hslot : slot ∉ todo) :
    d.Turning x y i todo (rotate x y e slot) ∧ d.Same (rotate x y e slot) := by
  obtain ⟨n, hn, hx, -⟩ := id hc
  obtain ⟨hl, hh⟩ := hd.sound.live _ n hn
  obtain ⟨hbl, hbh⟩ := hd.below _ n hn
  rw [hc.level ha] at hbl hbh
  obtain ⟨f00, f01, hlow, d00, d01, vlow⟩ := hd.parts ha hl hbl
  obtain ⟨f10, f11, hhigh, d10, d11, vhigh⟩ := hd.parts ha hh hbh
  have hen : e.node? ⟨slot⟩ = some n := h.kept _ n hn (fun _ => List.mem_cons_self)
  have hcof : ∀ {g}, d.Live g → i < d.level g → e.cofactors g y = d.cofactors g y := fun hg hi => by
    unfold cofactors
    rw [h.node_eq ha hg (by omega)]
  rw [rotate_eq hen ((hcof hl hbl).trans hlow) ((hcof hh hbh).trans hhigh)]
  obtain ⟨h₁, hs₁, -, hlive₁, hhang₁, hval₁⟩ := h.make hd ha hs d00 d10
  generalize e.make ⟨x, f00, f10⟩ = made₁ at h₁ hs₁ hlive₁ hhang₁ hval₁ ⊢
  obtain ⟨low, e₁⟩ := made₁
  simp only at h₁ hs₁ hlive₁ hhang₁ hval₁ ⊢
  obtain ⟨h₂, hs₂, hw₂, hlive₂, hhang₂, hval₂⟩ := h₁.make hd ha hs₁ d01 d11
  generalize e₁.make ⟨x, f01, f11⟩ = made₂ at h₂ hs₂ hw₂ hlive₂ hhang₂ hval₂ ⊢
  obtain ⟨high, e₂⟩ := made₂
  simp only at h₂ hs₂ hw₂ hlive₂ hhang₂ hval₂ ⊢
  have hvlow : ∀ a, e₂.eval low a = if a x then d.eval f10 a else d.eval f00 a := fun a => by
    rw [hw₂.eval h₁.sound h₂.sound (h₁.graded hd ha) (h₂.graded hd ha) hlive₁, hval₁]
  refine h₂.overwrite hd ha hs₂ hc hslot (h₂.kept _ n hn (fun _ => List.mem_cons_self)) (hw₂.live hlive₁) hlive₂
    (hhang₁.mono hw₂) hhang₂ (fun a b => ?_) (fun a => ?_)
  · rw [hvlow, hvlow, Function.update_of_ne ha.ne, hd.graded.eval_update (d10.ignores_y hd ha),
      hd.graded.eval_update (d00.ignores_y hd ha)]
  · rw [hvlow, hval₂, hd.graded.eval_node hn, vlow, vhigh, hx]
    cases a x <;> simp

/-- All of them are turned, one after the other. -/
theorem Turning.rotateAll (hd : d.Valid) (ha : d.Adjacent x y i) : ∀ (todo : List Nat) {e : Diagram}, todo.Nodup →
    (∀ slot ∈ todo, d.Crosses x y ⟨slot⟩) → d.Turning x y i todo e → d.Same e →
    d.Turning x y i [] (todo.foldl (Diagram.rotate x y) e) ∧ d.Same (todo.foldl (Diagram.rotate x y) e)
  | [],           e, _,      _,  h, hs => ⟨h, hs⟩
  | slot :: todo, e, hnodup, hc, h, hs => by
    obtain ⟨h', hs'⟩ := h.rotate hd ha hs (hc slot List.mem_cons_self) (List.nodup_cons.1 hnodup).1
    exact Turning.rotateAll hd ha todo (List.nodup_cons.1 hnodup).2 (fun s h => hc s (List.mem_cons_of_mem _ h)) h' hs'

/-! ## The new order -/

/-- The diagram with two variables exchanged in its order. -/
def transpose (d : Diagram) (x y i : Nat) : Diagram :=
  { d with
    varAt := (d.varAt.setIfInBounds i y).setIfInBounds (i + 1) x
    levelOf := (d.levelOf.setIfInBounds x (i + 1)).setIfInBounds y i }

theorem getD_set_set {xs : Array Nat} {j k b c : Nat} (hj : j < xs.size) (hk : k < xs.size) (l : Nat) :
    ((xs.setIfInBounds j b).setIfInBounds k c).getD l 0 = if l = k then c else if l = j then b else xs.getD l 0 := by
  rw [Array.getD_eq_getD_getElem?, Array.getElem?_setIfInBounds, Array.getElem?_setIfInBounds, Array.size_setIfInBounds,
    Array.getD_eq_getD_getElem?]
  by_cases e1 : l = k
  · subst e1
    simp [hk]
  · by_cases e2 : l = j
    · subst e2
      simp [hj, e1, Ne.symm e1]
    · simp [e1, e2, Ne.symm e1, Ne.symm e2]

theorem transpose_levelOf (ha : d.Adjacent x y i) (v : Nat) :
    (d.transpose x y i).levelOf.getD v 0 = if v = y then i else if v = x then i + 1 else d.levelOf.getD v 0 :=
  getD_set_set ha.x_lt ha.y_lt v

theorem transpose_varAt (hd : d.Ordered) (ha : d.Adjacent x y i) (j : Nat) :
    (d.transpose x y i).varAt.getD j 0 = if j = i + 1 then x else if j = i then y else d.varAt.getD j 0 :=
  getD_set_set (by rw [hd.size]; exact Nat.lt_of_succ_lt ha.level) (by rw [hd.size]; exact ha.level) j

theorem transpose_varCount : (d.transpose x y i).varCount = d.varCount := by simp [transpose, varCount]

/-- The order with two neighbours exchanged is an order. -/
theorem Ordered.transpose (hd : d.Ordered) (ha : d.Adjacent x y i) : (d.transpose x y i).Ordered := by
  have hx : d.varAt.getD i 0 = x := by rw [← ha.x_at]; exact (hd.level x ha.x_lt).2
  have hy : d.varAt.getD (i + 1) 0 = y := by rw [← ha.y_at]; exact (hd.level y ha.y_lt).2
  have hi := ha.level
  refine ⟨by simp [Diagram.transpose, hd.size], fun v hv => ?_, fun j hj => ?_⟩
  · rw [transpose_varCount] at hv ⊢
    obtain ⟨h1, h2⟩ := hd.level v hv
    rw [transpose_levelOf ha]
    by_cases ey : v = y
    · rw [if_pos ey, transpose_varAt hd ha, if_neg (by omega), if_pos rfl]
      exact ⟨by omega, ey.symm⟩
    · rw [if_neg ey]
      by_cases ex : v = x
      · rw [if_pos ex, transpose_varAt hd ha, if_pos rfl]
        exact ⟨hi, ex.symm⟩
      · rw [if_neg ex, transpose_varAt hd ha, if_neg, if_neg]
        · exact ⟨h1, h2⟩
        · intro e
          exact ex (by rw [← h2, e, hx])
        · intro e
          exact ey (by rw [← h2, e, hy])
  · rw [transpose_varCount] at hj ⊢
    obtain ⟨h1, h2⟩ := hd.var j hj
    rw [transpose_varAt hd ha]
    by_cases e1 : j = i + 1
    · rw [if_pos e1, transpose_levelOf ha, if_neg ha.ne, if_pos rfl]
      exact ⟨ha.x_lt, e1.symm⟩
    · rw [if_neg e1]
      by_cases e2 : j = i
      · rw [if_pos e2, transpose_levelOf ha, if_pos rfl]
        exact ⟨ha.y_lt, e2.symm⟩
      · rw [if_neg e2, transpose_levelOf ha, if_neg, if_neg]
        · exact ⟨h1, h2⟩
        · intro e
          rw [e, ha.x_at] at h2
          exact e2 h2.symm
        · intro e
          rw [e, ha.y_at] at h2
          exact e1 h2.symm

/-- Deep functions stay where they are. -/
theorem Turning.level_deep (h : d.Turning x y i [] e) (ha : d.Adjacent x y i) (ha' : e.Adjacent x y i) (hf : d.Deep i f) :
    (e.transpose x y i).level f = d.level f := by
  have hlt := hf.2
  have hn := h.node_eq ha hf.1 (by omega)
  cases hdn : d.node? f with
  | none =>
    rw [hdn] at hn
    rw [level_of_none hdn, level_of_none (d := e.transpose x y i) hn, transpose_varCount, h.varCount]
  | some n =>
    rw [hdn] at hn
    rw [level_of_node hdn] at hlt ⊢
    rw [level_of_node (d := e.transpose x y i) hn, transpose_levelOf ha', if_neg, if_neg, h.levelOf]
    · rintro rfl
      rw [ha.x_at] at hlt
      omega
    · rintro rfl
      rw [ha.y_at] at hlt
      omega

/-- What may be a branch of `y` lies below it. -/
theorem Turning.level_hang (h : d.Turning x y i [] e) (ha : d.Adjacent x y i) (ha' : e.Adjacent x y i)
    (hf : d.MayHang e x i f) : i < (e.transpose x y i).level f := by
  rcases hf with hf | ⟨n, hn, hx, -⟩
  · have := hf.2
    rw [h.level_deep ha ha' hf]
    omega
  · rw [level_of_node (d := e.transpose x y i) hn, transpose_levelOf ha', hx, if_neg ha.ne, if_pos rfl]
    omega

/-- What lay below a level above the two still does. -/
theorem Turning.level_above (h : d.Turning x y i [] e) (ha' : e.Adjacent x y i) {j : Nat} (hj : j < i)
    (hlt : j < d.level f) : j < (e.transpose x y i).level f := by
  cases hn : e.node? f with
  | none =>
    have := ha'.level
    rw [level_of_none (d := e.transpose x y i) hn, transpose_varCount]
    omega
  | some n =>
    rw [level_of_node (d := e.transpose x y i) hn, transpose_levelOf ha']
    split
    · exact hj
    · split
      · omega
      · rename_i hy hx
        rcases h.cases hn with ⟨hn', -⟩ | ⟨-, hy', -⟩ | ⟨-, hx', -⟩
        · rwa [h.levelOf, ← level_of_node hn']
        · exact absurd hy' hy
        · exact absurd hx' hx

/-- **With every node turned the new order holds.** -/
theorem Turning.valid (h : d.Turning x y i [] e) (hd : d.Valid) (ha : d.Adjacent x y i) : (e.transpose x y i).Valid := by
  have ha' : e.Adjacent x y i := by
    refine ⟨?_, ?_, ?_, ?_, ?_⟩
    · rw [h.varCount]; exact ha.x_lt
    · rw [h.varCount]; exact ha.y_lt
    · rw [h.varCount]; exact ha.level
    · rw [h.levelOf]; exact ha.x_at
    · rw [h.levelOf]; exact ha.y_at
  have ho : e.Ordered := by
    refine ⟨by rw [h.levelOf, h.varAt]; exact hd.ordered.size, ?_, ?_⟩
    · rw [h.varCount, h.levelOf, h.varAt]
      exact hd.ordered.level
    · rw [h.varCount, h.levelOf, h.varAt]
      exact hd.ordered.var
  have hs := h.sound
  refine ⟨⟨hs.size, hs.bot, hs.top, fun f n hn => ?_, hs.reduced, hs.live, hs.unique, hs.free, hs.nodup⟩, ho.transpose ha',
    fun f n hn => ?_⟩
  · rw [transpose_varCount]
    exact hs.var f n hn
  · rw [level_of_node hn, transpose_levelOf ha']
    rcases h.cases hn with ⟨hn', hc⟩ | ⟨-, hy, h1, h2⟩ | ⟨-, hx, h1, h2⟩
    · obtain ⟨hl, hh⟩ := hd.sound.live f n hn'
      obtain ⟨hbl, hbh⟩ := hd.below f n hn'
      rw [level_of_node hn'] at hbl hbh
      by_cases hy : n.var = y
      · rw [hy, ha.y_at] at hbl hbh
        rw [if_pos hy]
        exact ⟨h.level_hang ha ha' (.inl ⟨hl, hbl⟩), h.level_hang ha ha' (.inl ⟨hh, hbh⟩)⟩
      · rw [if_neg hy]
        by_cases hx : n.var = x
        · obtain ⟨h1, h2⟩ := hd.deep_of_not_crosses ha hn' hx (fun hc' => nomatch hc hc')
          rw [if_pos hx, h.level_deep ha ha' h1, h.level_deep ha ha' h2]
          exact ⟨h1.2, h2.2⟩
        · rw [if_neg hx, h.levelOf]
          have hxl : d.levelOf.getD n.var 0 ≠ i := fun e => hx (hd.ordered.level_inj (hd.sound.var f n hn') ha.x_lt
            (by rw [e, ha.x_at]))
          have hyl : d.levelOf.getD n.var 0 ≠ i + 1 := fun e => hy (hd.ordered.level_inj (hd.sound.var f n hn') ha.y_lt
            (by rw [e, ha.y_at]))
          rcases Nat.lt_or_ge (d.levelOf.getD n.var 0) i with hlt | hge
          · exact ⟨h.level_above ha' hlt hbl, h.level_above ha' hlt hbh⟩
          · rw [h.level_deep ha ha' ⟨hl, by omega⟩, h.level_deep ha ha' ⟨hh, by omega⟩]
            exact ⟨hbl, hbh⟩
    · rw [if_pos hy]
      exact ⟨h.level_hang ha ha' h1, h.level_hang ha ha' h2⟩
    · rw [if_neg (by rw [hx]; exact ha.ne), if_pos hx, h.level_deep ha ha' h1, h.level_deep ha ha' h2]
      exact ⟨h1.2, h2.2⟩

/-! ## Exchanges -/

/-- Another order: the functions there were are still there. -/
structure Reorders (d d' : Diagram) : Prop where
  ready    : d'.Ready
  varCount : d'.varCount = d.varCount
  refs     : d'.refs = d.refs
  live     : ∀ f, d.Live f → d'.Live f
  same     : d.Same d'

theorem Ready.reorders (hd : d.Ready) : d.Reorders d := ⟨hd, rfl, rfl, fun _ h => h, fun _ _ _ => rfl⟩

theorem Reorders.trans (h : d.Reorders d') (h' : d'.Reorders d'') : d.Reorders d'' :=
  ⟨h'.ready, h'.varCount.trans h.varCount, h'.refs.trans h.refs, fun f hf => h'.live f (h.live f hf),
    fun f hf a => (h'.same f (h.live f hf) a).trans (h.same f hf a)⟩

theorem Ordered.adjacent (hd : d.Ordered) (hx : d.varAt[i]? = some x) (hy : d.varAt[i + 1]? = some y) :
    d.Adjacent x y i := by
  have hlt : i + 1 < d.varCount := by
    rw [varCount, ← hd.size]
    exact (Array.getElem?_eq_some_iff.1 hy).1
  have hx' : d.varAt.getD i 0 = x := by rw [Array.getD_eq_getD_getElem?, hx]; rfl
  have hy' : d.varAt.getD (i + 1) 0 = y := by rw [Array.getD_eq_getD_getElem?, hy]; rfl
  obtain ⟨h1, h2⟩ := hd.var i (by omega)
  obtain ⟨h3, h4⟩ := hd.var (i + 1) hlt
  rw [hx'] at h1 h2
  rw [hy'] at h3 h4
  exact ⟨h1, h3, hlt, h2, h4⟩

/-- **An exchange of neighbours** keeps every function. -/
theorem exchange_spec (hd : d.Ready) (level : Nat) : d.Reorders (d.exchange level) := by
  unfold exchange
  split
  · rename_i x y hx hy
    have ha := hd.valid.ordered.adjacent hx hy
    obtain ⟨h, hs⟩ := Turning.rotateAll hd.valid ha (d.crossing x y) (List.nodup_range.filter _)
      (fun slot hslot => mem_crossing.1 hslot) hd.valid.turning (fun _ _ _ => rfl)
    generalize (d.crossing x y).foldl (rotate x y) d = e at h hs
    show d.Reorders (e.transpose x y level)
    have hv := h.valid hd.valid ha
    have hw : e.Within (e.transpose x y level) := fun _ _ hn => hn
    have hsame : d.Same (e.transpose x y level) := fun f hf a => by
      rw [hw.eval h.sound hv.sound (h.graded hd.valid ha) hv.graded (h.live hf), hs f hf]
    have hlive : ∀ f, d.Live f → (e.transpose x y level).Live f := fun f hf => hw.live (h.live hf)
    refine ⟨⟨hv, fun f g k r hr => ?_⟩, transpose_varCount.trans h.varCount, h.refs, hlive, hsame⟩
    rw [show (e.transpose x y level).cache = d.cache from h.cache] at hr
    obtain ⟨h1, h2, h3, h4, h5⟩ := hd.memo f g k r hr
    refine ⟨hlive f h1, hlive g h2, hlive k h3, hlive r h4, fun a => ?_⟩
    rw [hsame f h1, hsame g h2, hsame k h3, hsame r h4, h5]
  · exact hd.reorders

/-! ## Moves -/

theorem swap_spec (hd : d.Ready) {level : Nat} (h : d.swap level = .ok d') : d.Reorders d' := by
  unfold swap at h
  split at h
  · injection h with h
    exact h ▸ exchange_spec hd level
  · cases h

theorem moveDown_spec : ∀ (count level : Nat) {d : Diagram}, d.Ready → d.Reorders (moveDown count level d).2
  | 0,         _,     _, hd => hd.reorders
  | count + 1, level, d, hd => by
    unfold moveDown
    split
    · rename_i h
      have hs := swap_spec hd h
      exact hs.trans (moveDown_spec count (level + 1) hs.ready)
    · exact hd.reorders

theorem moveUp_spec : ∀ (count level : Nat) {d : Diagram}, d.Ready → d.Reorders (moveUp count level d)
  | 0,         _,     _, hd => hd.reorders
  | count + 1, level, _, hd =>
    have he := exchange_spec hd (level - 1)
    he.trans (moveUp_spec count (level - 1) he.ready)

/-- **A move of a variable** keeps every function, also one that fails on its way. -/
theorem moveVar_spec (hd : d.Ready) (v target : Nat) : d.Reorders (d.moveVar v target).2 := by
  unfold moveVar
  split
  · exact hd.reorders
  · split
    · exact moveDown_spec _ _ hd
    · exact moveUp_spec _ _ hd

/-! ## Sifting -/

theorem siftDown_spec : ∀ (count level : Nat) (best : Best) {d : Diagram}, d.Ready →
    d.Reorders (siftDown count level best d).2.2
  | 0,         _,     _,    _, hd => hd.reorders
  | count + 1, level, best, d, hd => by
    have he := exchange_spec hd level
    unfold siftDown
    simp only
    split
    · exact he.trans (siftDown_spec count (level + 1) _ he.ready)
    · split
      · exact he
      · exact he.trans (siftDown_spec count (level + 1) _ he.ready)

theorem siftUp_spec (start : Nat) : ∀ (level : Nat) (best : Best) {d : Diagram}, d.Ready →
    d.Reorders (siftUp start level best d).2.2
  | 0,         _,    _, hd => hd.reorders
  | level + 1, best, d, hd => by
    have he := exchange_spec hd level
    unfold siftUp
    simp only
    split
    · exact he.trans (siftUp_spec start level _ he.ready)
    · split
      · exact he
      · exact he.trans (siftUp_spec start level _ he.ready)

theorem siftVar_spec (hd : d.Ready) (v : Nat) : d.Reorders (d.siftVar v) := by
  unfold siftVar
  split
  · exact hd.reorders
  · rename_i start _
    have h1 := siftDown_spec (d.varCount - 1 - start) start ⟨d.rootedSize, start⟩ hd
    generalize siftDown (d.varCount - 1 - start) start ⟨d.rootedSize, start⟩ d = down at h1
    obtain ⟨level, best, d₁⟩ := down
    have h2 := siftUp_spec start level best h1.ready
    simp only
    generalize siftUp start level best d₁ = up at h2
    obtain ⟨top, best, d₂⟩ := up
    exact (h1.trans h2).trans (moveVar_spec h2.ready v best.level)

theorem siftAll_spec : ∀ (vars : List Nat) {d : Diagram}, d.Ready → d.Reorders (vars.foldl siftVar d)
  | [],        _, hd => hd.reorders
  | v :: vars, _, hd =>
    have h := siftVar_spec hd v
    h.trans (siftAll_spec vars h.ready)

/-- The referenced functions are kept. -/
structure Retains (d d' : Diagram) : Prop where
  ready    : d'.Ready
  varCount : d'.varCount = d.varCount
  refs     : d'.refs = d.refs
  live     : ∀ f ∈ d.roots, d.Live f → d'.Live f
  same     : ∀ f ∈ d.roots, d.Live f → ∀ a, d'.eval f a = d.eval f a

theorem Retains.trans (h : d.Retains d') (h' : d'.Retains d'') : d.Retains d'' := by
  have hroots : d'.roots = d.roots := congrArg (List.map Prod.fst) h.refs
  refine ⟨h'.ready, h'.varCount.trans h.varCount, h'.refs.trans h.refs, fun f hf hl => ?_, fun f hf hl a => ?_⟩
  · exact h'.live f (hroots ▸ hf) (h.live f hf hl)
  · rw [h'.same f (hroots ▸ hf) (h.live f hf hl), h.same f hf hl]

theorem Reorders.retains (h : d.Reorders d') : d.Retains d' :=
  ⟨h.ready, h.varCount, h.refs, fun f _ hf => h.live f hf, fun f _ hf a => h.same f hf a⟩

theorem collect_retains (hd : d.Ready) : d.Retains d.collect.2 := by
  obtain ⟨h1, h2, h3⟩ := collect_spec hd
  exact ⟨h1, h2.varCount.symm, h2.refs.symm, h3, fun f hf hl a => (h2.eval h1.valid hd.valid (h3 f hf hl)).symm⟩

/-- **Sifting** keeps the referenced functions. -/
theorem sift_spec (hd : d.Ready) : d.Retains d.sift.2 := by
  unfold sift
  split
  · exact hd.reorders.retains
  · have h1 := collect_retains hd
    have h2 := siftAll_spec d.collect.2.siftingOrder h1.ready
    exact (h1.trans h2.retains).trans (collect_retains h2.ready)

end Diagram
end Credence
