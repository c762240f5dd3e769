import Credence.Diagram.Graph
import Credence.Proofs.Connectives
/-!
# Fixed variables and decision graphs

Fixing a variable gives the function of the assignments in which it has that value (`restrict_spec`): the recursion keeps
a memo of functions it has fixed, and the results lie no higher than what they come from.  A decision graph is reduced
node by node; each gets the function that picks between those of its branches (`branch_spec`), so all of them are live.
-/
namespace Credence
namespace Diagram

variable {d d' d'' : Diagram} {f g h : Handle} {n : Node} {a : Nat → Bool} {v level : Nat} {value : Bool}

/-! ## Fixing a variable -/

/-- The values of a function where a variable has been fixed. -/
def fixed (d : Diagram) (v : Nat) (value : Bool) (f : Handle) (a : Nat → Bool) : Bool :=
  d.eval f (Function.update a v value)

theorem Keeps.fixed (hk : d.Keeps d') (hd : d.Valid) (hd' : d'.Valid) (hf : d.Live f) :
    d'.fixed v value f a = d.fixed v value f a := hk.eval hd hd' hf

/-- A function without the variable is left as it is. -/
theorem Valid.fixed_of_lt (hd : d.Valid) (h : d.levelOf.getD v 0 < d.level f) (a : Nat → Bool) :
    d.eval f a = d.fixed v value f a := (hd.graded.eval_update (hd.not_tests h) value).symm

/-- Fixing a variable does not raise a function. -/
theorem Builds.le_level_fixed {built : Handle × Diagram} (hb : d.Builds (d.fixed v value f) built) (hd : d.Valid) :
    d.level f ≤ built.2.level built.1 := by
  refine hb.ready.valid.le_level (by rw [hb.keeps.varCount]; exact hd.level_le f) (fun w hw a x => ?_)
  rw [hb.keeps.levelOf] at hw
  rw [hb.eval, hb.eval, fixed, fixed]
  by_cases e : w = v
  · rw [e, Function.update_idem]
  · rw [Function.update_comm e, hd.graded.eval_update (hd.not_tests hw)]

/-- Every remembered result is its function with the variable fixed. -/
def Fixes (d : Diagram) (v : Nat) (value : Bool) (memo : Std.HashMap Handle Handle) : Prop :=
  ∀ f r : Handle, memo[f]? = some r → d.Live f ∧ d.Live r ∧ ∀ a, d.eval r a = d.fixed v value f a

theorem Fixes.keep {memo : Std.HashMap Handle Handle} (hm : d.Fixes v value memo) (hk : d.Keeps d') (hd : d.Valid)
    (hd' : d'.Valid) : d'.Fixes v value memo := by
  intro f r hr
  obtain ⟨h1, h2, h3⟩ := hm f r hr
  refine ⟨hk.within.live h1, hk.within.live h2, fun a => ?_⟩
  rw [hk.eval hd hd' h2, hk.fixed hd hd' h1, h3]

theorem Fixes.insert {memo : Std.HashMap Handle Handle} (hm : d.Fixes v value memo) {r : Handle} (hf : d.Live f)
    (hr : d.Live r) (he : ∀ a, d.eval r a = d.fixed v value f a) : d.Fixes v value (memo.insert f r) := by
  intro f' r' h
  rw [Std.HashMap.getElem?_insert] at h
  split at h
  · rename_i e
    injection h with h
    subst h
    rw [← eq_of_beq e]
    exact ⟨hf, hr, he⟩
  · exact hm f' r' h

/-- The results for the branches of a node make the result for the node. -/
theorem Ready.rejoin (hd : d.Ready) (hn : d.node? f = some n) (hne : n.var ≠ v) {low high : Handle} {d₁ d₂ : Diagram}
    (hlow : d.Builds (d.fixed v value n.low) (low, d₁)) (hhigh : d₁.Builds (d₁.fixed v value n.high) (high, d₂)) :
    d.Builds (d.fixed v value f) (d₂.make ⟨n.var, low, high⟩) ∧ d₂.Keeps (d₂.make ⟨n.var, low, high⟩).2 := by
  obtain ⟨hl, hh⟩ := hd.valid.sound.live f n hn
  obtain ⟨hbl, hbh⟩ := hd.valid.below f n hn
  have hk₁ := hlow.keeps
  have hk₂ := hhigh.keeps
  have hv₁ := hlow.ready.valid
  have hv₂ := hhigh.ready.valid
  have hlow₂ : d₂.Live low := hk₂.within.live hlow.live
  have hlowl := hlow.le_level_fixed hd.valid
  have hhighl := hhigh.le_level_fixed hv₁
  rw [hk₁.level hv₁.sound hh] at hhighl
  rw [level_of_node hn] at hbl hbh
  have hlevels : d₂.levelOf.getD n.var 0 = d.levelOf.getD n.var 0 := by rw [hk₂.levelOf, hk₁.levelOf]
  have hb := hhigh.ready.make (n := ⟨n.var, low, high⟩)
    (by rw [hk₂.varCount, hk₁.varCount]; exact hd.valid.sound.var f n hn) hlow₂ hhigh.live
    (by rw [hk₂.level hv₂.sound hlow.live]; simp only at hlowl ⊢; omega) (by simp only at hhighl ⊢; omega)
  refine ⟨⟨hb.ready, (hk₁.trans hk₂).trans hb.keeps, hb.live, fun a => (hb.eval a).trans ?_⟩, hb.keeps⟩
  simp only
  rw [hk₂.eval hv₁ hv₂ hlow.live, hlow.eval, hhigh.eval, hk₁.fixed hd.valid hv₁ hh, fixed, fixed, fixed,
    hd.valid.graded.eval_node hn, Function.update_of_ne hne]

theorem restrictWithin_spec : ∀ (depth : Nat) {d : Diagram} {memo : Std.HashMap Handle Handle} {f : Handle},
    d.Ready → v < d.varCount → d.levelOf.getD v 0 = level → d.Live f → d.Fixes v value memo →
    d.varCount < depth + d.level f → ∀ {r : Handle} {d' : Diagram} {memo' : Std.HashMap Handle Handle},
    restrictWithin v level value depth d memo f = (r, d', memo') →
    d.Builds (d.fixed v value f) (r, d') ∧ d'.Fixes v value memo'
  | depth, d, memo, f, hd, hv, hlv, hf, hm, hdepth, r, d', memo', hr => by
    unfold restrictWithin at hr
    cases hn : d.node? f with
    | none =>
      simp only [hn, Prod.mk.injEq] at hr
      obtain ⟨rfl, rfl, rfl⟩ := hr
      have hlt : d.levelOf.getD v 0 < d.level f := by
        rw [level_of_none hn]
        exact (hd.valid.ordered.level v hv).1
      exact ⟨hd.builds hf (hd.valid.fixed_of_lt hlt), hm⟩
    | some n =>
      have hlt := hd.valid.graded.bound f n hn
      cases depth with
      | zero => omega
      | succ depth =>
        simp only [hn] at hr
        split at hr
        · simp only [Prod.mk.injEq] at hr
          obtain ⟨rfl, rfl, rfl⟩ := hr
          exact ⟨hd.builds hf (hd.valid.fixed_of_lt (by omega)), hm⟩
        · split at hr
          · rename_i r' hk
            simp only [Prod.mk.injEq] at hr
            obtain ⟨rfl, rfl, rfl⟩ := hr
            obtain ⟨-, h1, h2⟩ := hm f r' hk
            exact ⟨hd.builds h1 h2, hm⟩
          · obtain ⟨hl, hh⟩ := hd.valid.sound.live f n hn
            obtain ⟨hbl, hbh⟩ := hd.valid.below f n hn
            split at hr
            · -- the variable itself: one of the branches
              rename_i e
              simp only [Prod.mk.injEq] at hr
              obtain ⟨rfl, rfl, rfl⟩ := hr
              have hlive : d.Live (if value then n.high else n.low) := by
                split
                · exact hh
                · exact hl
              have heval : ∀ a, d.eval (if value then n.high else n.low) a = d.fixed v value f a := by
                intro a
                rw [fixed, ← e]
                cases value with
                | true => exact hd.valid.graded.eval_high hn (hd.valid.not_tests_high hn)
                | false => exact hd.valid.graded.eval_low hn (hd.valid.not_tests_low hn)
              exact ⟨hd.builds hlive heval, hm.insert hf hlive heval⟩
            · rename_i hne
              generalize hlow : restrictWithin v level value depth d memo n.low = built at hr
              obtain ⟨low, d₁, memo₁⟩ := built
              obtain ⟨hb₁, hm₁⟩ := restrictWithin_spec depth hd hv hlv hl hm (by omega) hlow
              have hk₁ := hb₁.keeps
              simp only at hr hk₁
              generalize hhigh : restrictWithin v level value depth d₁ memo₁ n.high = built at hr
              obtain ⟨high, d₂, memo₂⟩ := built
              obtain ⟨hb₂, hm₂⟩ := restrictWithin_spec depth hb₁.ready (by rw [hk₁.varCount]; exact hv)
                (by rw [hk₁.levelOf]; exact hlv) (hk₁.within.live hh) hm₁
                (by rw [hk₁.varCount, hk₁.level hb₁.ready.valid.sound hh]; omega) hhigh
              simp only [Prod.mk.injEq] at hr
              obtain ⟨hb, hk⟩ := hd.rejoin hn hne hb₁ hb₂
              obtain ⟨rfl, rfl, rfl⟩ := hr
              refine ⟨hb, (hm₂.keep hk hb₂.ready.valid hb.ready.valid).insert (hb.keeps.within.live hf) hb.live
                (fun a => ?_)⟩
              rw [hb.keeps.fixed hd.valid hb.ready.valid hf]
              exact hb.eval a

/-- **A function with a variable fixed.** -/
theorem restrict_spec (hd : d.Ready) (hf : d.Live f) : d.Builds (d.fixed v value f) (d.restrict f v value) := by
  unfold restrict
  cases hv : d.levelOf[v]? with
  | none =>
    -- a variable that the diagram does not have
    have hle : d.varCount ≤ v := Array.getElem?_eq_none_iff.1 hv
    refine hd.builds hf (fun a => (hd.valid.graded.eval_update (fun ht => ?_) value).symm)
    exact Nat.not_lt_of_le hle (hd.valid.le_of_tests ht).1
  | some level =>
    have hlt : v < d.varCount := (Array.getElem?_eq_some_iff.1 hv).1
    have hlv : d.levelOf.getD v 0 = level := by rw [Array.getD_eq_getD_getElem?, hv]; rfl
    exact (restrictWithin_spec (d.varCount + 1) hd hlt hlv hf (fun _ _ h => by simp at h) (by omega) rfl).1

/-! ## Decision graphs -/

/-- More variables, perhaps, and every node still there. -/
structure Grows (d d' : Diagram) : Prop where
  ready  : d'.Ready
  within : d.Within d'
  refs   : d'.refs = d.refs

theorem Ready.grows (hd : d.Ready) : d.Grows d := ⟨hd, fun _ _ h => h, rfl⟩

theorem Grows.trans (h : d.Grows d') (h' : d'.Grows d'') : d.Grows d'' :=
  ⟨h'.ready, fun f n hn => h'.within f n (h.within f n hn), h'.refs.trans h.refs⟩

theorem Grows.eval (h : d.Grows d') (hd : d.Ready) (hf : d.Live f) : d'.eval f a = d.eval f a :=
  h.within.eval hd.valid.sound h.ready.valid.sound hd.valid.graded h.ready.valid.graded hf

theorem Builds.grows {val : (Nat → Bool) → Bool} {built : Handle × Diagram} (h : d.Builds val built) : d.Grows built.2 :=
  ⟨h.ready, h.keeps.within, h.keeps.refs⟩

theorem grows_var (hd : d.Ready) (v : Nat) : d.Grows (d.var v).2 := by
  obtain ⟨h1, h2, h3, -⟩ := var_spec hd v
  exact ⟨h1, h2, h3⟩

/-- The function that picks between two by a variable. -/
theorem branch_spec (hd : d.Ready) (v : Nat) {low high : Handle} (hlow : d.Live low) (hhigh : d.Live high) :
    d.Grows (d.branch v low high).2 ∧ (d.branch v low high).2.Live (d.branch v low high).1 ∧
    ∀ a, (d.branch v low high).2.eval (d.branch v low high).1 a = if a v then d.eval high a else d.eval low a := by
  have hd₁ := (hd.ensureVars (a := fun _ => false) (v + 1)).1
  have hsame : ∀ a f, d.Live f → (d.ensureVars (v + 1)).eval f a = d.eval f a := fun a => (hd.ensureVars (v + 1)).2
  have hg₁ : d.Grows (d.ensureVars (v + 1)) := ⟨hd₁, fun _ _ h => h, rfl⟩
  have hv : v < (d.ensureVars (v + 1)).varCount := by
    rw [ensureVars_varCount]
    omega
  unfold branch
  generalize d.ensureVars (v + 1) = d₁ at hd₁ hsame hg₁ hv
  have hlow₁ := hg₁.within.live hlow
  have hhigh₁ := hg₁.within.live hhigh
  simp only
  split
  · rename_i e
    refine ⟨hg₁, hlow₁, fun a => ?_⟩
    rw [hsame a low hlow, e]
    simp
  · split
    · rename_i hlt
      have hb := hd₁.make (n := ⟨v, low, high⟩) hv hlow₁ hhigh₁ hlt.1 hlt.2
      refine ⟨hg₁.trans hb.grows, hb.live, fun a => (hb.eval a).trans ?_⟩
      simp only
      rw [hsame a low hlow, hsame a high hhigh]
    · obtain ⟨hd₂, hw₂, -, -, hx, hval⟩ := var_spec hd₁ v
      have hg₂ := grows_var hd₁ v
      have hb := ite_spec hd₂ hx (hw₂.live hhigh₁) (hw₂.live hlow₁)
      refine ⟨(hg₁.trans hg₂).trans hb.grows, hb.live, fun a => (hb.eval a).trans ?_⟩
      rw [choice, hval, hg₂.eval hd₁ hhigh₁, hg₂.eval hd₁ hlow₁, hsame a low hlow, hsame a high hhigh]

theorem live_ofBool (b : Bool) : d.Live (.ofBool b) := by
  cases b with
  | true => exact live_top
  | false => exact live_bot

/-- Node by node, every handle that a graph is reduced to is live. -/
theorem reduceNodes_spec : ∀ (g : Graph) {done : Array Handle} {d : Diagram}, d.Ready → (∀ f ∈ done, d.Live f) →
    d.Grows (reduceNodes g done d).2 ∧
    ∀ fs, (reduceNodes g done d).1 = .ok fs → ∀ f ∈ fs, (reduceNodes g done d).2.Live f
  | [],                    done, d, hd, hdone => by
    refine ⟨hd.grows, fun fs h => ?_⟩
    injection h with h
    subst h
    exact hdone
  | .terminal value :: ns, done, d, hd, hdone => by
    refine reduceNodes_spec ns hd (fun f hf => ?_)
    rcases Array.mem_push.1 hf with hf | rfl
    · exact hdone f hf
    · exact live_ofBool value
  | .branch v l h :: ns,   done, d, hd, hdone => by
    unfold reduceNodes
    split
    · rename_i low high hl hh
      obtain ⟨hg, hlive, -⟩ := branch_spec hd v (hdone low (Array.mem_of_getElem? hl)) (hdone high (Array.mem_of_getElem? hh))
      have hpush : ∀ f ∈ done.push (d.branch v low high).1, (d.branch v low high).2.Live f := by
        intro f hf
        rcases Array.mem_push.1 hf with hf | rfl
        · exact hg.within.live (hdone f hf)
        · exact hlive
      obtain ⟨h1, h2⟩ := reduceNodes_spec ns hg.ready hpush
      exact ⟨hg.trans h1, h2⟩
    · exact ⟨hd.grows, fun fs h => nomatch h⟩

/-- **The function of a graph is a live one.** -/
theorem reduce_spec (hd : d.Ready) (g : Graph) (root : Nat) : d.Grows (d.reduce g root).2 ∧
    ∀ f, (d.reduce g root).1 = .ok f → (d.reduce g root).2.Live f := by
  unfold reduce
  split
  · exact ⟨hd.grows, fun f h => nomatch h⟩
  · have hnone : ∀ f ∈ (#[] : Array Handle), d.Live f := fun f hf => by simp at hf
    obtain ⟨h1, h2⟩ := reduceNodes_spec (g.take (root + 1)) hd hnone
    generalize reduceNodes (g.take (root + 1)) #[] d = built at h1 h2
    obtain ⟨result, d₁⟩ := built
    cases result with
    | error e => exact ⟨h1, fun f h => nomatch h⟩
    | ok done =>
      simp only
      split
      · rename_i f hf
        refine ⟨h1, fun g h => ?_⟩
        injection h with h
        subst h
        exact h2 done rfl f (Array.mem_of_getElem? hf)
      · exact ⟨h1, fun f h => nomatch h⟩

end Diagram
end Credence
