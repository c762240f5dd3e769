import Mathlib.Data.Nat.Bitwise
import Credence.Proofs.Moves
/-!
# What a decision graph is reduced to

A decision graph has the value of the end that its tests lead to (`Graph.Leads`).  As long as branches point back, every
node is reduced to a handle with the values of that node (`Diagram.reduceNodes_spells`), in whatever order the graph tests
its variables and however often; a branch that points forward is refused, and nothing else is
(`Diagram.reduceNodes_ok_iff`).

The tree of a truth table leads to the row of the assignment (`Graph.planted_tree`).  So a table is the table of what its
tree is reduced to, and a function is what the tree of its table is reduced to (`Diagram.reduction_of_reached`).
-/
namespace Credence
namespace Graph

variable {g ns ms : Graph} {a : Nat → Bool} {b c : Bool} {i start : Nat}

/-! ## Following a graph -/

/-- The tests of a graph lead from a node to an end with this value. -/
inductive Leads (g : Graph) (a : Nat → Bool) : Nat → Bool → Prop
  | terminal {i : Nat} {b : Bool} : g[i]? = some (.terminal b) → Leads g a i b
  | branch {i v low high : Nat} {b : Bool} : g[i]? = some (.branch v low high) →
    Leads g a (if a v then high else low) b → Leads g a i b

/-- They lead to one end at most. -/
theorem Leads.unique (h : g.Leads a i b) (h' : g.Leads a i c) : b = c := by
  induction h with
  | terminal hn =>
    cases h' with
    | terminal hn' => simpa [hn] using hn'
    | branch hn' _ => simp [hn] at hn'
  | branch hn _ ih =>
    cases h' with
    | terminal hn' => simp [hn] at hn'
    | branch hn' hl =>
      rw [hn] at hn'
      injection hn' with hn'
      injection hn' with hv hlow hhigh
      subst hv hlow hhigh
      exact ih hl

/-- More nodes behind a graph lead nowhere else. -/
theorem Leads.append (h : g.Leads a i b) (ms : Graph) : (g ++ ms).Leads a i b := by
  have hnode : ∀ {i n}, g[i]? = some n → (g ++ ms)[i]? = some n := fun {i n} hn => by
    rw [List.getElem?_append_left (List.getElem?_eq_some_iff.1 hn).1, hn]
  induction h with
  | terminal hn => exact .terminal (hnode hn)
  | branch hn _ ih => exact .branch (hnode hn) ih

/-- The branches of nodes that are numbered from `start` on point back. -/
def PointsBack (ns : Graph) (start : Nat) : Prop :=
  ∀ i v low high, ns[i]? = some (.branch v low high) → low < start + i ∧ high < start + i

theorem pointsBack_nil : PointsBack [] start := fun _ _ _ _ h => nomatch h

theorem pointsBack_cons {n : GraphNode} : PointsBack (n :: ns) start ↔
    (∀ v low high, n = .branch v low high → low < start ∧ high < start) ∧ ns.PointsBack (start + 1) := by
  constructor
  · intro h
    refine ⟨fun v low high e => by simpa using h 0 v low high (by simp [e]), fun i v low high hi => ?_⟩
    have := h (i + 1) v low high (by simpa using hi)
    omega
  · rintro ⟨hn, hns⟩ i v low high hi
    cases i with
    | zero => simpa using hn v low high (by simpa using hi)
    | succ i =>
      have := hns i v low high (by simpa using hi)
      omega

theorem pointsBack_append : (ns ++ ms).PointsBack start ↔ ns.PointsBack start ∧ ms.PointsBack (start + ns.length) := by
  induction ns generalizing start with
  | nil => simp [pointsBack_nil]
  | cons n ns ih =>
    have hlen : start + 1 + ns.length = start + (n :: ns).length := by simp; omega
    rw [List.cons_append, pointsBack_cons, pointsBack_cons, ih, hlen, and_assoc]

/-! ## The tree of a truth table -/

/-- **What a tree is like** that was planted behind `g`: the new nodes point back, the root is the last of them, and from
there an assignment with the bits of a row leads to the value of that row. -/
structure Planted (table : Array Bool) (left var row : Nat) (g : Array GraphNode) (tree : Nat × Array GraphNode) : Prop where
  grows : ∃ new : Graph, tree.2.toList = g.toList ++ new ∧ new.PointsBack g.size
  last  : tree.2.size = tree.1 + 1
  leads : ∀ (a : Nat → Bool) (r : Nat), r < 2 ^ (var + left) → r % 2 ^ var = row →
    (∀ v, var ≤ v → v < var + left → a v = r.testBit v) → Leads tree.2.toList a tree.1 (table.getD r false)

/-- By induction on the variables left to test: a branch puts its variable's bit to the bits of the row so far. -/
theorem planted_tree (table : Array Bool) : ∀ (left var row : Nat) (g : Array GraphNode),
    Planted table left var row g (tree table left var row g)
  | 0,        var, row, g => by
    refine ⟨⟨[.terminal (table.getD row false)], by simp [tree], ?_⟩, by simp [tree], fun a r hr hrow _ => ?_⟩
    · exact pointsBack_cons.2 ⟨fun _ _ _ e => (nomatch e), pointsBack_nil⟩
    · rw [Nat.add_zero] at hr
      rw [Nat.mod_eq_of_lt hr] at hrow
      exact .terminal (by simp [tree, hrow])
  | left + 1, var, row, g => by
    have hlow := planted_tree table left (var + 1) row g
    simp only [tree]
    generalize tree table left (var + 1) row g = built at hlow ⊢
    obtain ⟨low, g₁⟩ := built
    have hhigh := planted_tree table left (var + 1) (row + (1 <<< var)) g₁
    simp only at hlow ⊢
    generalize tree table left (var + 1) (row + (1 <<< var)) g₁ = built at hhigh ⊢
    obtain ⟨high, g₂⟩ := built
    obtain ⟨⟨new₁, h₁, hback₁⟩, hlast₁, hleads₁⟩ := hlow
    obtain ⟨⟨new₂, h₂, hback₂⟩, hlast₂, hleads₂⟩ := hhigh
    simp only at h₁ h₂ hlast₁ hlast₂ hleads₁ hleads₂
    have hsize₁ : g₁.size = g.size + new₁.length := by simpa using congrArg List.length h₁
    have hsize₂ : g₂.size = g₁.size + new₂.length := by simpa using congrArg List.length h₂
    refine ⟨⟨new₁ ++ new₂ ++ [.branch var low high], by simp [h₂, h₁], ?_⟩, by simp, fun a r hr hrow ha => ?_⟩
    · refine pointsBack_append.2 ⟨pointsBack_append.2 ⟨hback₁, hsize₁ ▸ hback₂⟩, pointsBack_cons.2 ⟨?_, pointsBack_nil⟩⟩
      intro v l h e
      injection e with _ e₁ e₂
      simp only [List.length_append]
      omega
    · have hbits : ∀ v, var + 1 ≤ v → v < var + 1 + left → a v = r.testBit v := fun v h1 h2 => ha v (by omega) (by omega)
      have hr' : r < 2 ^ (var + 1 + left) := by rwa [Nat.add_right_comm, Nat.add_assoc]
      have hmod : r % 2 ^ (var + 1) = r % 2 ^ var + 2 ^ var * (r.testBit var).toNat := by
        rw [Nat.toNat_testBit]
        exact Nat.mod_pow_succ
      have hroot : (g₂.push (.branch var low high)).toList[g₂.size]? = some (.branch var low high) := by simp
      refine .branch hroot ?_
      rw [Array.toList_push, ha var (Nat.le_refl _) (by omega)]
      cases hbit : r.testBit var with
      | false =>
        rw [hbit] at hmod
        simp only [Bool.false_eq_true, if_false, h₂, List.append_assoc]
        exact (hleads₁ a r hr' (by simpa [hrow] using hmod) hbits).append _
      | true =>
        rw [hbit] at hmod
        simp only [if_true]
        exact (hleads₂ a r hr' (by simpa [hrow, Nat.shiftLeft_eq] using hmod) hbits).append _

/-- The tree of a truth table, as a graph with a root. -/
theorem ofTruthTable_spec (n : Nat) (table : Array Bool) :
    (ofTruthTable n table).1.PointsBack 0 ∧ (ofTruthTable n table).1.length = (ofTruthTable n table).2 + 1 ∧
    ∀ (a : Nat → Bool) (r : Nat), r < 2 ^ n → (∀ v < n, a v = r.testBit v) →
      (ofTruthTable n table).1.Leads a (ofTruthTable n table).2 (table.getD r false) := by
  obtain ⟨⟨new, hnew, hback⟩, hlast, hleads⟩ := planted_tree table n 0 0 #[]
  simp only [ofTruthTable]
  generalize tree table n 0 0 #[] = built at hnew hlast hleads ⊢
  obtain ⟨root, g⟩ := built
  simp only at hnew hlast hleads ⊢
  refine ⟨by simpa [hnew] using hback, by simpa using hlast, fun a r hr ha => ?_⟩
  exact hleads a r (by simpa using hr) (Nat.mod_one r) (fun v _ hv => ha v (by omega))

end Graph

namespace Diagram

variable {d d' : Diagram} {f : Handle} {g ns : Graph} {done : Array Handle} {root : Nat}

/-! ## Reducing node by node -/

/-- **Which graphs can be reduced**: those whose branches point back. -/
theorem reduceNodes_ok_iff : ∀ (ns : Graph) (done : Array Handle) (d : Diagram),
    (∃ fs, (reduceNodes ns done d).1 = .ok fs) ↔ ns.PointsBack done.size
  | [],                    done, d => ⟨fun _ => Graph.pointsBack_nil, fun _ => ⟨done, rfl⟩⟩
  | .terminal value :: ns, done, d => by
    rw [Graph.pointsBack_cons, reduceNodes, reduceNodes_ok_iff ns, Array.size_push]
    refine ⟨fun h => ⟨fun _ _ _ e => ?_, h⟩, fun h => h.2⟩
    cases e
  | .branch v l h :: ns,   done, d => by
    rw [Graph.pointsBack_cons, reduceNodes]
    split
    · rename_i low high hl hh
      have hl := (Array.getElem?_eq_some_iff.1 hl).1
      have hh := (Array.getElem?_eq_some_iff.1 hh).1
      rw [reduceNodes_ok_iff ns, Array.size_push]
      refine ⟨fun h => ⟨fun _ _ _ e => ?_, h⟩, fun h => h.2⟩
      injection e with _ e₁ e₂
      exact ⟨e₁ ▸ hl, e₂ ▸ hh⟩
    · rename_i hno
      constructor
      · rintro ⟨fs, hok⟩
        cases hok
      · rintro ⟨hback, -⟩
        obtain ⟨hl, hh⟩ := hback v l h rfl
        exact absurd (Array.getElem?_eq_getElem hh) (hno _ _ (Array.getElem?_eq_getElem hl))

/-- Every handle so far is live, and its values are those of its node. -/
def Spells (d : Diagram) (g : Graph) (done : Array Handle) : Prop :=
  ∀ i f, done[i]? = some f → d.Live f ∧ ∀ a, g.Leads a i (d.eval f a)

theorem Spells.grow (h : d.Spells g done) (hg : d.Grows d') (hd : d.Ready) : d'.Spells g done := fun i f hf => by
  obtain ⟨hlive, hleads⟩ := h i f hf
  exact ⟨hg.within.live hlive, fun a => (hg.eval hd hlive).symm ▸ hleads a⟩

theorem Spells.push (h : d.Spells g done) (hf : d.Live f) (hleads : ∀ a, g.Leads a done.size (d.eval f a)) :
    d.Spells g (done.push f) := fun i k hk => by
  rw [Array.getElem?_push] at hk
  split at hk
  · rename_i e
    injection hk with hk
    exact e ▸ hk ▸ ⟨hf, hleads⟩
  · exact h i k hk

/-- The nodes behind the one that comes next. -/
theorem getElem?_behind {n : GraphNode} (h : ∀ i, (n :: ns)[i]? = g[done.size + i]?) (f : Handle) (i : Nat) :
    ns[i]? = g[(done.push f).size + i]? := by
  rw [Array.size_push, Nat.add_assoc, Nat.add_comm 1 i, ← h (i + 1), List.getElem?_cons_succ]

/-- **Node by node, a graph is spelled out in handles**: a branch gets the function that picks between those of its own
branches, which come before it. -/
theorem reduceNodes_spells : ∀ (ns : Graph) {done : Array Handle} {d : Diagram}, d.Ready →
    (∀ i, ns[i]? = g[done.size + i]?) → d.Spells g done → ∀ fs, (reduceNodes ns done d).1 = .ok fs →
    fs.size = done.size + ns.length ∧ (reduceNodes ns done d).2.Spells g fs
  | [],                    done, d, hd, hns, hs, fs, hok => by
    injection hok with hok
    exact hok ▸ ⟨rfl, hs⟩
  | .terminal value :: ns, done, d, hd, hns, hs, fs, hok => by
    have hnode : g[done.size]? = some (.terminal value) := (hns 0).symm
    have hval : ∀ a, d.eval (.ofBool value) a = value := fun a => by
      cases value with
      | true => exact hd.valid.eval_top
      | false => exact hd.valid.eval_bot
    have hpush := hs.push (live_ofBool value) (fun a => (hval a).symm ▸ .terminal hnode)
    obtain ⟨hsize, hspells⟩ := reduceNodes_spells ns hd (getElem?_behind hns _) hpush fs hok
    exact ⟨by rw [hsize, Array.size_push, List.length_cons]; omega, hspells⟩
  | .branch v l h :: ns,   done, d, hd, hns, hs, fs, hok => by
    have hnode : g[done.size]? = some (.branch v l h) := (hns 0).symm
    rw [reduceNodes] at hok ⊢
    split at hok
    · rename_i low high hl hh
      obtain ⟨hlow, hleadsl⟩ := hs l low hl
      obtain ⟨hhigh, hleadsh⟩ := hs h high hh
      obtain ⟨hgrows, hlive, hval⟩ := branch_spec hd v hlow hhigh
      have hpush := (hs.grow hgrows hd).push hlive (fun a => .branch hnode (by
        rw [hval]
        cases a v with
        | true => exact hleadsh a
        | false => exact hleadsl a))
      obtain ⟨hsize, hspells⟩ := reduceNodes_spells ns hgrows.ready (getElem?_behind hns _) hpush fs hok
      exact ⟨by rw [hsize, Array.size_push, List.length_cons]; omega, hspells⟩
    · cases hok

/-- The handles of a whole graph. -/
theorem reduceNodes_start (hd : d.Ready) (g : Graph) (fs : Array Handle) (h : (reduceNodes g #[] d).1 = .ok fs) :
    fs.size = g.length ∧ (reduceNodes g #[] d).2.Spells g fs := by
  have hnone : d.Spells g #[] := fun i f hf => by simp at hf
  obtain ⟨hsize, hspells⟩ := reduceNodes_spells g hd (fun i => by simp) hnone fs h
  exact ⟨by simpa using hsize, hspells⟩

/-- **A graph is reduced from a node when there is such a node and no branch up to there points forward**, and then to a
function with the values that its tests lead to. -/
theorem reduce_cases (hd : d.Ready) (g : Graph) (root : Nat) :
    (root < g.length ∧ Graph.PointsBack (g.take (root + 1)) 0 ∧ ∃ f, (d.reduce g root).1 = .ok f ∧
      (d.reduce g root).2.Live f ∧ ∀ a, g.Leads a root ((d.reduce g root).2.eval f a)) ∨
    ¬ (root < g.length ∧ Graph.PointsBack (g.take (root + 1)) 0) ∧ ∃ e, (d.reduce g root).1 = .error e := by
  have hok := reduceNodes_ok_iff (g.take (root + 1)) #[] d
  have hstart := reduceNodes_start hd (g.take (root + 1))
  unfold reduce
  split
  · rename_i hge
    exact .inr ⟨fun h => Nat.not_lt_of_le hge h.1, _, rfl⟩
  · rename_i hlt
    have hlt := Nat.lt_of_not_le hlt
    generalize reduceNodes (g.take (root + 1)) #[] d = built at hok hstart ⊢
    obtain ⟨result, d₁⟩ := built
    cases result with
    | error e =>
      refine .inr ⟨fun h => ?_, e, rfl⟩
      obtain ⟨fs, hfs⟩ := hok.2 h.2
      cases hfs
    | ok fs =>
      obtain ⟨hsize, hspells⟩ := hstart fs rfl
      have hroot : root < fs.size := by
        rw [hsize, List.length_take]
        omega
      have hget := Array.getElem?_eq_getElem hroot
      obtain ⟨hlive, hleads⟩ := hspells root _ hget
      simp only [hget]
      refine .inl ⟨hlt, hok.1 ⟨fs, rfl⟩, _, rfl, hlive, fun a => ?_⟩
      have hlead := (hleads a).append (g.drop (root + 1))
      rwa [List.take_append_drop] at hlead

/-- What is not the case when a branch up to the root points forward. -/
theorem not_pointsBack_take : ¬ Graph.PointsBack (g.take (root + 1)) 0 ↔
    ∃ i v low high, i ≤ root ∧ g[i]? = some (.branch v low high) ∧ (i ≤ low ∨ i ≤ high) := by
  have htake : ∀ {i}, i ≤ root → (g.take (root + 1))[i]? = g[i]? := fun hi => List.getElem?_take_of_lt (Nat.lt_succ_of_le hi)
  constructor
  · intro h
    simp only [Graph.PointsBack, not_forall] at h
    obtain ⟨i, v, low, high, hi, hno⟩ := h
    have hle : i ≤ root := by
      have := (List.getElem?_eq_some_iff.1 hi).1
      rw [List.length_take] at this
      omega
    exact ⟨i, v, low, high, hle, htake hle ▸ hi, by omega⟩
  · rintro ⟨i, v, low, high, hle, hi, hno⟩ h
    have := h i v low high (by rw [htake hle]; exact hi)
    omega

/-! ## Truth tables -/

/-- The function of a truth table. -/
def reduceTable (d : Diagram) (n : Nat) (table : Array Bool) : Except Error Handle × Diagram :=
  d.reduce (Graph.ofTruthTable n table).1 (Graph.ofTruthTable n table).2

theorem truthTable_eq {n : Nat} (hn : n < 64) (d : Diagram) (f : Handle) :
    d.truthTable f n = (List.range (2 ^ n)).map (fun row => d.eval f (fun v => row.testBit (v % 64))) := by
  rw [truthTable, Nat.mod_eq_of_lt hn, Nat.one_shiftLeft]

/-- Every assignment of the first `n` variables has a row. -/
theorem exists_row (n : Nat) (a : Nat → Bool) : ∃ r < 2 ^ n, ∀ v < n, a v = r.testBit v :=
  ⟨Nat.ofBits (fun i : Fin n => a i), Nat.ofBits_lt_two_pow _,
    fun v hv => (Nat.testBit_ofBits_lt (fun i : Fin n => a i) v hv).symm⟩

/-- The function of a table has the values of its rows. -/
theorem reduceTable_spec (hd : d.Ready) (n : Nat) (table : Array Bool) : ∃ f, (d.reduceTable n table).1 = .ok f ∧
    (d.reduceTable n table).2.Live f ∧ ∀ (a : Nat → Bool) (r : Nat), r < 2 ^ n → (∀ v < n, a v = r.testBit v) →
      (d.reduceTable n table).2.eval f a = table.getD r false := by
  obtain ⟨hback, hlen, hleads⟩ := Graph.ofTruthTable_spec n table
  unfold reduceTable
  generalize Graph.ofTruthTable n table = tree at hback hlen hleads ⊢
  obtain ⟨g, root⟩ := tree
  simp only at hback hlen hleads ⊢
  rcases reduce_cases hd g root with ⟨-, -, f, hok, hlive, hval⟩ | ⟨hno, -⟩
  · exact ⟨f, hok, hlive, fun a r hr ha => (hval a).unique (hleads a r hr ha)⟩
  · refine absurd ⟨by omega, ?_⟩ hno
    rwa [List.take_of_length_le (Nat.le_of_eq hlen)]

/-- **A table is the table of its function.** -/
theorem truthTable_reduceTable (hd : d.Ready) {n : Nat} (hn : n < 64) {table : Array Bool} (hsize : table.size = 2 ^ n) :
    ∃ f, (d.reduceTable n table).1 = .ok f ∧ (d.reduceTable n table).2.truthTable f n = table.toList := by
  obtain ⟨f, hok, -, hval⟩ := reduceTable_spec hd n table
  refine ⟨f, hok, ?_⟩
  rw [truthTable_eq hn]
  refine List.ext_getElem (by simp [hsize]) (fun r hr _ => ?_)
  have hr : r < 2 ^ n := by simpa using hr
  have hbits : ∀ v < n, r.testBit (v % 64) = r.testBit v := fun v hv => by rw [Nat.mod_eq_of_lt (by omega)]
  simp only [List.getElem_map, List.getElem_range]
  rw [hval _ r hr hbits]
  simp [Array.getD_eq_getD_getElem?, hsize, hr]

/-- **A function is the function of its table**, when it tests no variable beyond those of the table. -/
theorem reduceTable_truthTable (hd : d.Ready) {n : Nat} (hn : n < 64) (hf : d.Live f) (ht : ∀ v, d.Tests f v → v < n) :
    (d.reduceTable n (d.truthTable f n).toArray).1 = .ok f := by
  obtain ⟨k, hok, hlive, hval⟩ := reduceTable_spec hd n (d.truthTable f n).toArray
  have hgrows : d.Grows (d.reduceTable n (d.truthTable f n).toArray).2 := (reduce_spec hd _ _).1
  refine hok.trans (congrArg _ (hgrows.ready.valid.canonical hlive (hgrows.within.live hf) (fun a => ?_)))
  obtain ⟨r, hr, hbits⟩ := exists_row n a
  have heval : d.eval f (fun v => r.testBit (v % 64)) = d.eval f a := by
    refine hd.valid.graded.eval_congr f (fun v hv => ?_)
    have hlt := ht v hv
    rw [Nat.mod_eq_of_lt (by omega), hbits v hlt]
  rw [hval a r hr hbits, hgrows.eval hd hf, ← heval, truthTable_eq hn]
  simp [Array.getD_eq_getD_getElem?, hr]

/-! ## Any diagram that can be reached -/

/-- **Reduction.**  A graph is refused exactly when there is no such root or a branch up to it points forward; otherwise
the handle it is reduced to has, for every assignment, the one value that the tests of the graph lead to.  A table of
fewer than 64 variables is the table of what its tree is reduced to, and a function of the variables below `n` is what the
tree of its table is reduced to. -/
theorem reduction_of_reached {capacity : Nat} {growth : Float} (h : Reached capacity growth d) :
    (∀ (g : Graph) (root : Nat),
      ((∃ e, (d.reduce g root).1 = .error e) ↔ g.length ≤ root ∨
        ∃ i v low high, i ≤ root ∧ g[i]? = some (.branch v low high) ∧ (i ≤ low ∨ i ≤ high)) ∧
      ∀ f, (d.reduce g root).1 = .ok f → (d.reduce g root).2.Live f ∧
        ∀ a b, g.Leads a root b ↔ (d.reduce g root).2.eval f a = b) ∧
    (∀ n < 64, ∀ table : Array Bool, table.size = 2 ^ n →
      ∃ f, (d.reduceTable n table).1 = .ok f ∧ (d.reduceTable n table).2.truthTable f n = table.toList) ∧
    ∀ n < 64, ∀ f, d.Live f → (∀ v, d.Tests f v → v < n) →
      (d.reduceTable n (d.truthTable f n).toArray).1 = .ok f := by
  have hd := h.ready
  refine ⟨fun g root => ?_, fun n hn table => truthTable_reduceTable hd hn, fun n hn f => reduceTable_truthTable hd hn⟩
  rw [← not_pointsBack_take, ← Nat.not_lt, ← not_and_or]
  rcases reduce_cases hd g root with ⟨hlt, hback, f, hok, hlive, hleads⟩ | ⟨hno, e, herr⟩
  · refine ⟨⟨fun ⟨e, he⟩ => ?_, fun hno => absurd ⟨hlt, hback⟩ hno⟩, fun k hk => ?_⟩
    · rw [hok] at he
      cases he
    · obtain rfl : f = k := by simpa [hok] using hk
      refine ⟨hlive, fun a b => ⟨fun hl => (hleads a).unique hl, ?_⟩⟩
      rintro rfl
      exact hleads a
  · refine ⟨⟨fun _ => hno, fun _ => ⟨e, herr⟩⟩, fun f hok => ?_⟩
    rw [herr] at hok
    cases hok

namespace Exchanged

/-- The conjunction of `x` and `y` as a graph that tests `y` twice, with `x` in between, and behind it a branch that points
forward. -/
def zigzag : Graph :=
  [.terminal false, .terminal true, .branch 1 0 1, .branch 0 0 2, .branch 1 0 3, .branch 2 6 1]

theorem zigzag_leads (a : Nat → Bool) : zigzag.Leads a 4 (a 0 && a 1) := by
  have hbot : zigzag.Leads a 0 false := .terminal rfl
  have htop : zigzag.Leads a 1 true := .terminal rfl
  refine .branch rfl ?_
  cases hy : a 1 with
  | false => simpa using hbot
  | true =>
    refine .branch rfl ?_
    cases hx : a 0 with
    | false => exact hbot
    | true => exact .branch rfl (by simpa [hy] using htop)

end Exchanged

open Exchanged in
/-- The graph of a conjunction, its truth table, and the conjunction itself, where `y` is tested before `x`. -/
theorem reduction_of_reached_exchanged : Reached 4 1.5 turned ∧
    (∃ f, (turned.reduce zigzag 4).1 = .ok f ∧ ∀ a, (turned.reduce zigzag 4).2.eval f a = (a 0 && a 1)) ∧
    (∃ e, (turned.reduce zigzag 5).1 = .error e) ∧
    (∃ f, (turned.reduceTable 2 #[false, false, false, true]).1 = .ok f ∧
      (turned.reduceTable 2 #[false, false, false, true]).2.truthTable f 2 = [false, false, false, true]) ∧
    turned.Live xy.1 ∧ (∀ v, turned.Tests xy.1 v → v < 2) ∧
    (turned.reduceTable 2 (turned.truthTable xy.1 2).toArray).1 = .ok xy.1 := by
  obtain ⟨h, hxy, -, -, -⟩ := turned_spec
  obtain ⟨hgraph, htable, hfunction⟩ := reduction_of_reached h
  have htests : ∀ v, turned.Tests xy.1 v → v < 2 := fun v hv => turned_varCount ▸ (h.ready.valid.le_of_tests hv).1
  obtain ⟨herr, hval⟩ := hgraph zigzag 4
  refine ⟨h, ?_, (hgraph zigzag 5).1.2 (.inr ⟨5, 2, 6, 1, Nat.le_refl 5, rfl, .inl (by decide)⟩),
    htable 2 (by decide) _ rfl, hxy, htests, hfunction 2 (by decide) _ hxy htests⟩
  cases hok : (turned.reduce zigzag 4).1 with
  | ok f => exact ⟨f, rfl, fun a => ((hval f hok).2 a _).1 (zigzag_leads a)⟩
  | error e =>
    -- no branch up to the root points forward
    obtain hlen | ⟨i, v, low, high, hi, hnode, hforward⟩ := herr.1 ⟨e, hok⟩
    · exact absurd hlen (by decide)
    · have hcases : i = 0 ∨ i = 1 ∨ i = 2 ∨ i = 3 ∨ i = 4 := by omega
      rcases hcases with rfl | rfl | rfl | rfl | rfl
      all_goals
        simp only [zigzag, List.getElem?_cons_zero, List.getElem?_cons_succ, Option.some.injEq, GraphNode.branch.injEq,
          reduceCtorEq] at hnode
      all_goals omega

end Diagram
end Credence
